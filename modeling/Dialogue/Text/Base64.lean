/-! Bytes as text: three bytes make four characters, and equal signs fill up the last four. Reading
leaves out foreign characters and ends at the padding that completes four. -/

namespace Dialogue.Text.Base64

inductive Fault where
  | notAscii
  /-- One character is left over, of this many in all. -/
  | leftOver (count : Nat)
  | incorrectPadding
  deriving DecidableEq

def Fault.message : Fault → String
  | .notAscii => "string argument should contain only ASCII characters"
  | .leftOver count =>
    "Invalid base64-encoded string: number of data characters (" ++ toString count
      ++ ") cannot be 1 more than a multiple of 4"
  | .incorrectPadding => "Incorrect padding"

/-! ## Writing -/

def alphabet : List Char :=
  "ABCDEFGHIJKLMNOPQRSTUVWXYZabcdefghijklmnopqrstuvwxyz0123456789+/".toList

def digit (n : Nat) : Char :=
  alphabet.getD n 'A'

def encode : List UInt8 → List Char
  | [] => []
  | [a] => [digit (a.toNat / 4), digit (a.toNat % 4 * 16), '=', '=']
  | [a, b] =>
    [digit (a.toNat / 4), digit (a.toNat % 4 * 16 + b.toNat / 16), digit (b.toNat % 16 * 4), '=']
  | a :: b :: c :: rest =>
    digit (a.toNat / 4) :: digit (a.toNat % 4 * 16 + b.toNat / 16)
      :: digit (b.toNat % 16 * 4 + c.toNat / 64) :: digit (c.toNat % 64) :: encode rest

/-! ## Reading -/

def value? (c : Char) : Option Nat :=
  if 'A' ≤ c ∧ c ≤ 'Z' then some (c.toNat - 65)
  else if 'a' ≤ c ∧ c ≤ 'z' then some (c.toNat - 71)
  else if '0' ≤ c ∧ c ≤ '9' then some (c.toNat + 4)
  else if c = '+' then some 62
  else if c = '/' then some 63
  else none

/-- The bits of the current four characters that no byte has taken yet. -/
inductive Pending where
  | none
  | one (bits : Nat)
  | two (bits : Nat)
  | three (bits : Nat)
  deriving DecidableEq

def Pending.count : Pending → Nat
  | .none => 0
  | .one _ => 1
  | .two _ => 2
  | .three _ => 3

/-- Reads on with `pads` equal signs since the last character; `bytes` holds what has been read,
last byte first. -/
def decodeFrom (pending : Pending) (pads : Nat) (bytes : List UInt8) :
    List Char → Except Fault (List UInt8)
  | [] =>
    match pending with
    | .none => .ok bytes.reverse
    | .one _ => .error (.leftOver (bytes.length / 3 * 4 + 1))
    | .two _ | .three _ => .error .incorrectPadding
  | c :: rest =>
    if c = '=' then
      if 2 ≤ pending.count then
        if 4 ≤ pending.count + (pads + 1) then .ok bytes.reverse
        else decodeFrom pending (pads + 1) bytes rest
      else decodeFrom pending pads bytes rest
    else match value? c with
      | Option.none => decodeFrom pending pads bytes rest
      | some v =>
        match pending with
        | .none => decodeFrom (.one v) 0 bytes rest
        | .one bits => decodeFrom (.two (v % 16)) 0 (UInt8.ofNat (bits * 4 + v / 16) :: bytes) rest
        | .two bits => decodeFrom (.three (v % 4)) 0 (UInt8.ofNat (bits * 16 + v / 4) :: bytes) rest
        | .three bits => decodeFrom .none 0 (UInt8.ofNat (bits * 64 + v) :: bytes) rest

def decode (text : List Char) : Except Fault (List UInt8) :=
  if text.all fun c => c.toNat < 128 then decodeFrom .none 0 [] text else .error .notAscii

end Dialogue.Text.Base64
