/-! Reading bytes as UTF-8. A refusal names the bytes that cannot begin or continue a character, as
far as they belong together. -/

namespace Dialogue.Text.Utf8

inductive Reason where
  | invalidStart
  | invalidContinuation
  | unexpectedEnd
  deriving DecidableEq

def Reason.message : Reason → String
  | .invalidStart => "invalid start byte"
  | .invalidContinuation => "invalid continuation byte"
  | .unexpectedEnd => "unexpected end of data"

/-- The bytes from `start` up to but without `stop`, the first of which is `byte`. -/
structure Fault where
  start : Nat
  stop : Nat
  byte : UInt8
  reason : Reason
  deriving DecidableEq

inductive Front where
  /-- A character that takes `more` bytes behind the first. -/
  | char (c : Char) (more : Nat)
  /-- Bytes that belong together and make no character. -/
  | bad (width : Nat) (reason : Reason)
  /-- The beginning of a character that the end of the bytes cuts off. -/
  | cut

def isTail (b : UInt8) : Bool :=
  decide (0x80 ≤ b ∧ b < 0xc0)

/-- The range of the byte behind a first byte of three or four: it keeps out long forms, surrogates
and what lies beyond the last character. -/
def isSecond (first second : UInt8) : Bool :=
  if first = 0xe0 then decide (0xa0 ≤ second ∧ second < 0xc0)
  else if first = 0xed then decide (0x80 ≤ second ∧ second < 0xa0)
  else if first = 0xf0 then decide (0x90 ≤ second ∧ second < 0xc0)
  else if first = 0xf4 then decide (0x80 ≤ second ∧ second < 0x90)
  else isTail second

def tail (b : UInt8) : Nat := b.toNat % 64

def front (b : UInt8) (rest : List UInt8) : Front :=
  if b < 0x80 then .char (Char.ofNat b.toNat) 0
  else if b < 0xc2 then .bad 1 .invalidStart
  else if b < 0xe0 then
    match rest with
    | [] => .cut
    | c :: _ =>
      if isTail c then .char (Char.ofNat (b.toNat % 32 * 64 + tail c)) 1
      else .bad 1 .invalidContinuation
  else if b < 0xf0 then
    match rest with
    | [] => .cut
    | c :: rest =>
      if !isSecond b c then .bad 1 .invalidContinuation
      else match rest with
        | [] => .cut
        | d :: _ =>
          if isTail d then .char (Char.ofNat ((b.toNat % 16 * 64 + tail c) * 64 + tail d)) 2
          else .bad 2 .invalidContinuation
  else if b < 0xf5 then
    match rest with
    | [] => .cut
    | c :: rest =>
      if !isSecond b c then .bad 1 .invalidContinuation
      else match rest with
        | [] => .cut
        | d :: rest =>
          if !isTail d then .bad 2 .invalidContinuation
          else match rest with
            | [] => .cut
            | e :: _ =>
              if isTail e then
                .char (Char.ofNat (((b.toNat % 8 * 64 + tail c) * 64 + tail d) * 64 + tail e)) 3
              else .bad 3 .invalidContinuation
  else .bad 1 .invalidStart

def decodeFrom (place : Nat) : List UInt8 → Except Fault (List Char)
  | [] => .ok []
  | b :: rest =>
    match front b rest with
    | .char c more => (decodeFrom (place + 1 + more) (rest.drop more)).map (c :: ·)
    | .bad width reason => .error ⟨place, place + width, b, reason⟩
    | .cut => .error ⟨place, place + 1 + rest.length, b, .unexpectedEnd⟩
termination_by bytes => bytes.length

def decode (bytes : List UInt8) : Except Fault (List Char) :=
  decodeFrom 0 bytes

def encode (text : List Char) : List UInt8 :=
  text.flatMap String.utf8EncodeChar

end Dialogue.Text.Utf8
