import Dialogue.Decimal.Numeral
import Dialogue.Json.Basic
import Dialogue.Text.Hexadecimal
import Dialogue.Value.Basic

/-! `parse` reads one value and nothing behind it. Whole numbers are exact, other numbers are
rounded to doubles, and the words `NaN` and `Infinity` are numbers too. Of members with one name the
last one counts, at the place of the first. -/

namespace Dialogue.Json

/-- What has been read, where reading has come to, and what is left. -/
structure Read (α : Type) where
  value : α
  place : Nat
  rest : List Char

abbrev Result (α : Type) := Except Refusal (Read α)

def isSpace (c : Char) : Bool :=
  c == ' ' || c == '\t' || c == '\n' || c == '\r'

def skipSpace (place : Nat) : List Char → Read Unit
  | [] => ⟨(), place, []⟩
  | c :: rest => if isSpace c then skipSpace (place + 1) rest else ⟨(), place, c :: rest⟩

/-! ## Strings -/

def plainEscape? (c : Char) : Option Char :=
  if c = '"' ∨ c = '\\' ∨ c = '/' then some c
  else if c = 'b' then some '\x08'
  else if c = 'f' then some '\x0c'
  else if c = 'n' then some '\n'
  else if c = 'r' then some '\r'
  else if c = 't' then some '\t'
  else none

def isHighSurrogate (n : Nat) : Bool := decide (0xd800 ≤ n ∧ n < 0xdc00)

def isLowSurrogate (n : Nat) : Bool := decide (0xdc00 ≤ n ∧ n < 0xe000)

def joinSurrogates (high low : Nat) : Char :=
  Char.ofNat (0x10000 + (high - 0xd800) * 0x400 + (low - 0xdc00))

/-- A code unit on its own, which may be a lone surrogate. -/
def unitPoint (n : Nat) : Text.CodePoint :=
  if h : 0xd800 ≤ n ∧ n < 0xe000 then .surrogate ⟨n, h⟩ else .char (Char.ofNat n)

/-- The code point of a code unit whose escape ends in front of `rest`, and how many characters of
`rest` belong to it: an escape of a low surrogate joins the high one before it. -/
def joinUnit (unit place : Nat) (rest : List Char) : Except Refusal (Text.CodePoint × Nat) :=
  match rest with
  | '\\' :: 'u' :: a :: b :: c :: d :: _ :: _ =>
    if isHighSurrogate unit then
      match Text.hexNumber? [a, b, c, d] with
      | none => .error ⟨.invalidUnicodeEscape, place + 1⟩
      | some low =>
        if isLowSurrogate low then .ok (.char (joinSurrogates unit low), 6)
        else .ok (unitPoint unit, 0)
    else .ok (unitPoint unit, 0)
  | _ => .ok (unitPoint unit, 0)

/-- The rest of a string behind its opening quote, which stands at `start`. -/
def stringFrom (start place : Nat) : List Char → Result (List Text.CodePoint)
  | [] => .error ⟨.unterminatedString, start⟩
  | '"' :: rest => .ok ⟨[], place + 1, rest⟩
  | '\\' :: [] => .error ⟨.unterminatedString, start⟩
  | '\\' :: 'u' :: a :: b :: c :: d :: rest =>
    if rest.isEmpty then .error ⟨.invalidUnicodeEscape, place + 1⟩
    else match Text.hexNumber? [a, b, c, d] with
      | none => .error ⟨.invalidUnicodeEscape, place + 1⟩
      | some unit =>
        match joinUnit unit (place + 6) rest with
        | .error e => .error e
        | .ok (point, more) =>
          cons point (stringFrom start (place + 6 + more) (rest.drop more))
  | '\\' :: c :: rest =>
    if c = 'u' then .error ⟨.invalidUnicodeEscape, place + 1⟩
    else match plainEscape? c with
      | none => .error ⟨.invalidEscape, place⟩
      | some c => cons (.char c) (stringFrom start (place + 2) rest)
  | c :: rest =>
    if c.toNat < 0x20 then .error ⟨.controlCharacter, place⟩
    else cons (.char c) (stringFrom start (place + 1) rest)
termination_by text => text.length
decreasing_by all_goals simp +arith
where
  cons (p : Text.CodePoint) : Result (List Text.CodePoint) → Result (List Text.CodePoint)
    | .ok r => .ok { r with value := p :: r.value }
    | .error e => .error e

/-! ## Numbers -/

/-- The digits in front of a point: their value and their number. A zero stands alone. -/
def wholeOf : List Char → Option (Nat × Nat × List Char)
  | '0' :: rest => some (0, 1, rest)
  | text =>
    match Decimal.takeDigits text with
    | (_, 0, _) => none
    | read => some read

def fractionOf : List Char → Option (Nat × Nat × List Char)
  | '.' :: rest =>
    match Decimal.takeDigits rest with
    | (_, 0, _) => none
    | read => some read
  | _ => none

def exponentOf : List Char → Option (Int × Nat × List Char)
  | c :: rest =>
    if c = 'e' ∨ c = 'E' then
      let (negative, signs, rest) := match rest with
        | '-' :: rest => (true, 1, rest)
        | '+' :: rest => (false, 1, rest)
        | rest => (false, 0, rest)
      match Decimal.takeDigits rest with
      | (_, 0, _) => none
      | (value, count, rest) =>
        some (if negative then -(value : Int) else value, 1 + signs + count, rest)
    else none
  | [] => none

def magnitudeFrom (negative : Bool) (place : Nat) (text : List Char) : Option (Read Scalar) :=
  (wholeOf text).map fun (value, count, rest) =>
    let (part, partCount, point, rest) := match fractionOf rest with
      | some (part, partCount, rest) => (part, partCount, partCount + 1, rest)
      | none => (0, 0, 0, rest)
    let (exponent, mark, rest) := (exponentOf rest).getD (0, 0, rest)
    let place := place + count + point + mark
    if point + mark = 0 then ⟨.int (if negative then -(value : Int) else value), place, rest⟩
    else
      let size := Decimal.scaled (value * Nat.pow 10 partCount + part) (exponent - partCount)
      ⟨.float (if negative then -size else size), place, rest⟩

/-! ## Values -/

def words : List (List Char × Scalar) :=
  [("null".toList, .null), ("true".toList, .bool true), ("false".toList, .bool false),
   ("NaN".toList, .float (0.0 / 0.0)), ("Infinity".toList, .float (1.0 / 0.0)),
   ("-Infinity".toList, .float (-1.0 / 0.0))]

def scalarFrom (place : Nat) (text : List Char) : Option (Read Scalar) :=
  match words.find? fun w => w.1.isPrefixOf text with
  | some (word, value) => some ⟨value, place + word.length, text.drop word.length⟩
  | none =>
    match text with
    | '-' :: rest => magnitudeFrom true (place + 1) rest
    | text => magnitudeFrom false place text

mutual

/-- The value that begins right here. Every step of the descent uses up some fuel, of which twice
the number of characters is enough. -/
def valueFrom (fuel place : Nat) (text : List Char) : Result Value :=
  match fuel with
  | 0 => .error ⟨.expectingValue, place⟩
  | fuel + 1 =>
    match text with
    | '"' :: rest =>
      match stringFrom place (place + 1) rest with
      | .ok r => .ok ⟨.scalar (.text (.ofPoints r.value)), r.place, r.rest⟩
      | .error e => .error e
    | '[' :: rest =>
      let r := skipSpace (place + 1) rest
      match r.rest with
      | ']' :: rest => .ok ⟨.list [], r.place + 1, rest⟩
      | _ =>
        match itemsFrom fuel r.place r.rest with
        | .ok r => .ok ⟨.list r.value, r.place, r.rest⟩
        | .error e => .error e
    | '{' :: rest =>
      let r := skipSpace (place + 1) rest
      match r.rest with
      | '}' :: rest => .ok ⟨.mapping [], r.place + 1, rest⟩
      | _ =>
        match membersFrom fuel r.place r.rest with
        | .ok r => .ok ⟨.mapping (Table.ofEntries r.value), r.place, r.rest⟩
        | .error e => .error e
    | text =>
      match scalarFrom place text with
      | some r => .ok ⟨.scalar r.value, r.place, r.rest⟩
      | none => .error ⟨.expectingValue, place⟩

def itemsFrom (fuel place : Nat) (text : List Char) : Result (List Value) :=
  match fuel with
  | 0 => .error ⟨.expectingValue, place⟩
  | fuel + 1 =>
    match valueFrom fuel place text with
    | .error e => .error e
    | .ok item =>
      let r := skipSpace item.place item.rest
      match r.rest with
      | ']' :: rest => .ok ⟨[item.value], r.place + 1, rest⟩
      | ',' :: rest =>
        let r := skipSpace (r.place + 1) rest
        match itemsFrom fuel r.place r.rest with
        | .ok r => .ok { r with value := item.value :: r.value }
        | .error e => .error e
      | _ => .error ⟨.expectingComma, r.place⟩

def membersFrom (fuel place : Nat) (text : List Char) : Result (List (Scalar × Value)) :=
  match fuel with
  | 0 => .error ⟨.expectingValue, place⟩
  | fuel + 1 =>
    match text with
    | '"' :: rest =>
      match stringFrom place (place + 1) rest with
      | .error e => .error e
      | .ok name =>
        let r := skipSpace name.place name.rest
        match r.rest with
        | ':' :: rest =>
          let r := skipSpace (r.place + 1) rest
          match valueFrom fuel r.place r.rest with
          | .error e => .error e
          | .ok value =>
            let member := (Scalar.text (.ofPoints name.value), value.value)
            let r := skipSpace value.place value.rest
            match r.rest with
            | '}' :: rest => .ok ⟨[member], r.place + 1, rest⟩
            | ',' :: rest =>
              let r := skipSpace (r.place + 1) rest
              match membersFrom fuel r.place r.rest with
              | .ok r => .ok { r with value := member :: r.value }
              | .error e => .error e
            | _ => .error ⟨.expectingComma, r.place⟩
        | _ => .error ⟨.expectingColon, r.place⟩
    | _ => .error ⟨.expectingName, place⟩

end

def parseChars (text : List Char) : Except Refusal Value :=
  if text.head? = some '\ufeff' then .error ⟨.byteOrderMark, 0⟩
  else
    let r := skipSpace 0 text
    match valueFrom (2 * text.length + 2) r.place r.rest with
    | .error e => .error e
    | .ok v =>
      let r := skipSpace v.place v.rest
      if r.rest.isEmpty then .ok v.value else .error ⟨.extraData, r.place⟩

def parse (text : String) : Except Fault Value :=
  (parseChars text.toList).mapError fun r => r.within text.toList

end Dialogue.Json
