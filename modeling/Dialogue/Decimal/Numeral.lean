import Dialogue.Text.Blank
import Dialogue.Text.DecimalDigit

/-! The spellings of a double: an optional sign, decimal digits with an optional point and exponent,
or a word for an infinity or for no number. A single underscore may stand between two digits,
letters count in either case, the digits of all scripts count, and blanks around the number do
not. -/

namespace Dialogue.Decimal

/-- Digits from the front, with their value and their number. -/
def takeDigits : List Char → Nat × Nat × List Char
  | [] => (0, 0, [])
  | c :: rest =>
    if c.isDigit then go (c.toNat - 48) 1 rest else (0, 0, c :: rest)
where
  go (value count : Nat) : List Char → Nat × Nat × List Char
    | [] => (value, count, [])
    | c :: rest =>
      if c.isDigit then go (10 * value + (c.toNat - 48)) (count + 1) rest
      else (value, count, c :: rest)

/-- `digits · 10^exponent`, rounded. Exponents beyond the range of a double are cut short. -/
def scaled (digits : Nat) (exponent : Int) : Float :=
  let size := (Nat.toDigits 10 digits).length
  if digits = 0 then 0.0
  else if 400 < exponent + size then Float.ofScientific 1 false 400
  else if exponent + size < -400 then 0.0
  else if 0 ≤ exponent then Float.ofScientific digits false exponent.toNat
  else Float.ofScientific digits true (-exponent).toNat

/-- A complete exponent. A mark without digits after it is none. -/
def exponentOf : List Char → Option Int
  | [] => some 0
  | c :: rest =>
    if c = 'e' ∨ c = 'E' then
      let (negative, rest) := match rest with
        | '-' :: rest => (true, rest)
        | '+' :: rest => (false, rest)
        | rest => (false, rest)
      match takeDigits rest with
      | (value, count, []) =>
        if count = 0 then none else some (if negative then -(value : Int) else value)
      | _ => none
    else none

def unsignedOf (text : List Char) : Option Float :=
  let word := text.map Char.toLower
  if word = "inf".toList ∨ word = "infinity".toList then some (Float.ofScientific 1 false 400)
  else if word = "nan".toList then some (0.0 / 0.0)
  else
    let (whole, wholeCount, rest) := takeDigits text
    let (part, partCount, rest) := match rest with
      | '.' :: rest => takeDigits rest
      | rest => (0, 0, rest)
    if wholeCount + partCount = 0 then none
    else (exponentOf rest).map fun e => scaled (whole * Nat.pow 10 partCount + part) (e - partCount)

def signedOf : List Char → Option Float
  | '-' :: rest => (unsignedOf rest).map fun x => -x
  | '+' :: rest => unsignedOf rest
  | text => unsignedOf text

/-- The text without its underscores, each of which has to stand between two digits. -/
def dropUnderscores? (text : List Char) : Option (List Char) :=
  go false text
where
  go (afterDigit : Bool) : List Char → Option (List Char)
    | [] => some []
    | '_' :: c :: rest =>
      if afterDigit && c.isDigit then (go true rest).map (c :: ·) else none
    | c :: rest => if c = '_' then none else (go c.isDigit rest).map (c :: ·)

/-- Digits of all scripts become ASCII digits and blanks beyond ASCII become spaces. Text that is
ASCII already is left alone; what remains beyond ASCII is no part of a number. -/
def asciiForm (text : List Char) : List Char :=
  text.map fun c =>
    if c.toNat < 127 then c
    else if Text.isBlank c then ' '
    else match Text.decimalDigit? c with
      | some d => Char.ofNat (48 + d)
      | none => '?'

def isPadding (c : Char) : Bool :=
  c == ' ' || (decide ('\t' ≤ c) && decide (c ≤ '\r'))

def ofText? (text : List Char) : Option Float :=
  (dropUnderscores? (Text.stripBy isPadding (asciiForm text))).bind signedOf

end Dialogue.Decimal
