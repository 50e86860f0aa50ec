import Dialogue.Decimal.Integer
import Dialogue.Value.Access
import Dialogue.Yaml.Tag

/-! What the text of a scalar stands for, given its tag. A tag that is written out may stand with a
text that it does not fit. -/

namespace Dialogue.Yaml.Scalar

def dropUnderscores (text : List Char) : List Char :=
  text.filter (· != '_')

/-- A number without its sign, and whether the sign is a minus. -/
def takeSign : List Char → Except Fault (Bool × List Char)
  | '-' :: rest => .ok (true, rest)
  | '+' :: rest => .ok (false, rest)
  | c :: rest => .ok (false, c :: rest)
  | [] => .error .textIndex

def integer (base : Nat) (text : List Char) : Except Fault Int :=
  match Decimal.integerOf? base text with
  | some n => .ok n
  | none => .error (.notInteger base (String.ofList text))

/-- The parts of a number in base sixty, first one first. -/
def sixties (text : List Char) : List (List Char) :=
  text.splitOn ':'

def magnitude (text : List Char) : Except Fault Int :=
  match text with
  | [] => .error .textIndex
  | ['0'] => .ok 0
  | '0' :: 'b' :: digits => integer 2 digits
  | '0' :: 'x' :: digits => integer 16 digits
  | '0' :: digits => integer 8 ('0' :: digits)
  | text =>
    if text.contains ':' then do
      return (← (sixties text).mapM (integer 10)).foldl (fun n digit => 60 * n + digit) 0
    else integer 10 text

/-- Whole numbers have bases of their own: `0b`, `0x`, a leading zero for octal, and colons for
base sixty. -/
def toInt (text : List Char) : Except Fault Int := do
  let (negative, rest) ← takeSign (dropUnderscores text)
  let n ← magnitude rest
  return if negative then -n else n

def double (text : List Char) : Except Fault Float :=
  (Value.text (String.ofList text)).toFloat

/-- The sum of digits in base sixty, last one first, the first of which has a given weight. -/
def sumSixties (weight : Int) (sum : Float) : List Float → Except Fault Float
  | [] => .ok sum
  | digit :: digits =>
    match Decimal.floatOfInt? weight with
    | some w => sumSixties (60 * weight) (sum + digit * w) digits
    | none => .error .overflow

def floatMagnitude (text : List Char) : Except Fault Float :=
  if text = ".inf".toList then .ok (1.0 / 0.0)
  else if text = ".nan".toList then .ok (0.0 / 0.0)
  else if text.contains ':' then do
    sumSixties 1 0.0 (← (sixties text).mapM double).reverse
  else double text

def toFloat (text : List Char) : Except Fault Float := do
  let (negative, rest) ← takeSign ((dropUnderscores text).map Char.toLower)
  let x ← floatMagnitude rest
  return if negative then -x else x

def truthWords : List (String × Bool) :=
  [("yes", true), ("no", false), ("true", true), ("false", false), ("on", true), ("off", false)]

def toBool (text : List Char) : Except Fault Bool :=
  let word := String.ofList (text.map Char.toLower)
  match truthWords.lookup word with
  | some b => .ok b
  | none => .error (.notBoolWord word)

/-- The value of a scalar. Times, and tags that are not known, are refused. -/
def read (tag : Tag) (text : List Char) : Except Fault Dialogue.Scalar :=
  match tag with
  | .null => .ok .null
  | .bool => (toBool text).map .bool
  | .int => (toInt text).map .int
  | .float => (toFloat text).map .float
  | .text => .ok (.text (String.ofList text))
  | _ => .error .yaml

end Dialogue.Yaml.Scalar
