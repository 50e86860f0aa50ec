import Dialogue.Value.Display
import Dialogue.Value.Order

/-! A value becomes one line of ASCII with its members in the order of their names. Names other than
texts are spelled as texts; values that JSON has no form for are refused. -/

namespace Dialogue.Json

inductive WriteFault where
  /-- The names of a mapping have no order among each other. -/
  | unordered (names : Scalar.Unordered)
  | unwritable (value : Scalar)
  | badName (name : Scalar)
  deriving DecidableEq

def WriteFault.message : WriteFault → String
  | .unordered names =>
    "'<' not supported between instances of " ++ quotedText names.left.kindName ++ " and "
      ++ quotedText names.right.kindName
  | .unwritable value => "Object of type " ++ value.kindName ++ " is not JSON serializable"
  | .badName name => "keys must be str, int, float, bool or None, not " ++ name.kindName

def unitEscape (n : Nat) : List Char :=
  '\\' :: 'u' :: Text.hexDigits 4 n

def escapeChar (c : Char) : List Char :=
  if c = '"' then ['\\', '"']
  else if c = '\\' then ['\\', '\\']
  else if c = '\n' then ['\\', 'n']
  else if c = '\r' then ['\\', 'r']
  else if c = '\t' then ['\\', 't']
  else if c = '\x0c' then ['\\', 'f']
  else if c = '\x08' then ['\\', 'b']
  else if ' ' ≤ c ∧ c ≤ '~' then [c]
  else if c.toNat < 0x10000 then unitEscape c.toNat
  else
    let n := c.toNat - 0x10000
    unitEscape (0xd800 + n / 0x400) ++ unitEscape (0xdc00 + n % 0x400)

def escapePoint : Text.CodePoint → List Char
  | .char c => escapeChar c
  | .surrogate s => unitEscape s.code

def writeString (points : List Text.CodePoint) : List Char :=
  '"' :: points.flatMap escapePoint ++ ['"']

/-- Doubles as in messages, but for the words. -/
def numberText : Decimal.FloatLayout :=
  { floatText with infinity := "Infinity".toList, notANumber := "NaN".toList }

/-- The text of a scalar that is written without quotes. -/
def bareText? : Scalar → Option (List Char)
  | .null => some "null".toList
  | .bool b => some (if b then "true".toList else "false".toList)
  | .int n => some (toString n).toList
  | .float x => some (numberText.render x)
  | .text _ | .bytes _ | .asset .. => none

def writeScalar : Scalar → Except WriteFault (List Char)
  | .text t => .ok (writeString t.points)
  | s => match bareText? s with
    | some text => .ok text
    | none => .error (.unwritable s)

def writeName : Scalar → Except WriteFault (List Char)
  | .text t => .ok (writeString t.points)
  | s => match bareText? s with
    | some text => .ok (writeString (Text.pointsOf text))
    | none => .error (.badName s)

def commaSeparated (texts : List (List Char)) : List Char :=
  [',', ' '].intercalate texts

/-- Members with their values written, in order, as one text. The value of a member comes after
its name also where both are refused. -/
def joinMembers (members : List (Scalar × Except WriteFault (List Char))) :
    Except WriteFault (List Char) :=
  match Scalar.sortedBy Prod.fst members with
  | .error e => .error (.unordered e)
  | .ok members => do
    let texts ← members.mapM fun (name, value) => do
      return (← writeName name) ++ ':' :: ' ' :: (← value)
    return '{' :: commaSeparated texts ++ ['}']

mutual

def write : Value → Except WriteFault (List Char)
  | .scalar s => writeScalar s
  | .list items =>
    match writeItems items with
    | .ok texts => .ok ('[' :: commaSeparated texts ++ [']'])
    | .error e => .error e
  | .mapping entries => joinMembers (writeEntries entries)
termination_by structural v => v

def writeItems : List Value → Except WriteFault (List (List Char))
  | [] => .ok []
  | v :: rest =>
    match write v with
    | .error e => .error e
    | .ok text =>
      match writeItems rest with
      | .ok texts => .ok (text :: texts)
      | .error e => .error e
termination_by structural v => v

def writeEntries : List (Scalar × Value) → List (Scalar × Except WriteFault (List Char))
  | [] => []
  | (k, v) :: rest => (k, write v) :: writeEntries rest
termination_by structural v => v

end

def render (v : Value) : Except WriteFault String :=
  (write v).map String.ofList

end Dialogue.Json
