/-! What can be wrong with a JSON text, and where. -/

namespace Dialogue.Json

inductive Problem where
  | expectingValue
  | extraData
  | expectingComma
  | expectingColon
  | expectingName
  | unterminatedString
  | controlCharacter
  | invalidEscape
  | invalidUnicodeEscape
  | byteOrderMark
  deriving DecidableEq

def Problem.message : Problem → String
  | .expectingValue => "Expecting value"
  | .extraData => "Extra data"
  | .expectingComma => "Expecting ',' delimiter"
  | .expectingColon => "Expecting ':' delimiter"
  | .expectingName => "Expecting property name enclosed in double quotes"
  | .unterminatedString => "Unterminated string starting at"
  | .controlCharacter => "Invalid control character at"
  | .invalidEscape => "Invalid \\escape"
  | .invalidUnicodeEscape => "Invalid \\uXXXX escape"
  | .byteOrderMark => "Unexpected UTF-8 BOM (decode using utf-8-sig)"

/-- A problem and the number of characters in front of it. -/
structure Refusal where
  problem : Problem
  place : Nat
  deriving DecidableEq

/-- A refusal with the line and the column of its place, both counted from one. -/
structure Fault where
  problem : Problem
  line : Nat
  column : Nat
  place : Nat
  deriving DecidableEq

def lineColumn (before : List Char) : Nat × Nat :=
  before.foldl
    (fun (line, column) c => if c = '\n' then (line + 1, 1) else (line, column + 1)) (1, 1)

def Refusal.within (r : Refusal) (text : List Char) : Fault :=
  let (line, column) := lineColumn (text.take r.place)
  ⟨r.problem, line, column, r.place⟩

def Fault.message (f : Fault) : String :=
  f.problem.message ++ ": line " ++ toString f.line ++ " column " ++ toString f.column
    ++ " (char " ++ toString f.place ++ ")"

end Dialogue.Json
