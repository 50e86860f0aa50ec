import Dialogue.Blob
import Dialogue.Declaration

/-! What a build hands to the compiler and what the compiler hands back. -/

namespace Dialogue

inductive Severity where
  | info
  | warning
  | error
  deriving DecidableEq

def Severity.name : Severity → String
  | .info => "info"
  | .warning => "warning"
  | .error => "error"

structure Diagnostic where
  severity : Severity
  message : String
  file : Option String := none
  line : Option Int := none
  deriving DecidableEq

def Diagnostic.render (d : Diagnostic) : String :=
  let line := match d.line with
    | some n => ":" ++ toString n
    | none => ""
  let place := match d.file with
    | some file => if file = "" then "" else file ++ line ++ ": "
    | none => ""
  place ++ d.severity.name ++ ": " ++ d.message

structure Line where
  text : String
  file : String := ""
  node : String := ""
  number : Int := 0
  deriving DecidableEq

structure Job where
  sourceName : Value
  sourceText : String
  declarations : List AdaptedDeclaration

/-- A program that the compiler returned. It may come as finished bytes, or refuse to become
bytes. -/
inductive Output where
  | program (p : Program)
  | bytes (content : Bytes)
  | refusing (text : String)

def Output.serialize : Output → Except Fault Bytes
  | .program p => Blob.encode p
  | .bytes content => .ok content
  | .refusing text => .error (.unserializable text)

structure Compilation where
  program : Option Output := none
  lines : Table Line := []
  diagnostics : List Diagnostic := []

namespace Compilation

def ofSeverity (c : Compilation) (s : Severity) : List Diagnostic :=
  c.diagnostics.filter fun d => d.severity = s

def errors (c : Compilation) : List Diagnostic := c.ofSeverity .error

def warnings (c : Compilation) : List Diagnostic := c.ofSeverity .warning

end Compilation

end Dialogue
