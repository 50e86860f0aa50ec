import Dialogue.Text.Blank
import Dialogue.Value.Access

/-! A project declares its variables with a type and a default written as text. `adapt` reads the
default by the type, which is the form that the compiler takes. -/

namespace Dialogue

inductive VariableType where
  | string
  | boolean
  | number
  deriving DecidableEq

namespace VariableType

def all : List VariableType := [.string, .boolean, .number]

def tag : VariableType → String
  | .string => "string"
  | .boolean => "boolean"
  | .number => "number"

def builtinName : VariableType → String
  | .string => "String"
  | .boolean => "Bool"
  | .number => "Number"

def ofTag? (tag : String) : Option VariableType :=
  all.find? fun t => t.tag == tag

theorem ofTag?_tag (t : VariableType) : ofTag? t.tag = some t := by
  cases t <;> decide

end VariableType

/-- A type as declared: one of the types, or a value that is none. -/
inductive DeclaredType where
  | known (type : VariableType)
  | unknown (value : Value)

structure Declaration where
  name : Value
  type : DeclaredType
  default : Value := .text ""
  description : Value := .null

structure AdaptedDeclaration where
  name : Value
  type : VariableType
  default : Value
  description : Value

namespace Declaration

/-- Reads `true` or `false` in any case, with blanks around it. -/
def parseBool (text : String) : Except DefaultFault Bool :=
  let word := (Text.strip text.toList).map Char.toLower
  if word = "true".toList then .ok true
  else if word = "false".toList then .ok false
  else .error (.notBoolean text)

/-- Reads a number with blanks around it. -/
def parseNumber (text : String) : Except DefaultFault Float :=
  match Decimal.ofText? (Text.strip text.toList) with
  | some x => .ok x
  | none => .error (.notNumber text)

def typedDefault (d : Declaration) (type : VariableType) : Except Fault Value :=
  let reading (parse : String → Except DefaultFault Value) (refusal : String → DefaultFault) :
      Except Fault Value :=
    match d.default with
    | .text s => (parse s).mapError fun f => .default (.within d.name f)
    | .scalar (.text t) => .error (.default (.within d.name (refusal t.shown)))
    | _ => .error .noOperation
  match type with
  | .string => .ok d.default
  | .boolean => reading (fun s => (parseBool s).map Value.bool) .notBoolean
  | .number => reading (fun s => (parseNumber s).map Value.float) .notNumber

def adapt (d : Declaration) : Except Fault AdaptedDeclaration :=
  match d.type with
  | .known type => (d.typedDefault type).map fun v => ⟨d.name, type, v, d.description⟩
  | .unknown value => .error (.project (.unsupportedType d.name value))

/-- Adapts declarations one by one; the first that cannot be adapted decides. -/
def adaptAll (ds : List Declaration) : Except Fault (List AdaptedDeclaration) :=
  ds.mapM adapt

def toValue (d : Declaration) : Except Fault Value :=
  match d.type with
  | .unknown _ => .error .noOperation
  | .known type =>
    .ok (.mapping
      [(.text "name", d.name), (.text "type", .text type.tag), (.text "default_value", d.default),
       (.text "description", d.description)])

def typeOfValue (v : Value) : Except Fault VariableType :=
  match v.text?.bind VariableType.ofTag? with
  | some type => .ok type
  | none => .error (.notDeclarationType v)

def ofValue (v : Value) : Except Fault Declaration := do
  let name ← v.index "name"
  let type ← typeOfValue (← v.index "type")
  let default ← v.getD "default_value" (.text "")
  let description ← v.getD "description" .null
  return { name, type := .known type, default, description }

end Declaration

end Dialogue
