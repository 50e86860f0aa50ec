import Dialogue.Blob
import Dialogue.Compilation
import Dialogue.Localization

/-! A project is what is built: sources and declarations go in, a compiled program and localizations
come out. The program, the initial values and the headers are views of the compiled blob. They are
kept until the blob is written again: every write counts up `blobVersion`, and views of an earlier
version are dropped when a view is asked for. -/

namespace Dialogue

/-- The number of a localization among all there are. -/
abbrev LocalizationId := Nat

structure Views where
  program : Option Program := none
  initialValues : Option (Table Value) := none
  /-- By node, and then by header key. -/
  headers : Table (Table (List Value)) := []

structure Project where
  name : Value := .text ""
  path : Value := .null
  /-- The paths of the sources in compile order. Null entries and missing files are left out. -/
  sources : List Value := []
  declarations : List Declaration := []
  baseLanguage : Value := .text "en"
  base : Option LocalizationId := none
  localizations : List LocalizationId := []
  searchAssemblies : List Value := []
  parser : Bytes → Except Fault Program := Blob.decode
  blob : Option Bytes := none
  blobVersion : Nat := 0
  views : Views := {}
  viewsVersion : Nat := 0
  building : Bool := false

namespace Project

def setBlob (p : Project) (blob : Option Bytes) : Project :=
  { p with blob := blob, blobVersion := p.blobVersion + 1 }

def isCompiled (p : Project) : Bool := p.blob.isSome

def syncViews (p : Project) : Project :=
  if p.viewsVersion = p.blobVersion then p
  else { p with views := {}, viewsVersion := p.blobVersion }

/-- The name that the compiler reports: the path, or the name of a project without path. -/
def sourceName (p : Project) : Value :=
  if p.path.truthy then p.path else p.name

/-! ## Views -/

/-- A project whose views are being read, with the number of blobs parsed and the warnings given. -/
structure Reading where
  project : Project
  parses : Nat := 0
  warnings : List String := []

abbrev Access (α : Type) := ExceptT Fault (StateM Reading) α

def sync : Access Unit :=
  modify fun r => { r with project := r.project.syncViews }

def keep (change : Views → Views) : Access Unit :=
  modify fun r => { r with project := { r.project with views := change r.project.views } }

def program : Access Program := do
  sync
  let p := (← get).project
  match p.views.program with
  | some program => return program
  | none =>
    match p.blob with
    | none => throw (.notCompiled p.name)
    | some blob =>
      modify fun r => { r with parses := r.parses + 1 }
      let program ← liftExcept (p.parser blob)
      keep fun v => { v with program := some program }
      return program
where
  liftExcept {α : Type} : Except Fault α → Access α
    | .ok a => pure a
    | .error e => throw e

def nodeNames : Access (List Scalar) := do
  return Table.keys (← program).nodes

/-- The value of an operand of a known case, in the type of the case. -/
def typedValue? (o : Operand) : Option (Except Fault Value) :=
  if o.case.same (.text Operand.stringCase) then some (.ok (.scalar o.value.toText))
  else if o.case.same (.text Operand.boolCase) then some (.ok (.bool o.value.truthy))
  else if o.case.same (.text Operand.floatCase) then some (o.value.toFloat.map Value.float)
  else none

/-- Adds the values of operands to a table. Operands of other cases are left out with a warning. -/
def addValues (values : Table Value) : List (Scalar × Operand) → Access (Table Value)
  | [] => return values
  | (name, o) :: rest =>
    match typedValue? o with
    | some (.ok v) => addValues (Table.put values name v) rest
    | some (.error e) => throw e
    | none => do
      let warning := name.display ++ " is of an invalid type: " ++ o.case.display
      modify fun r => { r with warnings := r.warnings ++ [warning] }
      addValues values rest

def initialValues : Access (Table Value) := do
  sync
  match (← get).project.views.initialValues with
  | some values => return values
  | none =>
    let values ← addValues [] (← program).initialValues
    keep fun v => { v with initialValues := some values }
    return values

def addHeader (headers : Table (List Value)) (h : Value × Value) :
    Except Fault (Table (List Value)) :=
  h.1.asKey.map fun key => Table.put headers key ((Table.lookup headers key).getD [] ++ [h.2])

/-- The headers of a node: the values of each key in the order of the source. Without the node there
are none. -/
def headers (node : Scalar) : Access (Table (List Value)) := do
  sync
  match Table.lookup (← get).project.views.headers node with
  | some headers => return headers
  | none =>
    match Table.lookup (← program).nodes node with
    | none => return []
    | some n =>
      let headers ← program.liftExcept (n.headers.foldlM addHeader [])
      keep fun v => { v with headers := Table.put v.headers node headers }
      return headers

/-- Changes the program that is kept, but none of the views made of it before. -/
def editProgram (change : Program → Except Fault Program) : Access Unit := do
  let edited ← program.liftExcept (change (← program))
  keep fun v => { v with program := some edited }

end Project

def Program.appendHeader (p : Program) (node : Scalar) (key value : Value) :
    Except Fault Program :=
  match Table.lookup p.nodes node with
  | none => .error (.noKey node)
  | some n =>
    .ok { p with nodes := Table.put p.nodes node { n with headers := n.headers ++ [(key, value)] } }

def Program.setInitial (p : Program) (name : Scalar) (o : Operand) : Program :=
  { p with initialValues := Table.put p.initialValues name o }

end Dialogue
