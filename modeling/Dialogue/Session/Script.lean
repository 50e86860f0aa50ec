import Dialogue.Build

/-! A compiler that answers its calls from a list. A call may first ask for another build of the
project that is being built, and may end in a crash. -/

namespace Dialogue

/-- An operand of a scripted program: made of a constant, or given with its case. -/
inductive OperandSpec where
  | of (value : Value)
  | given (operand : Operand)

def OperandSpec.make : OperandSpec → Except Fault Operand
  | .of value => Operand.of value
  | .given operand => .ok operand

structure NodeSpec where
  name : Value
  headers : List (Value × Value) := []
  /-- The key that the node is stored under; the name if it counts as false. -/
  key : Value := .null

structure ProgramSpec where
  name : Value := .text ""
  nodes : List NodeSpec := []
  initialValues : List (Value × OperandSpec) := []

namespace ProgramSpec

def addNode (nodes : Table Node) (n : NodeSpec) : Except Fault (Table Node) :=
  (if n.key.truthy then n.key else n.name).asKey.map fun key =>
    Table.put nodes key { name := n.name, headers := n.headers }

def addOperand (operands : Table Operand) (e : Value × OperandSpec) :
    Except Fault (Table Operand) := do
  let operand ← e.2.make
  return Table.put operands (← e.1.asKey) operand

def make (p : ProgramSpec) : Except Fault Program := do
  let nodes ← p.nodes.foldlM addNode []
  let operands ← p.initialValues.foldlM addOperand []
  return { name := p.name, nodes, initialValues := operands }

end ProgramSpec

inductive OutputSpec where
  | none
  | program (spec : ProgramSpec)
  | bytes (content : Bytes)
  | refusing (text : String)

def OutputSpec.make : OutputSpec → Except Fault (Option Output)
  | .none => .ok Option.none
  | .program spec => spec.make.map fun p => some (.program p)
  | .bytes content => .ok (some (.bytes content))
  | .refusing text => .ok (some (.refusing text))

structure Reply where
  reenter : Bool := false
  crash : Option String := none
  program : OutputSpec := .none
  lines : Table Line := []
  diagnostics : List Diagnostic := []

namespace Reply

def finish (r : Reply) : Except Fault Compilation :=
  match r.crash with
  | some text => .error (.crash text)
  | none => r.program.make.map fun program =>
    { program, lines := r.lines, diagnostics := r.diagnostics }

/-- The reply to a call by its number. The last one answers all later calls. -/
def ofCall (replies : List Reply) (call : Nat) : Reply :=
  (replies[call]?).getD (replies.getLast?.getD {})

/-- Records a call and answers it. A re-entry runs `reentry` and takes note of its failure. -/
def answer (replies : List Reply) (reentry : Action Unit) : Compiler := fun job => do
  let r := ofCall replies (← get).compilerCalls
  modify fun w => { w with compilerCalls := w.compilerCalls + 1 }
  Action.recordCall (.job job)
  if r.reenter then
    match ← Action.attempt reentry with
    | .ok () => pure ()
    | .error e => Action.recordCall (.fault e)
  Action.ofExcept r.finish

/-- The compiler of a script. A re-entry asks for a build of the same project; a build that were
admitted would be answered without further re-entries. -/
def compiler (replies : List Reply) (config : Config) (project : Option ProjectId) : Compiler :=
  let plain := answer replies (pure ())
  answer replies (do let _ ← build plain config project)

end Reply

end Dialogue
