import Dialogue.Json.Reader
import Dialogue.Value.Access

/-! The parts of a compiled program that callers see: node names, the headers of nodes, and the
initial values of variables. Headers are pairs in the order of the source, and a key may repeat. -/

namespace Dialogue

/-- A constant with the case that says of which kind it is. Newer compilers may use further
cases. -/
structure Operand where
  case : Value
  value : Value

namespace Operand

def stringCase : String := "string_value"
def boolCase : String := "bool_value"
def floatCase : String := "float_value"

def of (v : Value) : Except Fault Operand :=
  match v with
  | .bool b => .ok ⟨.text boolCase, .bool b⟩
  | .int _ | .float _ => v.toFloat.map fun x => ⟨.text floatCase, .float x⟩
  | .text s => .ok ⟨.text stringCase, .text s⟩
  | _ => .error (.mismatch (.operand v))

end Operand

structure Node where
  name : Value
  headers : List (Value × Value) := []

structure Program where
  name : Value := .text ""
  nodes : Table Node := []
  initialValues : Table Operand := []

namespace Node

def toValue (n : Node) : Value :=
  .mapping
    [(.text "name", n.name),
     (.text "headers", .list (n.headers.map fun (key, value) => .list [key, value]))]

def ofValue (v : Value) : Except Fault Node := do
  let name ← v.index "name"
  let headers ← (← v.getD "headers" (.list [])).items
  return { name, headers := ← headers.mapM Value.pair }

end Node

namespace Operand

def toValue (o : Operand) : Value :=
  .mapping [(.text "case", o.case), (.text "value", o.value)]

def ofValue (v : Value) : Except Fault Operand := do
  let case ← v.index "case"
  let value ← v.getD "value" .null
  return { case, value }

end Operand

namespace Program

def toValue (p : Program) : Value :=
  .mapping
    [(.text "name", p.name),
     (.text "nodes", .list (p.nodes.map fun e => e.2.toValue)),
     (.text "initial_values", .mapping (p.initialValues.map fun e => (e.1, e.2.toValue)))]

/-- One more node, stored under its own name. -/
def addNode (nodes : Table Node) (v : Value) : Except Fault (Table Node) := do
  let node ← Node.ofValue v
  return Table.put nodes (← node.name.asKey) node

def addOperand (operands : Table Operand) (e : Scalar × Value) : Except Fault (Table Operand) := do
  return Table.put operands e.1 (← Operand.ofValue e.2)

/-- The program of a document. Of nodes with one name the last counts. -/
def ofValue (v : Value) : Except Fault Program := do
  let name ← v.getD "name" (.text "")
  let nodes ← (← (← v.getD "nodes" (.list [])).items).foldlM addNode []
  let operands ← (← (← v.getD "initial_values" (.mapping [])).entries).foldlM addOperand []
  return { name, nodes, initialValues := operands }

end Program

end Dialogue
