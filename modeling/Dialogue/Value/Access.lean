import Dialogue.Decimal.Numeral
import Dialogue.Fault

/-! Fields of documents whose values may be of any kind. Each access refuses the kinds that it is
not made for. -/

namespace Dialogue.Value

def asKey : Value → Except Fault Scalar
  | .scalar s => .ok s
  | .list _ => .error (.mismatch (.unhashable "list"))
  | .mapping _ => .error (.mismatch (.unhashable "dict"))

def get? (v : Value) (name : String) : Except Fault (Option Value) :=
  match v with
  | .mapping entries => .ok (Table.lookup entries (.text name))
  | _ => .error .noOperation

/-- The entry of a mapping under a name, or what stands in for it. -/
def getD (v : Value) (name : String) (default : Value) : Except Fault Value :=
  (v.get? name).map fun entry => entry.getD default

def index (v : Value) (name : String) : Except Fault Value :=
  match v with
  | .mapping entries =>
    match Table.lookup entries (.text name) with
    | some entry => .ok entry
    | none => .error (.noKey (.text name))
  | _ => .error (.mismatch .other)

def entries : Value → Except Fault (List (Scalar × Value))
  | .mapping entries => .ok entries
  | _ => .error .noOperation

/-- The items of a list, the keys of a mapping, or the characters of a text. -/
def items : Value → Except Fault (List Value)
  | .list items => .ok items
  | .mapping entries => .ok (entries.map fun e => .scalar e.1)
  | .scalar (.text t) => .ok (t.points.map fun p => .scalar (.text (.ofPoints [p])))
  | .scalar (.bytes content) => .ok (content.map fun b => .int b.toNat)
  | .scalar _ => .error (.mismatch .other)

/-- Two values in one. -/
def pair (v : Value) : Except Fault (Value × Value) :=
  match v.items with
  | .ok [a, b] => .ok (a, b)
  | .ok _ => .error .badUnpacking
  | .error e => .error e

def toFloat : Value → Except Fault Float
  | .float x => .ok x
  | .bool b => .ok (if b then 1.0 else 0.0)
  | .int n => ((Decimal.floatOfInt? n).map Except.ok).getD (.error .overflow)
  | .scalar (.text t) =>
    ((Decimal.ofText? t.shown.toList).map Except.ok).getD (.error (.notFloat t.shown))
  | _ => .error (.mismatch .other)

end Dialogue.Value
