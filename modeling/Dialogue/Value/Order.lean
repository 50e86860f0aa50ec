import Dialogue.Value.Basic

/-! Numbers are ordered among each other, texts by code point, and bytes; scalars of different kinds
are not ordered. `sorted` puts scalar keys in order and reports the first two that have none. -/

namespace Dialogue.Scalar

def bytesLess : List UInt8 → List UInt8 → Bool
  | _, [] => false
  | [], _ :: _ => true
  | a :: as, b :: bs => a < b || (a == b && bytesLess as bs)

/-- Whether the first scalar is less than the second; none when they are not ordered. -/
def less? (a b : Scalar) : Option Bool :=
  match a.number?, b.number? with
  | some m, some n => some (m.lt n)
  | _, _ =>
    match a, b with
    | .text s, .text t => some (decide (s < t))
    | .bytes s, .bytes t => some (bytesLess s t)
    | _, _ => none

/-- Two scalars that are not ordered, the left operand of the comparison first. -/
structure Unordered where
  left : Scalar
  right : Scalar
  deriving DecidableEq

def compare (a b : Scalar) : Except Unordered Bool :=
  match a.less? b with
  | some answer => .ok answer
  | none => .error ⟨a, b⟩

variable {α : Type}

/-- The length of the longest run at the front that ascends, or that strictly descends. -/
def runLength (key : α → Scalar) : List α → Except Unordered (Nat × Bool)
  | [] => .ok (0, false)
  | [_] => .ok (1, false)
  | a :: b :: rest => do
    let descending ← compare (key b) (key a)
    let rec go (previous : α) (n : Nat) : List α → Except Unordered Nat
      | [] => .ok n
      | c :: rest => do
        if (← compare (key c) (key previous)) == descending then go c (n + 1) rest else .ok n
    return (← go b 2 rest, descending)

/-- The place of `x` after all elements of a sorted list that are not greater, found by halving. -/
def insertionPlace (key : α → Scalar) (x : α) (sorted : Array α) : Except Unordered Nat :=
  go 0 sorted.size
where
  go (low high : Nat) : Except Unordered Nat :=
    if _h : low < high then
      let middle := (low + high) / 2
      match sorted[middle]? with
      | none => .ok low
      | some y =>
        match compare (key x) (key y) with
        | .error e => .error e
        | .ok true => go low middle
        | .ok false => go (middle + 1) high
    else .ok low
  termination_by high - low

/-- The elements in ascending order of their keys. Equal keys keep their order. -/
def sortedBy (key : α → Scalar) (items : List α) : Except Unordered (List α) := do
  let (n, descending) ← runLength key items
  let run := items.take n
  let start := (if descending then run.reverse else run).toArray
  let sorted ← (items.drop n).foldlM (fun sorted x => do
    let place ← insertionPlace key x sorted
    return sorted.toList.insertIdx place x |>.toArray) start
  return sorted.toList

end Dialogue.Scalar
