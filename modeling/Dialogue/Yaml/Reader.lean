import Dialogue.Yaml.Node
import Dialogue.Yaml.Scalar

/-! `parse` reads the one document of a text. Of several faults the one nearest to the root counts,
and the first one among those at the same distance. A key `<<` stands for the entries of the
mapping, or of the list of mappings, behind it, unless the mapping has them itself. -/

namespace Dialogue.Yaml

/-- A fault and its distance from the node at hand. -/
structure Blame where
  depth : Nat
  fault : Fault

abbrev Outcome (α : Type) := Except Blame α

namespace Outcome

variable {α β : Type}

def here : Except Fault α → Outcome α
  | .ok a => .ok a
  | .error e => .error ⟨0, e⟩

def deeper : Outcome α → Outcome α
  | .error b => .error { b with depth := b.depth + 1 }
  | a => a

def both : Outcome α → Outcome β → Outcome (α × β)
  | .ok a, .ok b => .ok (a, b)
  | .error a, .error b => .error (if b.depth < a.depth then b else a)
  | .error a, .ok _ => .error a
  | .ok _, .error b => .error b

def all : List (Outcome α) → Outcome (List α)
  | [] => .ok []
  | a :: rest => (both a (all rest)).map fun (a, rest) => a :: rest

end Outcome

namespace Node

def tag : Node → Tag
  | .scalar tag _ | .list tag _ | .mapping tag _ => tag

mutual

/-- The text of a scalar, or of the scalar that stands for a mapping. -/
def text? : Node → Option (List Char)
  | .scalar _ text => some text
  | .list .. => none
  | .mapping _ entries => defaultText? entries
termination_by structural n => n

def defaultText? : List (Node × Node) → Option (List Char)
  | [] => none
  | (k, v) :: rest => if k.tag = .default then v.text? else defaultText? rest
termination_by structural n => n

end

abbrev Entries := List (Outcome (Scalar × Value))

/-- A key with its value. Lists and mappings are no keys, whatever is in them. -/
def entry (key value : Outcome Value) : Outcome (Scalar × Value) :=
  let key : Outcome Dialogue.Scalar := match key with
    | .ok (.scalar s) => .ok s
    | .error ⟨0, e⟩ => .error ⟨0, e⟩
    | _ => .error ⟨0, .yaml⟩
  key.both value

def scalarOf (tag : Tag) (text : Option (List Char)) : Outcome Value :=
  match text with
  | some text => .here ((Scalar.read tag text).map Value.scalar)
  | none => .error ⟨0, .yaml⟩

def isScalarTag (tag : Tag) : Bool :=
  tag ≠ .list && tag ≠ .mapping

mutual

def value : Node → Outcome Value
  | .scalar tag text =>
    if isScalarTag tag then scalarOf tag (some text) else .error ⟨1, .yaml⟩
  | .list tag items =>
    if tag = .list then (Outcome.all (values items)).deeper.map Value.list
    else if tag = .mapping then .error ⟨1, .yaml⟩
    else .error ⟨0, .yaml⟩
  | .mapping tag nodes =>
    if tag = .mapping then
      (match entries nodes with
        | .ok (merged, own) =>
          (Outcome.all (merged ++ own)).map fun entries => Value.mapping (Table.ofEntries entries)
        | .error e => .error ⟨0, e⟩ : Outcome Value).deeper
    else if tag = .list then .error ⟨1, .yaml⟩
    else scalarOf tag (defaultText? nodes)
termination_by structural n => n

def values : List Node → List (Outcome Value)
  | [] => []
  | n :: rest => n.value :: values rest
termination_by structural n => n

/-- The entries that a mapping has by merging, and its own. -/
def entries : List (Node × Node) → Except Fault (Entries × Entries)
  | [] => .ok ([], [])
  | (k, v) :: rest =>
    if k.tag = .merge then
      match v.merged, entries rest with
      | .ok new, .ok (merged, own) => .ok (new ++ merged, own)
      | .error e, _ | _, .error e => .error e
    else
      let key := if k.tag = .default then scalarOf .text k.text? else k.value
      match entries rest with
      | .ok (merged, own) => .ok (merged, entry key v.value :: own)
      | .error e => .error e
termination_by structural n => n

/-- The entries of a node that is merged into a mapping. Of several mappings the first one counts
most, so it comes last. -/
def merged : Node → Except Fault Entries
  | .mapping _ nodes => (entries nodes).map fun (merged, own) => merged ++ own
  | .list _ items => mergedItems items
  | .scalar .. => .error .yaml
termination_by structural n => n

def mergedItems : List Node → Except Fault Entries
  | [] => .ok []
  | .mapping _ nodes :: rest =>
    match entries nodes, mergedItems rest with
    | .ok (merged, own), .ok others => .ok (others ++ (merged ++ own))
    | .error e, _ | _, .error e => .error e
  | _ :: _ => .error .yaml
termination_by structural n => n

end

end Node

/-- The value of a text. A text without a document is nothing. -/
def parse (text : String) : Except Fault Value := do
  match ← Node.ofTokens (Layout.tokensOf text.toList) with
  | none => return .null
  | some n =>
    match n.value with
    | .ok v => return v
    | .error b => throw b.fault

end Dialogue.Yaml
