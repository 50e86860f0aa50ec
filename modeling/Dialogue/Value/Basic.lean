import Dialogue.Decimal.Dyadic
import Dialogue.Text.Loose

/-! Project documents and settings are edited by hand, so a field may hold a value of any kind. A
`Value` is a scalar, a list, or a mapping from scalars to values that keeps its order. -/

namespace Dialogue

/-- The kinds of localized assets. A voice clip is a clip, and all of them are assets. -/
inductive AssetClass where
  | asset
  | clip
  | portrait
  | voiceClip
  deriving DecidableEq

/-- Whether an asset of class `c` counts as one of class `d`. -/
def AssetClass.isA (c d : AssetClass) : Bool :=
  c = d || d = .asset || (c = .voiceClip && d = .clip)

/-- A value without parts. Assets are told apart by their number alone. -/
inductive Scalar where
  | null
  | bool (b : Bool)
  | int (n : Int)
  | float (x : Float)
  | text (t : Text.Loose)
  | bytes (content : List UInt8)
  | asset (kind : AssetClass) (number : Nat)
  deriving DecidableEq

namespace Scalar

/-- The scalar that stands for all scalars of the same key: truth values are the numbers zero and
one, and a whole number is the same key in every spelling. -/
def norm : Scalar → Scalar
  | .bool b => .int (if b then 1 else 0)
  | .float x => ((Decimal.Dyadic.ofFloat x).toInt?.map Scalar.int).getD (.float x)
  | s => s

/-- Whether two scalars name the same entry of a mapping. -/
def sameKey (a b : Scalar) : Bool :=
  a.norm = b.norm

/-- The number that a scalar stands for. -/
def number? : Scalar → Option Decimal.Dyadic
  | .bool b => some (.ofInt (if b then 1 else 0))
  | .int n => some (.ofInt n)
  | .float x => some (.ofFloat x)
  | _ => none

/-- Equality of scalars as values: numbers by their value, all else literally. -/
def same (a b : Scalar) : Bool :=
  match a.number?, b.number? with
  | some m, some n => m.same n
  | none, none => a = b
  | _, _ => false

/-- Whether a scalar counts as true: the empty and the zero ones do not. -/
def truthy : Scalar → Bool
  | .null => false
  | .bool b => b
  | .int n => n ≠ 0
  | .float x => x != 0
  | .text t => !t.torn.isEmpty || t.front ≠ ""
  | .bytes content => !content.isEmpty
  | .asset .. => true

theorem norm_text (t : Text.Loose) : (text t).norm = text t := rfl

theorem sameKey_loose (t u : Text.Loose) : (text t).sameKey (text u) = decide (t = u) := by
  simp [sameKey, norm]

theorem sameKey_text (s t : String) : (text s).sameKey (text t) = decide (s = t) := by
  simp [sameKey_loose]

theorem sameKey_refl (a : Scalar) : a.sameKey a = true := by
  simp [sameKey]

end Scalar

/-- Entries by scalar key, in the order in which the keys were first written. -/
abbrev Table (α : Type) := List (Scalar × α)

namespace Table

variable {α : Type}

def lookup (t : Table α) (key : Scalar) : Option α :=
  (t.find? fun e => e.1.sameKey key).map (·.2)

def has (t : Table α) (key : Scalar) : Bool :=
  t.any fun e => e.1.sameKey key

/-- The last value written under a key stays at the place, and under the spelling, of the first. -/
def put : Table α → Scalar → α → Table α
  | [], key, value => [(key, value)]
  | (k, v) :: rest, key, value =>
    if k.sameKey key then (k, value) :: rest else (k, v) :: put rest key value

def ofEntries (entries : List (Scalar × α)) : Table α :=
  entries.foldl (fun t e => put t e.1 e.2) []

def keys (t : Table α) : List Scalar :=
  List.map (·.1) t

end Table

inductive Value where
  | scalar (s : Scalar)
  | list (items : List Value)
  | mapping (entries : List (Scalar × Value))

namespace Value

@[match_pattern] abbrev null : Value := .scalar .null
@[match_pattern] abbrev bool (b : Bool) : Value := .scalar (.bool b)
@[match_pattern] abbrev int (n : Int) : Value := .scalar (.int n)
@[match_pattern] abbrev float (x : Float) : Value := .scalar (.float x)
@[match_pattern] abbrev text (s : String) : Value := .scalar (.text ⟨s, []⟩)

instance : Inhabited Value := ⟨null⟩

def truthy : Value → Bool
  | .scalar s => s.truthy
  | .list items => !items.isEmpty
  | .mapping entries => !entries.isEmpty

mutual

/-- Equality of values. Mappings are compared entry by entry, whatever their order. -/
def same : Value → Value → Bool
  | .scalar a, .scalar b => a.same b
  | .list a, .list b => sameItems a b
  | .mapping a, .mapping b => a.length == b.length && sameEntries a b
  | _, _ => false
termination_by structural v => v

def sameItems : List Value → List Value → Bool
  | [], [] => true
  | a :: as, b :: bs => a.same b && sameItems as bs
  | _, _ => false
termination_by structural v => v

/-- Whether every entry of the first mapping has its equal in the second. -/
def sameEntries : List (Scalar × Value) → List (Scalar × Value) → Bool
  | [], _ => true
  | (k, v) :: rest, other =>
    (match Table.lookup other k with
      | some w => v.same w
      | none => false) && sameEntries rest other
termination_by structural v => v

end

def text? : Value → Option String
  | .text s => some s
  | _ => none

def number? : Value → Option Decimal.Dyadic
  | .scalar s => s.number?
  | _ => none

/-- A whole number, truth values included. -/
def int? : Value → Option Int
  | .int n => some n
  | .bool b => some (if b then 1 else 0)
  | _ => none

end Value

end Dialogue
