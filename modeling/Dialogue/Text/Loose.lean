/-! A surrogate is half of a character, and an escape can leave one alone. So texts are made of code
points, which are characters and lone surrogates. Most texts are made of characters only. -/

namespace Dialogue.Text

/-- Half of a character, by its number. -/
structure Surrogate where
  code : Nat
  bounds : 0xd800 ≤ code ∧ code < 0xe000
  deriving DecidableEq

inductive CodePoint where
  | char (c : Char)
  | surrogate (s : Surrogate)
  deriving DecidableEq

namespace CodePoint

def code : CodePoint → Nat
  | .char c => c.toNat
  | .surrogate s => s.code

def char? : CodePoint → Option Char
  | .char c => some c
  | .surrogate _ => none

end CodePoint

def pointsOf (chars : List Char) : List CodePoint :=
  chars.map .char

/-- A text: its characters up to the first lone surrogate, and every lone surrogate with the
characters behind it. -/
structure Loose where
  front : String
  torn : List (Surrogate × String) := []
  deriving DecidableEq

namespace Loose

instance : Coe String Loose := ⟨fun s => ⟨s, []⟩⟩

def points (t : Loose) : List CodePoint :=
  pointsOf t.front.toList ++ t.torn.flatMap fun (s, chars) => .surrogate s :: pointsOf chars.toList

def codes (t : Loose) : List Nat :=
  t.points.map CodePoint.code

/-- Texts are ordered by the numbers of their code points. -/
instance : LT Loose := ⟨fun s t => s.codes < t.codes⟩

instance (s t : Loose) : Decidable (s < t) :=
  inferInstanceAs (Decidable (s.codes < t.codes))

def precede : CodePoint → List Char × List (Surrogate × List Char) →
    List Char × List (Surrogate × List Char)
  | .char c, (front, torn) => (c :: front, torn)
  | .surrogate s, (front, torn) => ([], (s, front) :: torn)

def ofPoints (points : List CodePoint) : Loose :=
  let (front, torn) := points.foldr precede ([], [])
  ⟨String.ofList front, torn.map fun (s, chars) => (s, String.ofList chars)⟩

/-- A text as characters only, with a replacement character for each lone surrogate. -/
def shown (t : Loose) : String :=
  t.torn.foldl (fun text (_, chars) => text ++ "\ufffd" ++ chars) t.front

@[simp]
theorem shown_coe (s : String) : shown ⟨s, []⟩ = s := rfl

end Loose

end Dialogue.Text
