import Dialogue.Text.Loose
import Mathlib.Data.List.Lex

/-! A text is the same as the list of its code points, and as the list of their numbers. So texts
can be compared by either. -/

namespace Dialogue.Text

theorem lt_or_gt_of_char (c : Char) : c.toNat < 0xd800 ∨ 0xdfff < c.toNat ∧ c.toNat < 0x110000 :=
  c.valid

theorem CodePoint.code_char_ne (c : Char) (s : Surrogate) : (char c).code ≠ (surrogate s).code := by
  have hc := lt_or_gt_of_char c
  have hs := s.bounds
  simp only [code]
  omega

theorem CodePoint.code_injective : Function.Injective CodePoint.code := by
  intro p q h
  cases p with
  | char c =>
      cases q with
      | char d => exact congrArg char (Char.toNat_inj.mp h)
      | surrogate s => exact absurd h (code_char_ne c s)
  | surrogate s =>
      cases q with
      | char c => exact absurd h.symm (code_char_ne c s)
      | surrogate s' =>
          cases s
          cases s'
          cases h
          rfl

theorem foldr_precede_pointsOf (chars front : List Char) (torn : List (Surrogate × List Char)) :
    (pointsOf chars).foldr Loose.precede (front, torn) = (chars ++ front, torn) := by
  induction chars with
  | nil => rfl
  | cons c chars ih => exact congrArg (Loose.precede (.char c)) ih

namespace Loose

@[simp]
theorem points_coe (s : String) : points ⟨s, []⟩ = pointsOf s.toList :=
  List.append_nil _

theorem ofPoints_points (t : Loose) : ofPoints t.points = t := by
  obtain ⟨front, torn⟩ := t
  have htorn : (torn.flatMap fun e => CodePoint.surrogate e.1 :: pointsOf e.2.toList).foldr precede
      ([], []) = ([], torn.map fun e => (e.1, e.2.toList)) := by
    induction torn with
    | nil => rfl
    | cons e torn ih =>
        rw [List.flatMap_cons, List.cons_append, List.foldr_cons, List.foldr_append, ih,
          foldr_precede_pointsOf, List.append_nil]
        rfl
  rw [ofPoints, points, List.foldr_append, htorn, foldr_precede_pointsOf, List.append_nil]
  simp [Function.comp_def]

@[simp]
theorem points_ofPoints (ps : List CodePoint) : (ofPoints ps).points = ps := by
  induction ps with
  | nil => rfl
  | cons p ps ih =>
      rw [points, ofPoints] at *
      cases p with
      | char c =>
          rw [List.foldr_cons]
          simpa [precede, pointsOf] using ih
      | surrogate s =>
          rw [List.foldr_cons]
          simpa [precede, pointsOf] using ih

theorem codes_injective : Function.Injective codes := by
  intro t u h
  have hpoints := List.map_injective_iff.mpr CodePoint.code_injective h
  rw [← ofPoints_points t, hpoints, ofPoints_points]

instance : LinearOrder Loose :=
  LinearOrder.lift' codes codes_injective

end Loose

end Dialogue.Text
