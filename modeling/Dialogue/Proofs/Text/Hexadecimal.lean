import Dialogue.Text.Hexadecimal
import Mathlib.Tactic.Ring

/-! The digits of a number spell it, in small letters and in capitals. -/

namespace Dialogue.Text

theorem hexDigits_succ (count n : Nat) : hexDigits (count + 1) n =
    Nat.digitChar (n / 16 ^ count % 16) :: hexDigits count n := by
  simp [hexDigits, List.range_succ, Nat.pow_eq]

theorem hexValue?_digitChar {d : Nat} (hd : d < 16) : hexValue? (Nat.digitChar d) = some d := by
  have : ∀ d < 16, hexValue? (Nat.digitChar d) = some d := by decide
  exact this d hd

theorem hexValue?_toUpper {d : Nat} (hd : d < 16) :
    hexValue? (Nat.digitChar d).toUpper = some d := by
  have : ∀ d < 16, hexValue? (Nat.digitChar d).toUpper = some d := by decide
  exact this d hd

section Spelled

variable {f : Char → Char} (hf : ∀ d < 16, hexValue? (f (Nat.digitChar d)) = some d)

include hf

theorem foldlM_hexDigits (count n start : Nat) :
    ((hexDigits count n).map f).foldlM (fun n c => (hexValue? c).map (16 * n + ·)) start =
      some (start * 16 ^ count + n % 16 ^ count) := by
  induction count generalizing start with
  | zero => simp [hexDigits, Nat.mod_one]
  | succ count ih =>
      rw [hexDigits_succ, List.map_cons, List.foldlM_cons, hf _ (Nat.mod_lt _ (by decide))]
      refine (ih _).trans (congrArg some ?_)
      rw [Nat.mod_pow_succ, pow_succ]
      ring

theorem hexNumber?_map_hexDigits {count n : Nat} (hn : n < 16 ^ count) :
    hexNumber? ((hexDigits count n).map f) = some n := by
  rw [hexNumber?, foldlM_hexDigits hf, Nat.zero_mul, Nat.zero_add, Nat.mod_eq_of_lt hn]

end Spelled

/-- Digits are read as the number that they spell. -/
theorem hexNumber?_hexDigits {count n : Nat} (hn : n < 16 ^ count) :
    hexNumber? (hexDigits count n) = some n := by
  have h := hexNumber?_map_hexDigits (f := id) (fun d hd => hexValue?_digitChar hd) hn
  rwa [List.map_id] at h

theorem hexNumber?_toUpper {count n : Nat} (hn : n < 16 ^ count) :
    hexNumber? ((hexDigits count n).map Char.toUpper) = some n :=
  hexNumber?_map_hexDigits (fun _ => hexValue?_toUpper) hn

end Dialogue.Text
