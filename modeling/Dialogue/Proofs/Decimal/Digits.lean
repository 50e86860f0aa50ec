import Dialogue.Decimal.Numeral
import Mathlib.Algebra.Order.Field.Power

/-! The digits of a natural number, how many there are, and reading them back. -/

namespace Dialogue.Decimal

theorem lt_pow_length_toDigits (n : Nat) : n < 10 ^ (Nat.toDigits 10 n).length :=
  (Nat.length_toDigits_le_iff (by decide) Nat.length_toDigits_pos).mp (Nat.le_refl _)

theorem pow_length_toDigits_le {n : Nat} (hn : 0 < n) :
    10 ^ ((Nat.toDigits 10 n).length - 1) ≤ n := by
  obtain hone | hmany := Nat.lt_or_ge 1 (Nat.toDigits 10 n).length
  · refine Nat.not_lt.mp fun hlt => ?_
    have := (Nat.length_toDigits_le_iff (by decide) (Nat.sub_pos_of_lt hone)).mpr hlt
    omega
  · rw [Nat.sub_eq_zero_of_le hmany]
    exact hn

def AreDigits (text : List Char) : Prop :=
  ∀ c ∈ text, c.isDigit = true

def EndsDigits (text : List Char) : Prop :=
  ∀ c ∈ text.head?, c.isDigit = false

def digitsValue (text : List Char) : Nat :=
  Nat.ofDigitChars 10 text 0

theorem areDigits_toDigits (n : Nat) : AreDigits (Nat.toDigits 10 n) :=
  fun _ hc => Nat.isDigit_of_mem_toDigits (by decide) (by decide) hc

theorem areDigits_append {s t : List Char} : AreDigits (s ++ t) ↔ AreDigits s ∧ AreDigits t := by
  simp [AreDigits, or_imp, forall_and]

theorem areDigits_replicate (n : Nat) : AreDigits (List.replicate n '0') := by
  intro c hc
  rw [List.eq_of_mem_replicate hc]
  rfl

theorem digitsValue_toDigits (n : Nat) : digitsValue (Nat.toDigits 10 n) = n :=
  Nat.ofDigitChars_ten_toDigits

theorem digitsValue_append (s t : List Char) :
    digitsValue (s ++ t) = digitsValue s * 10 ^ t.length + digitsValue t := by
  rw [digitsValue, Nat.ofDigitChars_append, Nat.ofDigitChars_eq_ofDigitChars_zero, Nat.mul_comm]
  rfl

theorem digitsValue_replicate (n : Nat) : digitsValue (List.replicate n '0') = 0 := by
  rw [digitsValue, Nat.ofDigitChars_replicate_zero, Nat.mul_zero]

/-- The first digit of a positive number is not zero. -/
theorem head?_toDigits_ne {n : Nat} (hn : 0 < n) : (Nat.toDigits 10 n).head? ≠ some '0' := by
  induction n using Nat.strongRecOn with
  | ind n ih =>
      rw [Nat.toDigits_eq_if (by decide)]
      split
      · rename_i hlt
        intro h
        have hchar : Nat.digitChar n = '0' := Option.some.inj h
        have hvalue := congrArg Char.toNat hchar
        rw [Nat.toNat_digitChar_of_lt_ten hlt] at hvalue
        change 48 + n = 48 at hvalue
        omega
      · have hdiv : 0 < n / 10 := by omega
        rw [List.head?_append, Option.or_of_isSome (by simp)]
        exact ih _ (by omega) hdiv

/-! ## Reading digits -/

theorem takeDigits_go {ds rest : List Char} (hds : AreDigits ds) (hrest : EndsDigits rest)
    (value count : Nat) : takeDigits.go value count (ds ++ rest) =
      (Nat.ofDigitChars 10 ds value, count + ds.length, rest) := by
  induction ds generalizing value count with
  | nil =>
      cases rest with
      | nil => rfl
      | cons c rest =>
          have hc : c.isDigit = false := hrest c rfl
          simp [takeDigits.go, hc]
  | cons d ds ih =>
      have hd : d.isDigit = true := hds d (List.mem_cons_self ..)
      rw [List.cons_append, takeDigits.go, if_pos hd,
        ih fun c hc => hds c (List.mem_cons_of_mem _ hc),
        Nat.ofDigitChars_cons]
      simp [Nat.add_comm, Nat.add_left_comm]

theorem takeDigits_append {ds rest : List Char} (hds : AreDigits ds) (hne : ds ≠ [])
    (hrest : EndsDigits rest) :
    takeDigits (ds ++ rest) = (digitsValue ds, ds.length, rest) := by
  cases ds with
  | nil => exact absurd rfl hne
  | cons d ds =>
      have hd : d.isDigit = true := hds d (List.mem_cons_self ..)
      rw [List.cons_append, takeDigits, if_pos hd,
        takeDigits_go (fun c hc => hds c (List.mem_cons_of_mem _ hc)) hrest, digitsValue,
        Nat.ofDigitChars_cons]
      simp [Nat.add_comm]

end Dialogue.Decimal
