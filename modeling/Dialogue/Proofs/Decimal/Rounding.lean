import Mathlib.Algebra.Order.Field.Power
import Mathlib.Data.Nat.Cast.Order.Field
import Mathlib.Tactic.Linarith
import Mathlib.Tactic.Positivity
import Mathlib.Tactic.FieldSimp
import Mathlib.Tactic.Ring
import Dialogue.Decimal.Shortest
import Dialogue.Proofs.Decimal.Doubles

/-! What rounds to a double is what lies no further from it than half a step, with ties to even.
Rounding finds that double, and so do products and quotients of doubles. -/

namespace Dialogue.Decimal

open Float.Model (Format UnpackedFloat totalExponent)
open Float.Model.UnpackedFloat (Sign Accuracy ExtendedMantissa accuracyOfFraction shiftToExponent
  shiftToTargetExponent roundWithAccuracy)

/-! ## Quotients -/

/-- The whole part of `num / den`, whether a half is behind it, and whether more is. -/
structure Holds (em : ExtendedMantissa) (num den : Nat) : Prop where
  mantissa : em.mantissa = num / den
  roundBit : em.roundBit = decide (den ≤ 2 * (num % den))
  stickyBit : em.stickyBit = decide (num % den ≠ 0 ∧ 2 * (num % den) ≠ den)

variable {em : ExtendedMantissa} {num den : Nat}

theorem holds_ofMantissaAndAccuracy (hden : 0 < den) (num : Nat) :
    Holds (.ofMantissaAndAccuracy (num / den) (accuracyOfFraction (num % den) den)) num den := by
  have hlt := Nat.mod_lt num hden
  rw [accuracyOfFraction]
  split
  · rename_i hzero
    constructor <;> simp [ExtendedMantissa.ofMantissaAndAccuracy, hzero, hden.ne']
  · rename_i hne
    cases hcompare : compare (2 * (num % den)) den with
    | lt =>
        rw [Nat.compare_eq_lt] at hcompare
        constructor <;> simp [ExtendedMantissa.ofMantissaAndAccuracy] <;> omega
    | eq =>
        rw [Nat.compare_eq_eq] at hcompare
        constructor <;> simp [ExtendedMantissa.ofMantissaAndAccuracy] <;> omega
    | gt =>
        rw [Nat.compare_eq_gt] at hcompare
        constructor <;> simp [ExtendedMantissa.ofMantissaAndAccuracy] <;> omega

theorem Holds.shiftRightOne (h : Holds em num den) (hden : 0 < den) :
    Holds em.shiftRightOne num (den * 2) := by
  have hlt := Nat.mod_lt num hden
  have hmod : num % (den * 2) = num % den + den * (num / den % 2) := Nat.mod_mul
  have hodd := Nat.mod_two_eq_zero_or_one (num / den)
  constructor
  · rw [ExtendedMantissa.shiftRightOne, h.mantissa, Nat.div_div_eq_div_mul]
  · rw [ExtendedMantissa.shiftRightOne, h.mantissa, hmod, Bool.eq_iff_iff]
    simp only [bne_iff_ne, decide_eq_true_eq]
    obtain hodd | hodd := hodd <;> rw [hodd] <;> omega
  · rw [ExtendedMantissa.shiftRightOne, h.roundBit, h.stickyBit, hmod, Bool.eq_iff_iff]
    simp only [Bool.or_eq_true, decide_eq_true_eq]
    obtain hodd | hodd := hodd <;> rw [hodd] <;> omega

theorem Holds.shiftRight (h : Holds em num den) (hden : 0 < den) (n : Nat) :
    Holds (em >>> n) num (den * 2 ^ n) := by
  induction n with
  | zero =>
      rw [Nat.pow_zero, Nat.mul_one]
      exact h
  | succ n ih =>
      rw [Nat.pow_succ, ← Nat.mul_assoc]
      exact ih.shiftRightOne (by positivity)

/-- A quotient rounds to a number that it is at most one half away from; where it is just one half,
to an even one. -/
theorem Holds.roundedMantissa_eq (h : Holds em num den) (hden : 0 < den) {m : Nat}
    (hlow : 2 * m * den ≤ 2 * num + den) (hhigh : 2 * num ≤ 2 * m * den + den)
    (hodd : m % 2 = 1 → 2 * m * den ≠ 2 * num + den ∧ 2 * num ≠ 2 * m * den + den) :
    em.roundedMantissa = m := by
  have hlt := Nat.mod_lt num hden
  have hnum := Nat.div_add_mod num den
  obtain ⟨f, roundBit, stickyBit⟩ := em
  obtain ⟨hf, hround, hsticky⟩ := h
  dsimp only at hf hround hsticky
  rw [← hf] at hnum
  generalize num % den = r at *
  have hround : roundBit = true ↔ den ≤ 2 * r := by simp [hround]
  have hsticky : stickyBit = true ↔ r ≠ 0 ∧ 2 * r ≠ den := by simp [hsticky]
  have hfm : m = f ∨ m = f + 1 := by
    have h1 : f ≤ m := by
      by_contra hgt
      have : den * (m + 1) ≤ den * f := Nat.mul_le_mul_left den (by omega)
      nlinarith
    have h2 : m ≤ f + 1 := by
      by_contra hgt
      have : den * (f + 2) ≤ den * m := Nat.mul_le_mul_left den (by omega)
      nlinarith
    omega
  have hscale : 2 * m * den = 2 * (den * f) ∧ m = f ∨ 2 * m * den = 2 * (den * f) + 2 * den ∧
    m = f + 1 := by
    rcases hfm with rfl | rfl
    · exact .inl ⟨by ring, rfl⟩
    · exact .inr ⟨by ring, rfl⟩
  -- The two bits compare the remainder with one half, which tells the two candidates apart.
  cases roundBit <;> cases stickyBit <;>
    simp only [ExtendedMantissa.roundedMantissa, ExtendedMantissa.accuracy,
      Accuracy.roundToNearestEven] <;> simp only [Bool.false_eq_true, false_iff,
        true_iff] at hround hsticky <;> omega

/-! ## What rounds to a double -/

/-- Whether `r` rounds to `m · 2^q`: it is at most half a step away, to the side of a shorter step
at most half of that, and where it is just half a step away the significand is even. -/
structure RoundsTo (m : Nat) (q : Int) (r : ℚ) : Prop where
  low : (2 * m - 1) * (2 : ℚ) ^ q ≤ 2 * r
  low_leading : m = 2 ^ 52 → -1074 < q → (4 * m - 1) * (2 : ℚ) ^ q ≤ 4 * r
  high : 2 * r ≤ (2 * m + 1) * (2 : ℚ) ^ q
  odd : m % 2 = 1 → (2 * m - 1) * (2 : ℚ) ^ q ≠ 2 * r ∧ 2 * r ≠ (2 * m + 1) * (2 : ℚ) ^ q

theorem RoundsTo.exact (m : Nat) (q : Int) : RoundsTo m q (m * 2 ^ q) := by
  have hpos : (0 : ℚ) < 2 ^ q := by positivity
  constructor
  · nlinarith
  · intros
    nlinarith
  · nlinarith
  · intro
    constructor <;> intro <;> nlinarith

variable {m : Nat} {q e : Int} {r : ℚ} {s : Sign}

/-! ### Powers of two around it -/

theorem lt_of_two_zpow_lt {a b : Int} (h : (2 : ℚ) ^ a < 2 ^ b) : a < b :=
  (zpow_lt_zpow_iff_right₀ (by norm_num)).mp h

theorem RoundsTo.lt_of_lt (hr : RoundsTo m q r) (hm : m < 2 ^ 53) : r < 2 ^ (q + 53) := by
  have hp : (0 : ℚ) < 2 ^ q := by positivity
  have hm : (m : ℚ) + 1 ≤ 2 ^ 53 := by exact_mod_cast hm
  have hhigh := hr.high
  rw [zpow_add₀ (by norm_num)]
  norm_num at hm ⊢
  nlinarith

theorem RoundsTo.gt_of_lt (hr : RoundsTo m q r) (hm : 2 ^ 52 < m) : 2 ^ (q + 52) < r := by
  have hp : (0 : ℚ) < 2 ^ q := by positivity
  have hm : (2 : ℚ) ^ 52 + 1 ≤ m := by exact_mod_cast hm
  have hlow := hr.low
  rw [zpow_add₀ (by norm_num)]
  have := mul_le_mul_of_nonneg_right hm hp.le
  norm_num at this ⊢
  linarith

theorem RoundsTo.gt_of_eq (hr : RoundsTo (2 ^ 52) q r) (hq : -1074 < q) : 2 ^ (q + 51) < r := by
  have hp : (0 : ℚ) < 2 ^ q := by positivity
  have hlow := hr.low_leading rfl hq
  rw [zpow_add₀ (by norm_num)]
  norm_num at hlow ⊢
  linarith

theorem lt_two_zpow_log2 {n : Nat} (h : r < (n + 1) * (2 : ℚ) ^ e) :
    r < 2 ^ ((n.log2 : Int) + 1 + e) := by
  have hlog : ((n + 1 : Nat) : ℚ) ≤ ((2 ^ (n.log2 + 1) : Nat) : ℚ) := by
    exact_mod_cast Nat.lt_log2_self
  calc r < (n + 1) * (2 : ℚ) ^ e := h
    _ ≤ 2 ^ (n.log2 + 1) * (2 : ℚ) ^ e := by
        gcongr
        exact_mod_cast hlog
    _ = (2 : ℚ) ^ ((n.log2 : Int) + 1 + e) := by
        rw [zpow_add₀ (by norm_num) (_ + 1) e]
        norm_cast

theorem two_zpow_log2_le {n : Nat} (hn : n ≠ 0) (h : n * (2 : ℚ) ^ e ≤ r) :
    2 ^ ((n.log2 : Int) + e) ≤ r := by
  have hlog : ((2 ^ n.log2 : Nat) : ℚ) ≤ n := by exact_mod_cast Nat.log2_self_le hn
  calc (2 : ℚ) ^ ((n.log2 : Int) + e) = (2 ^ n.log2 : Nat) * (2 : ℚ) ^ e := by
        rw [zpow_add₀ (by norm_num)]
        norm_cast
    _ ≤ n * (2 : ℚ) ^ e := by gcongr
    _ ≤ r := h

/-- Right in front of a power of two the step is half as long. -/
theorem RoundsTo.carry (hr : RoundsTo (2 ^ 52) (q + 1) r) (hq : -1074 ≤ q) (h : r < 2 ^ (q + 53)) :
    RoundsTo (2 ^ 53) q r := by
  have hlow := hr.low_leading rfl (by omega)
  rw [zpow_add₀ (by norm_num)] at h hlow
  norm_num at h hlow
  constructor
  · norm_num
    linarith
  · intro hm
    norm_num at hm
  · norm_num
    linarith
  · intro hm
    norm_num at hm

/-! ## Shifts -/

theorem targetExponent_eq (n : Nat) (e : Int) :
    Format.binary64.targetExponent (totalExponent n e) = max (n.log2 - 52 + e) (-1074) := by
  have hbits : Format.binary64.mantissaBits = 53 := rfl
  have hleast : Format.binary64.minExponent = -1074 := rfl
  rw [Format.targetExponent, totalExponent, hbits, hleast]
  congr 1
  omega

/-- The first shift lands on the exponent of the double, or, in front of a power of two, on the one
before it. -/
theorem Legal.target_cases (h : Legal m q) {n : Nat} (hn : n * (2 : ℚ) ^ e ≤ r)
    (hn' : r < (n + 1) * (2 : ℚ) ^ e) (he : e ≤ max (n.log2 - 52 + e) (-1074))
    (hr : RoundsTo m q r) :
    max (n.log2 - 52 + e) (-1074) = q ∨
      max (n.log2 - 52 + e) (-1074) = q - 1 ∧ m = 2 ^ 52 ∧ r < 2 ^ (q + 52) := by
  obtain ⟨-, hlt, hleast, -, hleading⟩ := id h
  have hupper := lt_two_zpow_log2 hn'
  have hle : max (n.log2 - 52 + e) (-1074) ≤ q := by
    by_cases hzero : n = 0
    · subst hzero
      simp only [Nat.log2_zero] at he ⊢
      omega
    · have := lt_of_two_zpow_lt ((two_zpow_log2_le hzero hn).trans_lt (hr.lt_of_lt hlt))
      omega
  by_cases hq : q = -1074
  · exact .inl (by omega)
  by_cases hm : m = 2 ^ 52
  · subst hm
    have := lt_of_two_zpow_lt ((hr.gt_of_eq (by omega)).trans hupper)
    by_cases htarget : max (n.log2 - 52 + e) (-1074) = q
    · exact .inl htarget
    · refine .inr ⟨by omega, rfl, hupper.trans_le ?_⟩
      exact zpow_le_zpow_right₀ (by norm_num) (by omega)
  · have := lt_of_two_zpow_lt ((hr.gt_of_lt (by omega)).trans hupper)
    exact .inl (by omega)

theorem shiftToExponent_of_le {n : Nat} {t : Int} (h : t ≤ e) :
    shiftToExponent n e .exact t = (⟨n, false, false⟩, e) := by
  have hshift : (t - e).toNat = 0 := by omega
  rw [shiftToExponent, hshift]
  simp
  rfl

theorem shiftToTargetExponent_of_lt {n : Nat} (hn : n < 2 ^ 53) (he : -1074 ≤ e) :
    shiftToTargetExponent Format.binary64 n e .exact = (⟨n, false, false⟩, e) := by
  have hlog : n.log2 < 53 := by
    by_cases hzero : n = 0
    · simp [hzero]
    · exact (Nat.log2_lt hzero).mpr hn
  rw [shiftToTargetExponent, targetExponent_eq]
  exact shiftToExponent_of_le (by omega)

theorem shiftToTargetExponent_carry (he : -1074 ≤ e) :
    shiftToTargetExponent Format.binary64 (2 ^ 53) e .exact = (⟨2 ^ 52, false, false⟩, e + 1) := by
  have htarget : max (((2 ^ 53).log2 : Int) - 52 + e) (-1074) - e = 1 := by
    rw [Nat.log2_two_pow]
    omega
  rw [shiftToTargetExponent, targetExponent_eq, shiftToExponent, htarget]
  rfl

theorem roundWithAccuracy_of_shifts {n f : Nat} {accuracy : Accuracy} {t : Int} {b c : Bool}
    (hfirst : shiftToTargetExponent Format.binary64 n e accuracy = (em, t))
    (hsecond : shiftToTargetExponent Format.binary64 em.roundedMantissa t .exact = (⟨f, b, c⟩, q))
    (hf : 0 < f) : roundWithAccuracy Format.binary64 s n e accuracy = .finite s f q hf := by
  rw [roundWithAccuracy]
  simp only [hfirst, hsecond]
  rw [dif_neg hf.ne']

/-- Halves between a quotient and a natural number, without the division. -/
theorem halves_iff (hden : 0 < den) (num f : Nat) :
    ((2 * f - 1 : ℚ) ≤ 2 * (num / den) ↔ 2 * f * den ≤ 2 * num + den) ∧
      (2 * (num / den : ℚ) ≤ 2 * f + 1 ↔ 2 * num ≤ 2 * f * den + den) ∧
      ((2 * f - 1 : ℚ) = 2 * (num / den) ↔ 2 * f * den = 2 * num + den) ∧
      (2 * (num / den : ℚ) = 2 * f + 1 ↔ 2 * num = 2 * f * den + den) := by
  have hd : (0 : ℚ) < den := by exact_mod_cast hden
  rw [← mul_div_assoc, le_div_iff₀ hd, div_le_iff₀ hd, eq_div_iff hd.ne', div_eq_iff hd.ne',
    sub_mul,
    add_mul, one_mul, sub_le_iff_le_add, sub_eq_iff_eq_add]
  norm_cast

theorem RoundsTo.steps {x : ℚ} (h : RoundsTo m q (x * 2 ^ q)) :
    2 * m - 1 ≤ 2 * x ∧ 2 * x ≤ 2 * m + 1 ∧
      (m % 2 = 1 → 2 * m - 1 ≠ 2 * x ∧ 2 * x ≠ 2 * m + 1) := by
  have hp : (0 : ℚ) < 2 ^ q := by positivity
  obtain ⟨hlow, -, hhigh, hodd⟩ := h
  rw [← mul_assoc] at hlow hhigh hodd
  refine ⟨le_of_mul_le_mul_right hlow hp, le_of_mul_le_mul_right hhigh hp, fun hm => ?_⟩
  obtain ⟨h1, h2⟩ := hodd hm
  exact ⟨fun h => h1 (by rw [h]), fun h => h2 (by rw [h])⟩

theorem Holds.roundedMantissa_of_roundsTo (h : Holds em num den) (hden : 0 < den)
    (hr : RoundsTo m q (num / den * 2 ^ q)) : em.roundedMantissa = m := by
  obtain ⟨hlow, hhigh, hodd⟩ := hr.steps
  obtain ⟨h1, h2, h3, h4⟩ := halves_iff hden num m
  exact h.roundedMantissa_eq hden (h1.mp hlow) (h2.mp hhigh) fun hm =>
    ⟨mt h3.mpr (hodd hm).1, mt h4.mpr (hodd hm).2⟩

theorem quotient_eq (num : Nat) (hden : 0 < den) (e : Int) (k : Nat) :
    (num / den * 2 ^ e : ℚ) = num / (den * 2 ^ k : Nat) * 2 ^ (e + k) := by
  have hd : (den : ℚ) ≠ 0 := by exact_mod_cast hden.ne'
  rw [zpow_add₀ (by norm_num), zpow_natCast]
  push_cast
  field_simp

/-- Rounding finds the double that a value rounds to. -/
theorem Legal.roundWithAccuracy_eq (h : Legal m q) (s : Sign) (num : Nat) (hden : 0 < den)
    (he : e ≤ max ((num / den).log2 - 52 + e) (-1074)) (hr : RoundsTo m q (num / den * 2 ^ e)) :
    roundWithAccuracy Format.binary64 s (num / den) e (accuracyOfFraction (num % den) den) =
      .finite s m q h.pos := by
  have hd : (0 : ℚ) < den := by exact_mod_cast hden
  have hn : ((num / den : Nat) : ℚ) * 2 ^ e ≤ num / den * 2 ^ e := by
    gcongr
    exact Nat.cast_div_le
  have hn' : (num / den * 2 ^ e : ℚ) < ((num / den : Nat) + 1) * 2 ^ e := by
    gcongr
    rw [div_lt_iff₀ hd, mul_comm]
    exact_mod_cast Nat.lt_mul_div_succ num hden
  have htarget := h.target_cases hn hn' he hr
  set t := max (((num / den).log2 : Int) - 52 + e) (-1074) with ht
  obtain ⟨k, hk⟩ : ∃ k : Nat, t = e + k := ⟨(t - e).toNat, by omega⟩
  have hshift : (t - e).toNat = k := by omega
  have hfirst : shiftToTargetExponent Format.binary64 (num / den) e
      (accuracyOfFraction (num % den) den) =
        (ExtendedMantissa.ofMantissaAndAccuracy (num / den)
          (accuracyOfFraction (num % den) den) >>> k, t) := by
    rw [shiftToTargetExponent, targetExponent_eq, ← ht, shiftToExponent, hshift, hk]
  have hholds := (holds_ofMantissaAndAccuracy hden num).shiftRight hden k
  have hden' : 0 < den * 2 ^ k := by positivity
  have hleast : -1074 ≤ t := le_max_right _ _
  rw [quotient_eq num hden e k, ← hk] at hr htarget
  refine roundWithAccuracy_of_shifts hfirst (b := false) (c := false) ?_ h.pos
  obtain htq | ⟨htq, rfl, hupper⟩ := htarget
  · rw [htq] at hr
    rw [hholds.roundedMantissa_of_roundsTo hden' hr, htq]
    exact shiftToTargetExponent_of_lt h.lt_carry h.least_le
  · -- the significand is rounded up to a power of two, for which there is one bit too few
    obtain rfl : q = t + 1 := by omega
    have hcarry := hr.carry hleast (by rwa [add_assoc] at hupper)
    rw [hholds.roundedMantissa_of_roundsTo hden' hcarry, shiftToTargetExponent_carry hleast]

/-! ## Products and quotients -/

section Operations

variable {m₁ m₂ : Nat} {e₁ e₂ : Int}

theorem Legal.mul_eq (h : Legal m q) (h₁ : 0 < m₁) (h₂ : 0 < m₂) (hbits : 52 ≤ (m₁ * m₂).log2)
    (hr : RoundsTo m q (m₁ * 2 ^ e₁ * (m₂ * 2 ^ e₂))) :
    UnpackedFloat.mul Format.binary64 (.finite .positive m₁ e₁ h₁) (.finite .positive m₂ e₂ h₂) =
      .finite .positive m q h.pos := by
  have hvalue : (m₁ * 2 ^ e₁ * (m₂ * 2 ^ e₂) : ℚ) =
    (m₁ * m₂ : Nat) / (1 : Nat) * 2 ^ (e₁ + e₂) := by
    rw [zpow_add₀ (by norm_num)]
    push_cast
    ring
  rw [hvalue] at hr
  have hround := h.roundWithAccuracy_eq .positive (m₁ * m₂) Nat.one_pos
    (by rw [Nat.div_one]; omega) hr
  rw [Nat.div_one, Nat.mod_one] at hround
  exact hround

/-- The dividend is widened until the quotient has all the bits that a double has. -/
theorem le_target_of_div (hm₁ : 0 < m₁) (hm₂ : 0 < m₂) {t : Int}
    (ht : t = min (e₁ - e₂) (max (m₁.log2 - m₂.log2 - 53 + (e₁ - e₂)) (-1074))) :
    t ≤ max ((m₁ <<< (e₁ - e₂ - t).toNat / m₂).log2 - 52 + t) (-1074) := by
  by_cases hleast : t ≤ -1074
  · omega
  set k := (e₁ - e₂ - t).toNat with hk
  have hbits : m₂.log2 + 53 ≤ m₁.log2 + k := by omega
  have hquotient : 2 ^ 52 ≤ m₁ <<< k / m₂ := by
    rw [Nat.le_div_iff_mul_le hm₂, Nat.shiftLeft_eq]
    calc 2 ^ 52 * m₂ ≤ 2 ^ 52 * 2 ^ (m₂.log2 + 1) := by
          gcongr
          exact Nat.lt_log2_self.le
      _ = 2 ^ (m₂.log2 + 53) := by ring
      _ ≤ 2 ^ (m₁.log2 + k) := by gcongr; norm_num
      _ = 2 ^ m₁.log2 * 2 ^ k := by rw [Nat.pow_add]
      _ ≤ m₁ * 2 ^ k := by
          gcongr
          exact Nat.log2_self_le hm₁.ne'
  have hlog : 52 ≤ (m₁ <<< k / m₂).log2 := by
    rw [Nat.le_log2 (by omega)]
    exact hquotient
  omega

theorem Legal.div_eq (h : Legal m q) (h₁ : 0 < m₁) (h₂ : 0 < m₂)
    (hr : RoundsTo m q (m₁ * 2 ^ e₁ / (m₂ * 2 ^ e₂))) :
    UnpackedFloat.div Format.binary64 (.finite .positive m₁ e₁ h₁) (.finite .positive m₂ e₂ h₂) =
      .finite .positive m q h.pos := by
  have htarget : min (e₁ - e₂) (Format.binary64.targetExponent
      (totalExponent m₁ e₁ - totalExponent m₂ e₂)) =
        min (e₁ - e₂) (max (m₁.log2 - m₂.log2 - 53 + (e₁ - e₂)) (-1074)) := by
    rw [Format.targetExponent, totalExponent, totalExponent,
      show Format.binary64.mantissaBits = 53 from rfl,
      show Format.binary64.minExponent = -1074 from rfl]
    congr 2
    omega
  obtain ⟨t, ht⟩ : ∃ t, t = min (e₁ - e₂) (max (m₁.log2 - m₂.log2 - 53 + (e₁ - e₂)) (-1074)) :=
    ⟨_, rfl⟩
  have hm₂ : (0 : ℚ) < m₂ := by exact_mod_cast h₂
  have hvalue : (m₁ * 2 ^ e₁ / (m₂ * 2 ^ e₂) : ℚ) =
      (m₁ <<< (e₁ - e₂ - t).toNat : Nat) / m₂ * 2 ^ t := by
    obtain ⟨k, hk⟩ : ∃ k : Nat, e₁ - e₂ - t = k := ⟨(e₁ - e₂ - t).toNat, by omega⟩
    have he : e₁ = e₂ + (k + t) := by omega
    rw [hk, Int.toNat_natCast, Nat.shiftLeft_eq, he, zpow_add₀ (by norm_num),
      zpow_add₀ (by norm_num),
      zpow_natCast]
    push_cast
    field_simp
  rw [hvalue] at hr
  rw [UnpackedFloat.div, UnpackedFloat.divCore]
  simp only [htarget, ← ht]
  exact h.roundWithAccuracy_eq _ _ h₂ (le_target_of_div h₁ h₂ ht) hr

end Operations

end Dialogue.Decimal
