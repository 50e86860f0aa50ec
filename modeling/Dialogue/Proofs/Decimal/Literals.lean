import Mathlib.Algebra.Order.Field.Power
import Mathlib.Tactic.Linarith
import Mathlib.Tactic.Positivity
import Mathlib.Tactic.FieldSimp
import Dialogue.Proofs.Decimal.Digits
import Dialogue.Proofs.Decimal.Rounding

/-! A literal, digits and a power of ten, is the double that its value rounds to, both where the
power is exact as a double and where it is not. Whole numbers always become numbers. -/

namespace Dialogue.Decimal

open Float.Model (Format UnpackedFloat totalExponent)
open Float.Model.UnpackedFloat (Sign Accuracy roundWithAccuracy decreaseExponent)

variable {m : Nat} {q : Int} {r : ℚ}

/-! ## The range of the doubles -/

theorem two_zpow_le_ten_zpow {k : Int} (hk : 0 ≤ k) : (2 : ℚ) ^ (3 * k) ≤ 10 ^ k := by
  rw [zpow_mul]
  exact zpow_le_zpow_left₀ hk (by norm_num) (by norm_num)

theorem ten_zpow_le_two_zpow {k : Int} (hk : k ≤ 0) : (10 : ℚ) ^ k ≤ 2 ^ (3 * k) := by
  have h := two_zpow_le_ten_zpow (k := -k) (by omega)
  rw [mul_neg, zpow_neg, zpow_neg] at h
  exact (inv_le_inv₀ (by positivity) (by positivity)).mp h

theorem Legal.lt_of_roundsTo (h : Legal m q) (hr : RoundsTo m q r) : r < 2 ^ (1024 : Int) := by
  have := h.le_greatest
  exact (hr.lt_of_lt h.lt_carry).trans_le (zpow_le_zpow_right₀ (by norm_num) (by omega))

theorem Legal.gt_of_roundsTo (h : Legal m q) (hr : RoundsTo m q r) : 2 ^ (-1076 : Int) < r := by
  have hp : (0 : ℚ) < 2 ^ q := by positivity
  have hm : (1 : ℚ) ≤ m := by exact_mod_cast h.pos
  have hlow := hr.low
  calc (2 : ℚ) ^ (-1076 : Int) ≤ 2 ^ (q - 2) := by
        gcongr
        · norm_num
        · have := h.least_le
          omega
    _ < r := by
        rw [zpow_sub₀ (by norm_num)]
        norm_num
        nlinarith

theorem Legal.pos_of_roundsTo (h : Legal m q) (hr : RoundsTo m q r) : 0 < r :=
  lt_trans (by positivity) (h.gt_of_roundsTo hr)

/-- The decimals that round to a double lie in the range in which powers of ten are computed. -/
theorem Legal.exponent_of_roundsTo (h : Legal m q) {n : Nat} {e : Int}
    (hr : RoundsTo m q (n * 10 ^ e)) : 0 < n ∧ e ≤ 342 ∧ -(1076 + n.log2 : Int) ≤ 3 * e := by
  have hn : 0 < n := by
    by_contra hzero
    obtain rfl : n = 0 := by omega
    simpa using h.pos_of_roundsTo hr
  refine ⟨hn, ?_, ?_⟩
  · by_contra hlarge
    have hn' : (1 : ℚ) ≤ n := by exact_mod_cast hn
    have : (2 : ℚ) ^ (3 * e) ≤ n * 10 ^ e :=
      (two_zpow_le_ten_zpow (by omega)).trans (le_mul_of_one_le_left (by positivity) hn')
    have := lt_of_two_zpow_lt (this.trans_lt (h.lt_of_roundsTo hr))
    omega
  · by_contra hsmall
    have hn' : (n : ℚ) ≤ 2 ^ ((n.log2 : Int) + 1) := by
      exact_mod_cast Nat.lt_log2_self.le
    have : (n * 10 ^ e : ℚ) ≤ 2 ^ ((n.log2 : Int) + 1 + 3 * e) := by
      rw [zpow_add₀ (by norm_num) (_ + 1)]
      gcongr
      exact ten_zpow_le_two_zpow (by omega)
    have := lt_of_two_zpow_lt ((h.gt_of_roundsTo hr).trans_le this)
    omega

/-! ## Scientific literals -/

theorem Legal.leading_of_one_le (h : Legal m q) (hone : (1 : ℚ) ≤ m * 2 ^ q) : 2 ^ 52 ≤ m := by
  obtain hq | hm := h.leading
  · have hm : (m : ℚ) < 2 ^ (53 : Int) := by exact_mod_cast h.lt_carry
    have hlt : (m * 2 ^ q : ℚ) < 2 ^ (53 + q) := by
      rw [zpow_add₀ (by norm_num)]
      gcongr
    have : (2 : ℚ) ^ (0 : Int) < 2 ^ (53 + q) := by simpa using hone.trans_lt hlt
    have := lt_of_two_zpow_lt this
    omega
  · exact hm

theorem le_log2_of_le {n k : Nat} (h : 2 ^ k ≤ n) : k ≤ n.log2 :=
  (Nat.le_log2 (Nat.ne_of_gt (lt_of_lt_of_le (by positivity) h))).mpr h

theorem le_shiftLeft_mul_pow {n : Nat} (hn : 0 < n) (k : Nat) : 2 ^ 52 ≤ n <<< 53 * 10 ^ k := by
  rw [Nat.shiftLeft_eq]
  calc 2 ^ 52 ≤ 1 * 2 ^ 53 * 1 := by norm_num
    _ ≤ n * 2 ^ 53 * 10 ^ k := by
        gcongr
        · exact hn
        · exact Nat.one_le_pow _ _ (by norm_num)

theorem shiftLeft_mul_pow_eq (n k : Nat) :
    ((n <<< 53 : Nat) * 2 ^ (-53 : Int) * ((10 ^ k : Nat) * 2 ^ (0 : Int)) : ℚ) =
      n * 10 ^ (k : Int) := by
  rw [Nat.shiftLeft_eq]
  push_cast
  rw [zpow_natCast]
  norm_num
  ring

/-- The model of `n · 10^e` beyond the exact powers: a product where the exponent is not negative,
and a quotient where it is. -/
theorem Legal.model_ofScientific_eq (h : Legal m q) {n : Nat} {e : Int}
    (hr : RoundsTo m q (n * 10 ^ e)) :
    UnpackedFloat.ofScientific Format.binary64 n e = .finite .positive m q h.pos := by
  obtain ⟨hn, hlarge, hsmall⟩ := h.exponent_of_roundsTo hr
  have hbits : (2 : Int) ^ Format.binary64.exponentBits = 2048 := by norm_num
  have hinfinite : ¬ e > 2 ^ Format.binary64.exponentBits := by
    rw [hbits]
    omega
  have hzero : ¬ e < -((2 ^ Format.binary64.exponentBits : Int) + n.log2) := by
    rw [hbits]
    omega
  rw [UnpackedFloat.ofScientific, dif_neg hn.ne', if_neg hinfinite, if_neg hzero]
  split
  · rename_i he
    obtain ⟨k, rfl⟩ := Int.eq_ofNat_of_zero_le he
    rw [← shiftLeft_mul_pow_eq] at hr
    exact h.mul_eq _ _ (le_log2_of_le (le_shiftLeft_mul_pow hn k)) hr
  · rename_i he
    obtain ⟨k, hk⟩ : ∃ k : Nat, e = -k := ⟨(-e).toNat, by omega⟩
    refine h.div_eq _ _ ?_
    rw [hk, zpow_neg, zpow_natCast] at hr
    rw [hk, neg_neg, Int.toNat_natCast]
    push_cast
    simpa [div_eq_mul_inv] using hr

def IsNat (x : Float) (n : Nat) : Prop :=
  ∃ m q, Dyadic.ofFloat x = .finite false m q ∧ (m * 2 ^ q : ℚ) = n

theorem IsNat.unpack {x : Float} {n : Nat} (h : IsNat x n) (hn : 0 < n) :
    ∃ m q, ∃ hm : 0 < m, x.toModel.unpack = .finite .positive m q hm ∧ (m * 2 ^ q : ℚ) = n ∧
      2 ^ 52 ≤ m := by
  obtain ⟨m, q, hx, hvalue⟩ := h
  have hone : (1 : ℚ) ≤ m * 2 ^ q := by
    rw [hvalue]
    exact_mod_cast hn
  have hm : 0 < m := by
    by_contra hzero
    obtain rfl : m = 0 := by omega
    norm_num at hone
  exact ⟨m, q, hm, unpack_of_ofFloat hx hm, hvalue, (legal_of_ofFloat hx hm).leading_of_one_le hone⟩

/-- The whole number that a double equals is its value. -/
theorem value_of_toInt? {negative : Bool} {v : Int}
    (h : (Dyadic.finite negative m q).toInt? = some v) :
    (m * 2 ^ q : ℚ) = if negative then -v else v := by
  rw [Dyadic.toInt?] at h
  by_cases hq : 0 ≤ q
  · obtain ⟨k, rfl⟩ := Int.eq_ofNat_of_zero_le hq
    rw [if_pos hq] at h
    obtain rfl := Option.some.inj h
    cases negative <;> simp
  · obtain ⟨k, rfl⟩ : ∃ k : Nat, q = -k := ⟨(-q).toNat, by omega⟩
    rw [if_neg hq, neg_neg, Int.toNat_natCast] at h
    by_cases hdiv : m % Nat.pow 2 k = 0
    · rw [if_pos hdiv] at h
      obtain rfl := Option.some.inj h
      have hmul : m / 2 ^ k * 2 ^ k = m := Nat.div_mul_cancel (Nat.dvd_of_mod_eq_zero hdiv)
      have hvalue : (m * 2 ^ (-(k : Int)) : ℚ) = (m / 2 ^ k : Nat) := by
        rw [zpow_neg, zpow_natCast, ← div_eq_mul_inv, div_eq_iff (by positivity)]
        exact_mod_cast hmul.symm
      rw [hvalue, ← Int.cast_natCast]
      congr 1
      cases negative
      · rfl
      · exact (neg_neg _).symm
    · rw [if_neg hdiv] at h
      cases h

theorem isNat_of_toInt? {x : Float} {n : Nat} (hx : (Dyadic.ofFloat x).toInt? = some (n : Int))
    (hn : 0 < n) : IsNat x n := by
  cases hvalue : Dyadic.ofFloat x with
  | finite negative m q =>
      rw [hvalue] at hx
      have hv := value_of_toInt? hx
      cases negative
      · exact ⟨m, q, hvalue, by simpa using hv⟩
      · have : (0 : ℚ) ≤ m * 2 ^ q := by positivity
        have : (0 : ℚ) < n := by exact_mod_cast hn
        simp at hv
        linarith
  | infinite negative =>
      rw [hvalue] at hx
      cases hx
  | notANumber =>
      rw [hvalue] at hx
      cases hx

/-- A small natural number with as many bits as a double has. -/
theorem exists_widened {n : Nat} (hn : 0 < n) (hlt : n < 2 ^ 53) :
    ∃ k, n.log2 + k = 52 ∧ 2 ^ 52 ≤ n <<< k ∧ Legal (n <<< k) (-k) := by
  have hlog : n.log2 < 53 := (Nat.log2_lt hn.ne').mpr hlt
  obtain ⟨k, hk⟩ : ∃ k, n.log2 + k = 52 := ⟨52 - n.log2, by omega⟩
  have hlow : 2 ^ 52 ≤ n <<< k := by
    rw [Nat.shiftLeft_eq, ← hk, Nat.pow_add]
    gcongr
    exact Nat.log2_self_le hn.ne'
  have hhigh : n <<< k < 2 ^ 53 := by
    rw [Nat.shiftLeft_eq, show 53 = n.log2 + 1 + k by omega, Nat.pow_add]
    gcongr
    exact Nat.lt_log2_self
  refine ⟨k, hk, hlow, ?_⟩
  constructor <;> omega

/-- Nothing is lost when a small natural number is rounded. -/
theorem model_ofNat_eq {n k : Nat} (hn : 0 < n) (hk : n.log2 + k = 52) (hlow : 2 ^ 52 ≤ n <<< k)
    (h : Legal (n <<< k) (-k)) :
    UnpackedFloat.ofNat Format.binary64 n = .finite .positive (n <<< k) (-k) h.pos := by
  have htarget : Format.binary64.targetExponent (totalExponent n 0) = -k := by
    rw [targetExponent_eq]
    omega
  have hshift : (0 - -(k : Int)).toNat = k := by omega
  have hexact := h.roundWithAccuracy_eq .positive (n <<< k) (e := -k) Nat.one_pos
    (by have := le_log2_of_le hlow; rw [Nat.div_one]; omega)
    (by rw [Nat.cast_one, div_one]; exact .exact _ _)
  rw [Nat.div_one, Nat.mod_one] at hexact
  have hround : UnpackedFloat.round Format.binary64 .positive n 0 =
      .finite .positive (n <<< k) (-k) h.pos := by
    rw [UnpackedFloat.round, htarget, decreaseExponent, hshift]
    simp only [Int.zero_sub]
    exact hexact
  have hcompare : compare (n : Int) 0 = .gt := by
    rw [Int.compare_eq_gt]
    omega
  rw [UnpackedFloat.ofNat, UnpackedFloat.ofInt, UnpackedFloat.normalize, hcompare]
  exact hround

/-- Small natural numbers become doubles without loss. -/
theorem isNat_toFloat {n : Nat} (hn : 0 < n) (hlt : n < 2 ^ 53) : IsNat n.toUInt64.toFloat n := by
  obtain ⟨k, hk, hlow, hlegal⟩ := exists_widened hn hlt
  have hn' : n.toUInt64.toNat = n := by
    rw [Nat.toUInt64, UInt64.toNat_ofNat']
    exact Nat.mod_eq_of_lt (by omega)
  have hdouble : n.toUInt64.toFloat = double (signOf false) (n <<< k) (-k) hlegal.pos := by
    show Float.ofModel (.pack (UnpackedFloat.ofNat Format.binary64 n.toUInt64.toNat)) = _
    rw [hn', model_ofNat_eq hn hk hlow hlegal]
    rfl
  refine ⟨n <<< k, -k, ?_, ?_⟩
  · rw [hdouble]
    exact hlegal.ofFloat_double false
  · rw [Nat.shiftLeft_eq, zpow_neg, zpow_natCast]
    push_cast
    field_simp

theorem isNat_powerOfTen {e : Nat} (he : e < Float.exactlyRepresentablePowersOfTen.size) :
    IsNat Float.exactlyRepresentablePowersOfTen[e] (10 ^ e) := by
  have hall : ∀ (e : Nat) (he : e < Float.exactlyRepresentablePowersOfTen.size),
      (Dyadic.ofFloat Float.exactlyRepresentablePowersOfTen[e]).toInt? =
        some ((10 ^ e : Nat) : Int) := by
    decide +kernel
  exact isNat_of_toInt? (hall e he) (by positivity)

theorem Legal.mul_of_isNat (h : Legal m q) {x y : Float} {a b : Nat} (hx : IsNat x a)
    (hy : IsNat y b) (ha : 0 < a) (hb : 0 < b) (hr : RoundsTo m q (a * b)) :
    x * y = double .positive m q h.pos := by
  obtain ⟨m₁, q₁, hm₁, hunpack₁, hvalue₁, hlow₁⟩ := hx.unpack ha
  obtain ⟨m₂, q₂, hm₂, hunpack₂, hvalue₂, -⟩ := hy.unpack hb
  have hbits : 52 ≤ (m₁ * m₂).log2 := le_log2_of_le (hlow₁.trans (Nat.le_mul_of_pos_right _ hm₂))
  rw [← hvalue₁, ← hvalue₂] at hr
  have hmul := h.mul_eq hm₁ hm₂ hbits hr
  show Float.ofModel (.pack (UnpackedFloat.mul Format.binary64 _ _)) = _
  rw [hunpack₁, hunpack₂, hmul]
  rfl

theorem Legal.div_of_isNat (h : Legal m q) {x y : Float} {a b : Nat} (hx : IsNat x a)
    (hy : IsNat y b) (ha : 0 < a) (hb : 0 < b) (hr : RoundsTo m q (a / b)) :
    x / y = double .positive m q h.pos := by
  obtain ⟨m₁, q₁, hm₁, hunpack₁, hvalue₁, -⟩ := hx.unpack ha
  obtain ⟨m₂, q₂, hm₂, hunpack₂, hvalue₂, -⟩ := hy.unpack hb
  rw [← hvalue₁, ← hvalue₂] at hr
  have hdiv := h.div_eq hm₁ hm₂ hr
  show Float.ofModel (.pack (UnpackedFloat.div Format.binary64 _ _)) = _
  rw [hunpack₁, hunpack₂, hdiv]
  rfl

/-- A scientific literal is the double that its value rounds to. -/
theorem Legal.ofScientific_eq (h : Legal m q) {n e : Nat} {negative : Bool}
    (hr : RoundsTo m q (n * 10 ^ (if negative then -e else e : Int))) :
    Float.ofScientific n negative e = double .positive m q h.pos := by
  obtain ⟨hn, -, -⟩ := h.exponent_of_roundsTo hr
  have hpower : 0 < 10 ^ e := by positivity
  rw [Float.ofScientific]
  split
  · rename_i hfast
    have he : e < Float.exactlyRepresentablePowersOfTen.size := by
      have := hfast.2
      simp only [Float.exactlyRepresentablePowersOfTen]
      norm_num
      omega
    have hdigits := isNat_toFloat hn hfast.1
    cases negative
    · exact h.mul_of_isNat hdigits (isNat_powerOfTen he) hn hpower (by simpa using hr)
    · exact h.div_of_isNat hdigits (isNat_powerOfTen he) hn hpower
        (by simpa [div_eq_mul_inv] using hr)
  · have hexponent : (if negative then Int.negOfNat e else Int.ofNat e) =
        if negative then -(e : Int) else e := by
      cases negative
      · rfl
      · exact Int.negOfNat_eq
    show Float.ofModel (.pack (UnpackedFloat.ofScientific Format.binary64 n
      (if negative then Int.negOfNat e else Int.ofNat e))) = _
    rw [hexponent, h.model_ofScientific_eq hr]
    rfl

/-- The places of the digits of a decimal that rounds to a double are far inside of the range that
is not looked at more closely. -/
theorem Legal.places_of_roundsTo (h : Legal m q) {n : Nat} {e : Int}
    (hr : RoundsTo m q (n * 10 ^ e)) : e + (Nat.toDigits 10 n).length ≤ 400 ∧
      -400 ≤ e + (Nat.toDigits 10 n).length := by
  obtain ⟨hn, -, -⟩ := h.exponent_of_roundsTo hr
  have hpos := Nat.length_toDigits_pos (b := 10) (n := n)
  have hlower := pow_length_toDigits_le hn
  have hupper := lt_pow_length_toDigits n
  generalize (Nat.toDigits 10 n).length = size at hpos hlower hupper
  constructor
  · by_contra hlarge
    have hle : (2 : ℚ) ^ (3 * (size - 1 + e)) ≤ n * 10 ^ e := by
      refine (two_zpow_le_ten_zpow (by omega)).trans ?_
      rw [zpow_add₀ (by norm_num)]
      gcongr
      rw [show ((size : Int) - 1) = ((size - 1 : Nat) : Int) by omega, zpow_natCast]
      exact_mod_cast hlower
    have := lt_of_two_zpow_lt (hle.trans_lt (h.lt_of_roundsTo hr))
    omega
  · by_contra hsmall
    have hle : (n * 10 ^ e : ℚ) ≤ 2 ^ (3 * (size + e)) := by
      refine le_trans ?_ (ten_zpow_le_two_zpow (by omega))
      rw [zpow_add₀ (by norm_num)]
      gcongr
      rw [zpow_natCast]
      exact_mod_cast hupper.le
    have := lt_of_two_zpow_lt ((h.gt_of_roundsTo hr).trans_le hle)
    omega

/-- What is scaled is the double that its value rounds to. -/
theorem Legal.scaled_eq (h : Legal m q) {n : Nat} {e : Int} (hr : RoundsTo m q (n * 10 ^ e)) :
    scaled n e = double .positive m q h.pos := by
  obtain ⟨hn, -, -⟩ := h.exponent_of_roundsTo hr
  obtain ⟨hlarge, hsmall⟩ := h.places_of_roundsTo hr
  rw [scaled, if_neg hn.ne', if_neg (not_lt.mpr hlarge), if_neg (not_lt.mpr hsmall)]
  split
  · rename_i he
    exact h.ofScientific_eq (by simpa [he] using hr)
  · exact h.ofScientific_eq (by simpa [show ((-e).toNat : Int) = -e by omega] using hr)

/-! ## Whole numbers as doubles -/

theorem roundWithAccuracy_ne (s : Sign) (n : Nat) (e : Int) (accuracy : Accuracy) :
    roundWithAccuracy Format.binary64 s n e accuracy ≠ .notANumber := by
  rw [roundWithAccuracy]
  dsimp only
  split <;> simp

theorem model_ofScientific_ne (n : Nat) (e : Int) :
    UnpackedFloat.ofScientific Format.binary64 n e ≠ .notANumber := by
  rw [UnpackedFloat.ofScientific]
  split
  · simp
  split
  · simp
  split
  · simp
  split
  · exact roundWithAccuracy_ne _ _ _ _
  · rw [UnpackedFloat.div]
    dsimp only
    exact roundWithAccuracy_ne _ _ _ _

theorem isNumber_ofScientific (n : Nat) : IsNumber (Float.ofScientific n false 0) := by
  obtain rfl | hn := Nat.eq_zero_or_pos n
  · rw [IsNumber]
    decide +kernel
  rw [Float.ofScientific]
  split
  · rename_i hfast
    obtain ⟨m₁, q₁, hm₁, hunpack₁, -⟩ := (isNat_toFloat hn hfast.1).unpack hn
    obtain ⟨m₂, q₂, hm₂, hunpack₂, -⟩ := (isNat_powerOfTen (e := 0) (by decide)).unpack (by decide)
    refine isNumber_pack (u := .mul Format.binary64 _ _) ?_
    rw [hunpack₁, hunpack₂]
    exact roundWithAccuracy_ne _ _ _ _
  · exact isNumber_pack (model_ofScientific_ne _ _)

theorem isNumber_floatOfInt? {n : Int} {x : Float} (h : floatOfInt? n = some x) : IsNumber x := by
  have hsize := isNumber_ofScientific n.natAbs
  rw [floatOfInt?] at h
  split at h
  · cases h
  · cases h
    split
    · exact hsize.neg
    · exact hsize

end Dialogue.Decimal
