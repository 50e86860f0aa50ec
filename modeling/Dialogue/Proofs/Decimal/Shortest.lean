import Mathlib.Algebra.Order.Field.Power
import Mathlib.Tactic.Linarith
import Mathlib.Tactic.Positivity
import Mathlib.Tactic.FieldSimp
import Mathlib.Tactic.NormNum
import Dialogue.Decimal.Shortest
import Dialogue.Proofs.Decimal.Digits
import Dialogue.Proofs.Decimal.Rounding

/-! The decimal that is chosen for a double lies in the interval of what rounds to the double, and a
grid of seventeen digits always has a point in it. -/

namespace Dialogue.Decimal

variable {m : Nat} {q : Int} {r : ℚ}

def Scientific.value (d : Scientific) : ℚ :=
  d.digits * 10 ^ d.exponent

namespace Interval

variable {i : Interval}

def Contains (i : Interval) (r : ℚ) : Prop :=
  if i.closed then i.low ≤ r * i.denominator ∧ r * i.denominator ≤ i.high
  else i.low < r * i.denominator ∧ r * i.denominator < i.high

theorem zpow_split (b : Nat) (hb : 0 < b) (k : Int) :
    (b : ℚ) ^ k * (Nat.pow b (-k).toNat : Nat) = (Nat.pow b k.toNat : Nat) := by
  have hb : (0 : ℚ) < b := by exact_mod_cast hb
  obtain ⟨n, rfl | rfl⟩ := k.eq_nat_or_neg
  · simp
  · simp only [neg_neg, Int.toNat_natCast, Int.toNat_neg_natCast, zpow_neg, zpow_natCast]
    show ((b : ℚ) ^ n)⁻¹ * ((b ^ n : Nat) : ℚ) = ((b ^ 0 : Nat) : ℚ)
    push_cast
    rw [inv_mul_cancel₀ (by positivity), pow_zero]

theorem cast_pow_pos {b : Nat} (hb : 0 < b) (n : Nat) : (0 : ℚ) < (Nat.pow b n : Nat) := by
  exact_mod_cast Nat.pow_pos hb

/-! ## The interval of a double -/

/-- How far the lower bound lies below the double, in quarters of its last place. -/
def below (m : Nat) (q : Int) : Nat :=
  if m = Dyadic.leadingBit ∧ Dyadic.leastExponent < q then 1 else 2

theorem below_le (m : Nat) (q : Int) : below m q ≤ 2 := by
  rw [below]
  split <;> omega

theorem below_pos (m : Nat) (q : Int) : 0 < below m q := by
  rw [below]
  split <;> omega

/-- A quarter of the last place, over the denominator of the interval. -/
theorem cast_scale (q : Int) : ((Nat.pow 2 (q - 2).toNat : Nat) : ℚ) =
    2 ^ q / 4 * (Nat.pow 2 (2 - q).toNat : Nat) := by
  rw [← zpow_split 2 (by norm_num), neg_sub, zpow_sub₀ (by norm_num)]
  norm_num

theorem cast_low (hm : 0 < m) : ((ofDyadic m q).low : ℚ) =
    (4 * m - below m q) * 2 ^ q / 4 * (ofDyadic m q).denominator := by
  have hbelow : below m q ≤ 4 * m := (below_le m q).trans (by omega)
  change (((4 * m - below m q) * Nat.pow 2 (q - 2).toNat : Nat) : ℚ) =
    (4 * m - below m q) * 2 ^ q / 4 * (Nat.pow 2 (2 - q).toNat : Nat)
  rw [Nat.cast_mul, cast_scale, Nat.cast_sub hbelow]
  push_cast
  ring

theorem cast_high (m : Nat) (q : Int) : ((ofDyadic m q).high : ℚ) =
    (2 * m + 1) * 2 ^ q / 2 * (ofDyadic m q).denominator := by
  change (((4 * m + 2) * Nat.pow 2 (q - 2).toNat : Nat) : ℚ) =
    (2 * m + 1) * 2 ^ q / 2 * (Nat.pow 2 (2 - q).toNat : Nat)
  rw [Nat.cast_mul, cast_scale]
  push_cast
  ring

/-- The bounds belong to the interval of a double with an even significand. -/
theorem contains_ofDyadic_iff (hm : 0 < m) : (ofDyadic m q).Contains r ↔
    if m % 2 = 0 then (4 * m - below m q) * 2 ^ q / 4 ≤ r ∧ r ≤ (2 * m + 1) * 2 ^ q / 2
      else (4 * m - below m q) * 2 ^ q / 4 < r ∧ r < (2 * m + 1) * 2 ^ q / 2 := by
  have hden : (0 : ℚ) < (ofDyadic m q).denominator := cast_pow_pos (by norm_num) _
  rw [Contains, cast_low hm, cast_high, mul_le_mul_iff_left₀ hden, mul_le_mul_iff_left₀ hden,
    mul_lt_mul_iff_left₀ hden, mul_lt_mul_iff_left₀ hden]
  simp [ofDyadic]

/-- What lies in the interval of a double rounds to it. -/
theorem roundsTo_of_contains (hm : 0 < m) (h : (ofDyadic m q).Contains r) : RoundsTo m q r := by
  have hp : (0 : ℚ) < 2 ^ q := by positivity
  rw [contains_ofDyadic_iff hm] at h
  have hlower : (4 * m - below m q) * (2 : ℚ) ^ q ≤ 4 * r := by
    split at h <;> linarith [h.1]
  have hupper : 2 * r ≤ (2 * m + 1) * (2 : ℚ) ^ q := by
    split at h <;> linarith [h.2]
  have htwo : (below m q : ℚ) ≤ 2 := by exact_mod_cast below_le m q
  refine ⟨?_, ?_, hupper, ?_⟩
  · nlinarith
  · intro hm' hq
    rw [below, if_pos ⟨hm', hq⟩] at hlower
    simpa using hlower
  · intro hodd
    rw [if_neg (by omega)] at h
    obtain ⟨hlow, hhigh⟩ := h
    constructor
    · intro
      nlinarith
    · intro
      linarith

/-! ## Grids -/

theorem contains_iff {up n : Nat} (hup : 0 < up) (hn : r * i.denominator * up = n) :
    i.Contains r ↔ if i.closed then i.low * up ≤ n ∧ n ≤ i.high * up
      else i.low * up < n ∧ n < i.high * up := by
  have hup' : (0 : ℚ) < up := by exact_mod_cast hup
  have hle : ∀ a : Nat, (a : ℚ) ≤ r * i.denominator ↔ a * up ≤ n := by
    intro a
    rw [← mul_le_mul_iff_left₀ hup', hn]
    norm_cast
  have hge : ∀ a : Nat, r * i.denominator ≤ (a : ℚ) ↔ n ≤ a * up := by
    intro a
    rw [← mul_le_mul_iff_left₀ hup', hn]
    norm_cast
  rw [Contains, hle, hge, lt_iff_not_ge, lt_iff_not_ge, hle, hge, not_le, not_le]

/-- The point that is chosen on a grid lies in the interval. -/
theorem contains_of_nearestOnGrid? {step : Int} {d : Scientific}
    (h : i.nearestOnGrid? step = some d) : i.Contains d.value := by
  unfold nearestOnGrid? at h
  extract_lets up unit inside floor belowBy aboveBy at h
  have hinside : ∀ n, inside n = true → i.Contains (n * 10 ^ step) := by
    intro n hn
    have hsplit : (n * 10 ^ step * i.denominator : ℚ) * up = (n * unit : Nat) := by
      have := zpow_split 10 (by norm_num) step
      push_cast [unit]
      rw [← this]
      push_cast
      ring
    rw [contains_iff (Nat.pow_pos (by norm_num)) hsplit]
    simp only [inside] at hn
    split at hn
    · rw [if_pos ‹_›]
      exact of_decide_eq_true hn
    · rw [if_neg ‹_›]
      exact of_decide_eq_true hn
  split at h
  · cases h
  · cases h
    exact hinside _ ‹_›
  · cases h
    exact hinside _ ‹_›
  · split at h <;> cases h <;> exact hinside _ ‹_›

/-- A grid that is finer than the interval is wide has a point next to the value in it. -/
theorem nearestOnGrid?_ne_none {step : Int} (hden : 0 < i.denominator) (hlow : i.low < i.value)
    (hhigh : i.value < i.high)
    (hstep : (10 : ℚ) ^ step * i.denominator < i.high - i.low) : i.nearestOnGrid? step ≠ none := by
  unfold nearestOnGrid?
  extract_lets up unit inside floor belowBy aboveBy
  have hup : 0 < up := Nat.pow_pos (by norm_num)
  have hunit : 0 < unit := Nat.mul_pos hden (Nat.pow_pos (by norm_num))
  have hfloor : floor * unit ≤ i.value * up := Nat.div_mul_le_self _ _
  have hceil : i.value * up < (floor + 1) * unit := by
    rw [Nat.mul_comm (floor + 1)]
    exact Nat.lt_mul_div_succ _ hunit
  have hlow' : i.low * up < i.value * up := by gcongr
  have hhigh' : i.value * up < i.high * up := by gcongr
  have hwidth : i.low * up + unit < i.high * up := by
    have : ((i.low * up + unit : Nat) : ℚ) < (i.high * up : Nat) := by
      have hsplit := zpow_split 10 (by norm_num) step
      have hup' : (0 : ℚ) < up := by exact_mod_cast hup
      have hscaled := mul_lt_mul_of_pos_right hstep hup'
      push_cast [unit]
      rw [← hsplit]
      push_cast at hscaled ⊢
      linarith
    exact_mod_cast this
  have hinside : ∀ n, i.low * up < n * unit → n * unit < i.high * up → inside n = true := by
    intro n h1 h2
    simp only [inside]
    split
    · exact decide_eq_true ⟨h1.le, h2.le⟩
    · exact decide_eq_true ⟨h1, h2⟩
  -- One of the points next to the value is inside: the lower one, or it lies below the interval and
  -- the upper one is less than the width of the interval away from it.
  by_cases hin : i.low * up < floor * unit
  · rw [hinside floor hin (hfloor.trans_lt hhigh')]
    cases inside (floor + 1)
    · exact Option.some_ne_none _
    · dsimp only
      split <;> exact Option.some_ne_none _
  · have hsucc : (floor + 1) * unit = floor * unit + unit := by ring
    rw [hinside (floor + 1) (hlow'.trans hceil) (by omega)]
    cases inside floor
    · exact Option.some_ne_none _
    · dsimp only
      split <;> exact Option.some_ne_none _

theorem ten_zpow_neg_mul_le {n : Nat} (h : i.denominator ≤ 10 ^ n * i.value) :
    (10 : ℚ) ^ (-(n : Int)) * i.denominator ≤ i.value := by
  rw [zpow_neg, zpow_natCast, inv_mul_le_iff₀ (by positivity)]
  exact_mod_cast h

theorem ten_pow_mul_le (hden : 0 < i.denominator) (h : i.denominator ≤ i.value) :
    (10 : ℚ) ^ (((Nat.toDigits 10 (i.value / i.denominator)).length : Int) - 1) * i.denominator ≤
      i.value := by
  have hpow := pow_length_toDigits_le (Nat.div_pos h hden)
  rw [Nat.le_div_iff_mul_le hden] at hpow
  have hlen : ((Nat.toDigits 10 (i.value / i.denominator)).length : Int) - 1 =
      ((Nat.toDigits 10 (i.value / i.denominator)).length - 1 : Nat) := by
    have := Nat.length_toDigits_pos (b := 10) (n := i.value / i.denominator)
    omega
  rw [hlen, zpow_natCast]
  exact_mod_cast hpow

/-- The value has all the digits in front of its magnitude. -/
theorem ten_zpow_magnitude_le (hden : 0 < i.denominator) (hvalue : 0 < i.value) :
    (10 : ℚ) ^ (i.magnitude - 1) * i.denominator ≤ i.value := by
  rw [magnitude]
  split
  · rename_i hle
    exact ten_pow_mul_le hden hle
  · rename_i hlt
    have hpow := lt_pow_length_toDigits (i.denominator / i.value)
    rw [Nat.div_lt_iff_lt_mul hvalue] at hpow
    generalize (Nat.toDigits 10 (i.denominator / i.value)).length = places at hpow
    dsimp only
    split
    · rename_i hshort
      have hplaces : places ≠ 0 := by
        rintro rfl
        omega
      rw [show 2 - (places : Int) - 1 = -((places - 1 : Nat) : Int) by omega]
      exact ten_zpow_neg_mul_le hshort
    · rw [show 1 - (places : Int) - 1 = -(places : Int) by omega]
      exact ten_zpow_neg_mul_le hpow.le

theorem low_lt_value (hm : 0 < m) : (ofDyadic m q).low < (ofDyadic m q).value := by
  have hbelow := below_pos m q
  exact Nat.mul_lt_mul_of_pos_right (show 4 * m - below m q < 4 * m by omega)
    (Nat.pow_pos (by norm_num))

theorem value_lt_high (m : Nat) (q : Int) : (ofDyadic m q).value < (ofDyadic m q).high :=
  Nat.mul_lt_mul_of_pos_right (by omega) (Nat.pow_pos (by norm_num))

/-- The interval of a double is wide for the sixteen digits of its value. -/
theorem value_lt_width (hlt : m < 2 ^ 53) : (ofDyadic m q).value <
    ((ofDyadic m q).high - (ofDyadic m q).low) * 10 ^ 16 := by
  have hwidth : ((ofDyadic m q).high - (ofDyadic m q).low) * 10 ^ 16 =
      (4 * m + 2 - (4 * m - below m q)) * 10 ^ 16 * Nat.pow 2 (q - 2).toNat := by
    rw [Nat.mul_right_comm]
    exact congrArg (· * 10 ^ 16) (Nat.sub_mul _ _ _).symm
  rw [hwidth]
  refine Nat.mul_lt_mul_of_pos_right ?_ (Nat.pow_pos (by norm_num))
  rw [below]
  split
  · rename_i hm
    have : m = 2 ^ 52 := hm.1
    omega
  · omega

theorem nearestOnGrid?_ofDyadic_ne_none (hm : 0 < m) (hlt : m < 2 ^ 53) :
    (ofDyadic m q).nearestOnGrid? ((ofDyadic m q).magnitude - (17 : Nat)) ≠ none := by
  set i := ofDyadic m q
  have hden : 0 < i.denominator := Nat.pow_pos (by norm_num)
  have hlow : i.low < i.value := low_lt_value hm
  have hhigh : i.value < i.high := value_lt_high m q
  have hwidth : i.value < (i.high - i.low) * 10 ^ 16 := value_lt_width hlt
  refine nearestOnGrid?_ne_none hden hlow hhigh ?_
  have hmagnitude := i.ten_zpow_magnitude_le hden (by omega)
  have hstep : (10 : ℚ) ^ (i.magnitude - (17 : Nat)) = 10 ^ (i.magnitude - 1) / 10 ^ 16 := by
    rw [eq_div_iff (by norm_num), ← zpow_natCast, ← zpow_add₀ (by norm_num)]
    congr 1
    push_cast
    ring
  have hcast : ((i.high - i.low : Nat) : ℚ) = i.high - i.low :=
    Nat.cast_sub (hlow.trans hhigh).le
  rw [hstep, div_mul_eq_mul_div, div_lt_iff₀ (by norm_num), ← hcast]
  exact hmagnitude.trans_lt (by exact_mod_cast hwidth)

end Interval

/-- The decimal that is chosen for a double rounds to it. -/
theorem Legal.roundsTo_shortest (h : Legal m q) : RoundsTo m q (shortest m q).value := by
  set i := Interval.ofDyadic m q with hi
  have hsome : ((List.range' 1 17).findSome? fun (n : Nat) =>
      i.nearestOnGrid? (i.magnitude - n)) ≠ none := by
    rw [ne_eq, List.findSome?_eq_none_iff]
    intro hall
    exact Interval.nearestOnGrid?_ofDyadic_ne_none h.pos h.lt_carry (hall 17 (by decide))
  obtain ⟨d, hd⟩ := Option.ne_none_iff_exists'.mp hsome
  obtain ⟨n, -, hn⟩ := List.exists_of_findSome?_eq_some hd
  have hshortest : shortest m q = d := by
    rw [shortest, ← hi, hd]
    rfl
  rw [hshortest]
  exact Interval.roundsTo_of_contains h.pos (Interval.contains_of_nearestOnGrid? hn)

end Dialogue.Decimal
