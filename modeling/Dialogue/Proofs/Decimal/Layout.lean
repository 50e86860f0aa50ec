import Dialogue.Proofs.Decimal.Digits
import Dialogue.Proofs.Decimal.Shortest
import Mathlib.Data.List.TakeWhile
import Mathlib.Tactic.Ring
import Mathlib.Tactic.FieldSimp

/-! However the digits of a decimal are laid out, with the point in front, between or behind them or
with an exponent, the text is a numeral of the same value. -/

namespace Dialogue.Decimal

/-- A numeral with a point or an exponent: digits, digits behind the point, and an exponent with its
sign. -/
structure Numeral where
  whole : List Char
  part : List Char := []
  exponent : Option (Bool × List Char) := none

namespace Numeral

variable (n : Numeral)

def partText : List Char :=
  if n.part = [] then [] else '.' :: n.part

def exponentText : List Char :=
  match n.exponent with
  | none => []
  | some (negative, digits) => 'e' :: (if negative then '-' else '+') :: digits

def text : List Char :=
  n.whole ++ (n.partText ++ n.exponentText)

def digits : Nat :=
  digitsValue n.whole * 10 ^ n.part.length + digitsValue n.part

def exponentValue : Int :=
  match n.exponent with
  | none => 0
  | some (negative, digits) => if negative then -(digitsValue digits : Int) else digitsValue digits

def scientific : Scientific :=
  ⟨n.digits, n.exponentValue - n.part.length⟩

/-- The numerals that stand for doubles and not for whole numbers. -/
structure IsFloat : Prop where
  whole_ne : n.whole ≠ []
  areDigits_whole : AreDigits n.whole
  head_whole : n.whole = ['0'] ∨ n.whole.head? ≠ some '0'
  areDigits_part : AreDigits n.part
  areDigits_exponent : ∀ e ∈ n.exponent, AreDigits e.2 ∧ e.2 ≠ []
  marked : n.part ≠ [] ∨ n.exponent ≠ none

end Numeral

/-! ## The digits of a decimal -/

theorem exists_reverse_dropWhile (text : List Char) :
    ∃ n, text = (text.reverse.dropWhile (· == '0')).reverse ++ zeros n := by
  refine ⟨(text.reverse.takeWhile (· == '0')).length, ?_⟩
  have htake : text.reverse.takeWhile (· == '0') =
      List.replicate (text.reverse.takeWhile (· == '0')).length '0' := by
    rw [List.eq_replicate_iff]
    exact ⟨rfl, fun c hc => by simpa using List.mem_takeWhile_imp hc⟩
  rw [zeros, ← List.reverse_inj, List.reverse_append, List.reverse_reverse, List.reverse_replicate,
    ← htake, List.takeWhile_append_dropWhile]

/-- The digits that are kept, with the place of the point. -/
structure Placed (d : Scientific) (digits : List Char) (place : Int) : Prop where
  areDigits : AreDigits digits
  ne : digits ≠ []
  head : digits.head? ≠ some '0'
  value : d.value = digitsValue digits * (10 : ℚ) ^ (place - digits.length)

theorem placed_spec {d : Scientific} (hd : 0 < d.digits) : Placed d d.placed.1 d.placed.2 := by
  obtain ⟨k, hk⟩ := exists_reverse_dropWhile (Nat.toDigits 10 d.digits)
  set digits := Nat.toDigits 10 d.digits with hdigits
  set kept := (digits.reverse.dropWhile (· == '0')).reverse with hkept
  have hplaced : d.placed = (kept, (digits.length : Int) + d.exponent) := rfl
  have hall := areDigits_toDigits d.digits
  have hvalue := digitsValue_toDigits d.digits
  have hhead := head?_toDigits_ne hd
  rw [← hdigits, hk] at hall hvalue hhead
  rw [zeros] at hall hvalue hhead
  rw [digitsValue_append, digitsValue_replicate, Nat.add_zero, List.length_replicate] at hvalue
  have hne : kept ≠ [] := by
    intro hnil
    rw [hnil] at hvalue
    simp [digitsValue] at hvalue
    omega
  rw [hplaced]
  refine ⟨(areDigits_append.mp hall).1, hne, ?_, ?_⟩
  · rwa [List.head?_append, Option.or_of_isSome (by simpa using hne)] at hhead
  · have hlength : digits.length = kept.length + k := by
      rw [hk, List.length_append, zeros, List.length_replicate]
    rw [Scientific.value, ← hvalue, hlength]
    have hexponent : ((kept.length + k : Nat) : Int) + d.exponent - kept.length =
      k + d.exponent := by
      push_cast
      ring
    rw [hexponent, zpow_add₀ (by norm_num), zpow_natCast]
    push_cast
    ring

/-! ## The layouts -/

theorem areDigits_zeros (n : Nat) : AreDigits (zeros n) :=
  areDigits_replicate n

theorem digitsValue_zeros (n : Nat) : digitsValue (zeros n) = 0 :=
  digitsValue_replicate n

theorem length_zeros (n : Nat) : (zeros n).length = n :=
  List.length_replicate

/-- A way to write the decimals with the digits `digits` and the point at `place`. -/
def Writes (n : Numeral) (digits : List Char) (place : Int) : Prop :=
  n.IsFloat ∧ n.scientific.value = digitsValue digits * (10 : ℚ) ^ (place - digits.length)

variable {digits : List Char} {place : Int}

theorem writes_fraction (hdigits : AreDigits digits) (hne : digits ≠ []) (hplace : place ≤ 0) :
    Writes ⟨['0'], zeros (-place).toNat ++ digits, none⟩ digits place := by
  refine ⟨⟨by simp, areDigits_zeros 1, .inl rfl, ?_, by simp,
    .inl (by simpa using fun _ => hne)⟩, ?_⟩
  · exact areDigits_append.mpr ⟨areDigits_zeros _, hdigits⟩
  · have hexponent : (0 : Int) - ((-place).toNat + digits.length : Nat) =
      place - digits.length := by
      omega
    simp only [Scientific.value, Numeral.scientific, Numeral.digits, Numeral.exponentValue,
      List.length_append, length_zeros, digitsValue_append, digitsValue_zeros, hexponent]
    simp [show digitsValue ['0'] = 0 from rfl]

theorem writes_whole (hdigits : AreDigits digits) (hne : digits ≠ [])
    (hhead : digits.head? ≠ some '0') {k : Nat} (hplace : place = digits.length + k) :
    Writes ⟨digits ++ zeros k, ['0'], none⟩ digits place := by
  refine ⟨⟨by simp [hne], ?_, .inr ?_, areDigits_zeros 1, by simp, .inl (by simp)⟩, ?_⟩
  · exact areDigits_append.mpr ⟨hdigits, areDigits_zeros _⟩
  · rwa [List.head?_append, Option.or_of_isSome (by simpa using hne)]
  · have hexponent : place - digits.length = k := by omega
    simp only [Scientific.value, Numeral.scientific, Numeral.digits, Numeral.exponentValue,
      digitsValue_append, digitsValue_zeros, length_zeros, hexponent]
    norm_num [show digitsValue ['0'] = 0 from rfl]
    field_simp

theorem writes_split (hdigits : AreDigits digits) (hhead : digits.head? ≠ some '0') {k : Nat}
    (hpos : 0 < k) (hlt : k < digits.length) :
    Writes ⟨digits.take k, digits.drop k, none⟩ digits k := by
  have hsplit := List.take_append_drop k digits
  have hboth := areDigits_append.mp (hsplit.symm ▸ hdigits)
  have hne : digits.take k ≠ [] := by
    rw [ne_eq, List.take_eq_nil_iff, ← List.length_eq_zero_iff]
    omega
  refine ⟨⟨hne, hboth.1, .inr ?_, hboth.2, by simp, .inl ?_⟩, ?_⟩
  · rw [← hsplit, List.head?_append, Option.or_of_isSome (by simpa using hne)] at hhead
    exact hhead
  · simp only [ne_eq, List.drop_eq_nil_iff]
    omega
  · have hvalue : digitsValue digits = digitsValue (digits.take k) * 10 ^ (digits.drop k).length +
        digitsValue (digits.drop k) := by
      rw [← digitsValue_append, hsplit]
    have hexponent : (0 : Int) - (digits.drop k).length = k - digits.length := by
      rw [List.length_drop]
      omega
    simp only [Scientific.value, Numeral.scientific, Numeral.digits, Numeral.exponentValue,
      hexponent,
      ← hvalue]

/-- The sign and the digits of an exponent. -/
def exponentOfPlace (layout : FloatLayout) (e : Int) : Bool × List Char :=
  (decide (e < 0), zeros (layout.exponentDigits - (Nat.toDigits 10 e.natAbs).length)
    ++ Nat.toDigits 10 e.natAbs)

theorem exponentValue_exponentOfPlace (layout : FloatLayout) (e : Int) (whole part : List Char) :
    (Numeral.mk whole part (some (exponentOfPlace layout e))).exponentValue = e := by
  simp only [Numeral.exponentValue, exponentOfPlace, digitsValue_append, digitsValue_zeros,
    digitsValue_toDigits]
  by_cases he : e < 0
  · simp only [he, decide_true, if_true]
    omega
  · simp only [he, decide_false, Bool.false_eq_true, if_false]
    omega

/-- One digit in front of the point, and an exponent. -/
theorem writes_exponent (layout : FloatLayout) {first : Char} {rest : List Char}
    (hdigits : AreDigits (first :: rest)) (hhead : first ≠ '0') :
    Writes ⟨[first], rest, some (exponentOfPlace layout (place - 1))⟩ (first :: rest) place := by
  have hboth := areDigits_append.mp (show AreDigits ([first] ++ rest) from hdigits)
  refine ⟨⟨by simp, hboth.1, .inr (by simpa using hhead), hboth.2, ?_, .inr (by simp)⟩, ?_⟩
  · rintro e ⟨⟩
    exact ⟨areDigits_append.mpr ⟨areDigits_zeros _, areDigits_toDigits _⟩,
      List.append_ne_nil_of_right_ne_nil _ Nat.toDigits_ne_nil⟩
  · have hvalue : digitsValue (first :: rest) =
        digitsValue [first] * 10 ^ rest.length + digitsValue rest :=
      digitsValue_append [first] rest
    have hexponent : place - 1 - rest.length = place - ((first :: rest).length : Nat) := by
      rw [List.length_cons]
      omega
    rw [hvalue, ← hexponent]
    simp only [Scientific.value, Numeral.scientific, Numeral.digits,
      exponentValue_exponentOfPlace]

/-- The text of a decimal is a numeral of its value. -/
theorem FloatLayout.exists_numeral (layout : FloatLayout) {d : Scientific} (hd : 0 < d.digits) :
    ∃ n : Numeral, n.IsFloat ∧ layout.digits d = n.text ∧ n.scientific.value = d.value := by
  obtain ⟨digits, place, hplaced⟩ : ∃ digits place, d.placed = (digits, place) := ⟨_, _, rfl⟩
  have hspec := placed_spec hd
  rw [hplaced] at hspec
  obtain ⟨hdigits, hne, hhead, hvalue⟩ := hspec
  rw [FloatLayout.digits, hplaced, hvalue]
  dsimp only at hdigits hne hhead ⊢
  split
  · split
    · obtain ⟨hfloat, hn⟩ := writes_fraction hdigits hne ‹_›
      exact ⟨_, hfloat, by simp [Numeral.text, Numeral.partText, Numeral.exponentText, hne], hn⟩
    · split
      · obtain ⟨hfloat, hn⟩ : Writes _ digits place :=
          writes_whole (k := place.toNat - digits.length) hdigits hne hhead (by omega)
        exact ⟨_, hfloat, by simp [Numeral.text, Numeral.partText, Numeral.exponentText], hn⟩
      · obtain ⟨hfloat, hn⟩ := writes_split (k := place.toNat) hdigits hhead (by omega) (by omega)
        rw [Int.toNat_of_nonneg (by omega)] at hn
        have hdrop : digits.drop place.toNat ≠ [] := by
          rw [ne_eq, List.drop_eq_nil_iff]
          omega
        exact ⟨_, hfloat, by simp [Numeral.text, Numeral.partText, Numeral.exponentText, hdrop], hn⟩
  · cases digits with
    | nil => exact absurd rfl hne
    | cons first rest =>
        obtain ⟨hfloat, hn⟩ : Writes _ (first :: rest) place :=
          writes_exponent layout hdigits (by simpa using hhead)
        refine ⟨_, hfloat, ?_, hn⟩
        cases rest <;> simp [Numeral.text, Numeral.partText, Numeral.exponentText, exponentOfPlace,
          FloatLayout.exponent]

end Dialogue.Decimal
