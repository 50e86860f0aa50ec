import Dialogue.Json.Reader
import Dialogue.Json.Writer
import Dialogue.Proofs.Decimal.Layout
import Dialogue.Proofs.Decimal.Literals

/-! Words, whole numbers and doubles are read back from what is written of them, every double to the
bit, if the text behind them does not go on with a number. -/

namespace Dialogue.Json

open Decimal (Numeral AreDigits EndsDigits digitsValue takeDigits_append)

/-! ## The parts of a number -/

def EndsNumber (text : List Char) : Prop :=
  ∀ c ∈ text.head?, c.isDigit = false ∧ c ≠ '.' ∧ c ≠ 'e' ∧ c ≠ 'E'

variable {n : Numeral} {rest : List Char}

theorem EndsNumber.endsDigits (h : EndsNumber rest) : EndsDigits rest :=
  fun c hc => (h c hc).1

theorem wholeOf_append {whole rest : List Char} (hne : whole ≠ []) (hdigits : AreDigits whole)
    (hhead : whole = ['0'] ∨ whole.head? ≠ some '0') (hrest : EndsDigits rest) :
    wholeOf (whole ++ rest) = some (digitsValue whole, whole.length, rest) := by
  rcases hhead with rfl | hhead
  · rfl
  · have htake := takeDigits_append hdigits hne hrest
    cases whole with
    | nil => exact absurd rfl hne
    | cons c whole =>
        have hc : c ≠ '0' := by simpa using hhead
        rw [List.cons_append] at htake ⊢
        simp [wholeOf, hc, htake]

theorem fractionOf_partText {rest : List Char} (hdigits : AreDigits n.part)
    (hdot : rest.head? ≠ some '.') (hrest : EndsDigits rest) :
    fractionOf (n.partText ++ rest) =
      if n.part = [] then none else some (digitsValue n.part, n.part.length, rest) := by
  rw [Numeral.partText]
  split
  · rw [List.nil_append]
    cases rest with
    | nil => rfl
    | cons c rest =>
        have hc : c ≠ '.' := by simpa using hdot
        simp [fractionOf, hc]
  · rename_i hne
    have htake := takeDigits_append hdigits hne hrest
    rw [List.cons_append, fractionOf, htake]
    cases hpart : n.part with
    | nil => exact absurd hpart hne
    | cons c part => simp

theorem exponentOf_exponentText (hdigits : ∀ e ∈ n.exponent, AreDigits e.2 ∧ e.2 ≠ [])
    (hrest : EndsNumber rest) :
    (exponentOf (n.exponentText ++ rest)).getD (0, 0, n.exponentText ++ rest) =
      (n.exponentValue, n.exponentText.length, rest) := by
  obtain ⟨whole, part, exponent⟩ := n
  cases exponent with
  | none =>
      have hnone : exponentOf rest = none := by
        cases rest with
        | nil => rfl
        | cons c rest =>
            obtain ⟨-, -, he, hE⟩ := hrest c rfl
            simp [exponentOf, he, hE]
      simp [Numeral.exponentText, Numeral.exponentValue, hnone]
  | some e =>
      obtain ⟨negative, digits⟩ := e
      obtain ⟨hdigits, hne⟩ := hdigits _ rfl
      have htake := takeDigits_append hdigits hne hrest.endsDigits
      have hlength : digits.length ≠ 0 := by simpa using hne
      cases negative <;>
        simp [Numeral.exponentText, Numeral.exponentValue, exponentOf, htake]
      all_goals omega

theorem endsDigits_exponentText (hrest : EndsNumber rest) :
    EndsDigits (n.exponentText ++ rest) := by
  obtain ⟨whole, part, exponent⟩ := n
  cases exponent with
  | none => exact hrest.endsDigits
  | some e =>
      rintro c ⟨⟩
      rfl

theorem head?_exponentText_ne (hrest : EndsNumber rest) :
    (n.exponentText ++ rest).head? ≠ some '.' := by
  obtain ⟨whole, part, exponent⟩ := n
  cases exponent with
  | none =>
      intro h
      exact (hrest '.' h).2.1 rfl
  | some e => simp [Numeral.exponentText]

theorem endsDigits_partText (hrest : EndsNumber rest) :
    EndsDigits (n.partText ++ (n.exponentText ++ rest)) := by
  rw [Numeral.partText]
  split
  · exact endsDigits_exponentText hrest
  · rintro c ⟨⟩
    rfl

/-- A numeral is read as the double that its value rounds to. -/
theorem magnitudeFrom_numeral (hn : n.IsFloat) (hrest : EndsNumber rest) (negative : Bool)
    (place : Nat) : magnitudeFrom negative place (n.text ++ rest) =
      some ⟨.float (if negative then -Decimal.scaled n.scientific.digits n.scientific.exponent
        else Decimal.scaled n.scientific.digits n.scientific.exponent),
        place + n.text.length, rest⟩ := by
  have hwhole := wholeOf_append hn.whole_ne hn.areDigits_whole hn.head_whole
    (endsDigits_partText (n := n) hrest)
  have hfraction := fractionOf_partText hn.areDigits_part (head?_exponentText_ne (n := n) hrest)
    (endsDigits_exponentText hrest)
  have hexponent := exponentOf_exponentText hn.areDigits_exponent hrest
  have hmarked : n.exponent ≠ none → n.exponentText.length ≠ 0 := by
    intro h
    obtain ⟨e, he⟩ := Option.ne_none_iff_exists'.mp h
    simp [Numeral.exponentText, he]
  rw [magnitudeFrom, Numeral.text, List.append_assoc, List.append_assoc, hwhole, Option.map_some]
  dsimp only
  rw [hfraction]
  by_cases hpart : n.part = []
  · have hmark : n.exponentText.length ≠ 0 := hmarked (hn.marked.resolve_left fun h => h hpart)
    have hpartText : n.partText = [] := if_pos hpart
    simp only [hpart, hpartText, if_true, List.nil_append, hexponent]
    simp [Numeral.scientific, Numeral.digits, hpart, digitsValue, hmark, Nat.add_assoc]
  · have hpartText : n.partText = '.' :: n.part := if_neg hpart
    simp only [hpart, hpartText, if_false, hexponent]
    simp [Numeral.scientific, Numeral.digits, Nat.add_assoc]
    omega

/-! ## Words and numbers -/

theorem find?_words_of_isDigit {c : Char} (hc : c.isDigit = true) (text : List Char) :
    (words.find? fun w => w.1.isPrefixOf (c :: text)) = none := by
  have hne : ∀ d : Char, d.isDigit = false → (d == c) = false := by
    intro d hd
    rw [beq_eq_false_iff_ne]
    rintro rfl
    simp [hc] at hd
  simp [words, List.isPrefixOf, hne]

theorem find?_words_of_minus {c : Char} (hc : c.isDigit = true) (text : List Char) :
    (words.find? fun w => w.1.isPrefixOf ('-' :: c :: text)) = none := by
  have hne : ('I' == c) = false := by
    rw [beq_eq_false_iff_ne]
    rintro rfl
    cases hc
  simp [words, List.isPrefixOf, hne]

theorem scalarFrom_of_isDigit {c : Char} (hc : c.isDigit = true) (place : Nat) (text : List Char) :
    scalarFrom place (c :: text) = magnitudeFrom false place (c :: text) := by
  rw [scalarFrom, find?_words_of_isDigit hc]
  have : c ≠ '-' := by
    rintro rfl
    cases hc
  simp [this]

theorem scalarFrom_of_minus {c : Char} (hc : c.isDigit = true) (place : Nat) (text : List Char) :
    scalarFrom place ('-' :: c :: text) = magnitudeFrom true (place + 1) (c :: text) := by
  rw [scalarFrom, find?_words_of_minus hc]

theorem scalarFrom_numeral (hn : n.IsFloat) (hrest : EndsNumber rest) (negative : Bool)
    (place : Nat) : scalarFrom place ((if negative then '-' :: n.text else n.text) ++ rest) =
      some ⟨.float (if negative then -Decimal.scaled n.scientific.digits n.scientific.exponent
        else Decimal.scaled n.scientific.digits n.scientific.exponent),
        place + (if negative then '-' :: n.text else n.text).length, rest⟩ := by
  have hread := magnitudeFrom_numeral hn hrest negative
  obtain ⟨c, whole, hwhole⟩ := List.exists_cons_of_ne_nil hn.whole_ne
  have hc : c.isDigit = true := hn.areDigits_whole c (by simp [hwhole])
  have htext : n.text = c :: (whole ++ (n.partText ++ n.exponentText)) := by
    rw [Numeral.text, hwhole]
    rfl
  rw [htext] at hread ⊢
  cases negative
  · exact (scalarFrom_of_isDigit hc place _).trans (hread place)
  · refine (scalarFrom_of_minus hc place _).trans ((hread (place + 1)).trans ?_)
    simp [Nat.add_assoc, Nat.add_comm 1]

theorem eq_of_notANumber {x : Float} (h : Decimal.Dyadic.ofFloat x = .notANumber) : x = 0.0 / 0.0 :=
  Decimal.Dyadic.ofFloat_injective (h.trans (by decide +kernel))

theorem eq_of_infinite {x : Float} {negative : Bool}
    (h : Decimal.Dyadic.ofFloat x = .infinite negative) :
    x = if negative then -1.0 / 0.0 else 1.0 / 0.0 := by
  refine Decimal.Dyadic.ofFloat_injective (h.trans ?_)
  cases negative <;> decide +kernel

theorem eq_of_zero {x : Float} {negative : Bool} {q : Int}
    (h : Decimal.Dyadic.ofFloat x = .finite negative 0 q) :
    x = if negative then -0.0 else 0.0 := by
  rw [Decimal.exponent_of_zero h] at h
  refine Decimal.Dyadic.ofFloat_injective (h.trans ?_)
  cases negative <;> decide +kernel

/-- The text of a finite double is a numeral, with its sign, that is read as the double. -/
theorem exists_render {x : Float} {negative : Bool} {m : Nat} {q : Int}
    (hx : Decimal.Dyadic.ofFloat x = .finite negative m q) : ∃ n : Numeral, n.IsFloat ∧
      numberText.render x = (if negative then '-' :: n.text else n.text) ∧
      (if negative then -Decimal.scaled n.scientific.digits n.scientific.exponent
        else Decimal.scaled n.scientific.digits n.scientific.exponent) = x := by
  rw [Decimal.FloatLayout.render, hx]
  dsimp only
  by_cases hm : m = 0
  · rw [if_pos hm]
    rw [hm] at hx
    refine ⟨⟨['0'], ['0'], none⟩, ?_, rfl, ?_⟩
    · exact ⟨by simp, by simp [AreDigits], .inl rfl, by simp [AreDigits], by simp, .inl (by simp)⟩
    · rw [eq_of_zero hx]
      cases negative <;> rfl
  · rw [if_neg hm]
    have hlegal := Decimal.legal_of_ofFloat hx (Nat.pos_of_ne_zero hm)
    have hrounds := hlegal.roundsTo_shortest
    have hdigits : 0 < (Decimal.shortest m q).digits := by
      have := hlegal.pos_of_roundsTo hrounds
      by_contra hzero
      rw [Decimal.Scientific.value, Nat.eq_zero_of_not_pos hzero] at this
      simp at this
    obtain ⟨n, hn, htext, hvalue⟩ := numberText.exists_numeral hdigits
    rw [← hvalue] at hrounds
    refine ⟨n, hn, by rw [htext], ?_⟩
    rw [hlegal.scaled_eq hrounds, hlegal.eq_double hx]
    cases negative
    · rfl
    · exact hlegal.neg_double

/-- What is written of a double is read as the double. -/
theorem scalarFrom_render (x : Float) (hrest : EndsNumber rest) (place : Nat) :
    scalarFrom place (numberText.render x ++ rest) =
      some ⟨.float x, place + (numberText.render x).length, rest⟩ := by
  cases hx : Decimal.Dyadic.ofFloat x with
  | notANumber =>
      rw [Decimal.FloatLayout.render, hx, eq_of_notANumber hx]
      rfl
  | infinite negative =>
      rw [Decimal.FloatLayout.render, hx, eq_of_infinite hx]
      cases negative <;> rfl
  | finite negative m q =>
      obtain ⟨n, hn, htext, hvalue⟩ := exists_render hx
      rw [htext, scalarFrom_numeral hn hrest, hvalue]

/-! ## Whole numbers -/

theorem EndsNumber.fractionOf_eq (h : EndsNumber rest) : fractionOf rest = none := by
  cases rest with
  | nil => rfl
  | cons c rest =>
      obtain ⟨-, hc, -⟩ := h c rfl
      simp [fractionOf, hc]

theorem EndsNumber.exponentOf_eq (h : EndsNumber rest) : exponentOf rest = none := by
  cases rest with
  | nil => rfl
  | cons c rest =>
      obtain ⟨-, -, he, hE⟩ := h c rfl
      simp [exponentOf, he, hE]

theorem magnitudeFrom_toDigits (n : Nat) (hrest : EndsNumber rest) (negative : Bool) (place : Nat) :
    magnitudeFrom negative place (Nat.toDigits 10 n ++ rest) =
      some ⟨.int (if negative then -(n : Int) else n),
        place + (Nat.toDigits 10 n).length, rest⟩ := by
  have hhead : Nat.toDigits 10 n = ['0'] ∨ (Nat.toDigits 10 n).head? ≠ some '0' := by
    obtain rfl | hn := Nat.eq_zero_or_pos n
    · exact .inl rfl
    · exact .inr (Decimal.head?_toDigits_ne hn)
  have hwhole := wholeOf_append Nat.toDigits_ne_nil (Decimal.areDigits_toDigits n) hhead
    hrest.endsDigits
  rw [magnitudeFrom, hwhole, Option.map_some, Decimal.digitsValue_toDigits]
  dsimp only
  rw [hrest.fractionOf_eq, hrest.exponentOf_eq]
  rfl

theorem scalarFrom_toString (n : Int) (hrest : EndsNumber rest) (place : Nat) :
    scalarFrom place ((toString n).toList ++ rest) =
      some ⟨.int n, place + (toString n).toList.length, rest⟩ := by
  have hdigit : ∀ m : Nat, ∃ c t, Nat.toDigits 10 m = c :: t ∧ c.isDigit = true := by
    intro m
    obtain ⟨c, t, hct⟩ := List.exists_cons_of_ne_nil (Nat.toDigits_ne_nil (n := m) (b := 10))
    exact ⟨c, t, hct, Decimal.areDigits_toDigits m c (by simp [hct])⟩
  cases n with
  | ofNat m =>
      have htext : (toString (Int.ofNat m)).toList = Nat.toDigits 10 m := by
        rw [Int.toString_eq_repr, Int.repr_eq_if]
        simp
      have hread := magnitudeFrom_toDigits m hrest false place
      obtain ⟨c, t, hct, hc⟩ := hdigit m
      rw [htext]
      rw [hct] at hread ⊢
      exact (scalarFrom_of_isDigit hc place _).trans hread
  | negSucc m =>
      have htext : (toString (Int.negSucc m)).toList = '-' :: Nat.toDigits 10 (m + 1) := by
        rw [Int.toString_eq_repr, Int.repr_eq_if]
        simp
      have hread := magnitudeFrom_toDigits (m + 1) hrest true (place + 1)
      obtain ⟨c, t, hct, hc⟩ := hdigit (m + 1)
      rw [htext]
      rw [hct] at hread ⊢
      refine (scalarFrom_of_minus hc place _).trans (hread.trans ?_)
      simp [Int.negSucc_eq, Nat.add_assoc, Nat.add_comm 1]

/-! ## Scalars other than texts -/

theorem scalarFrom_bareText {s : Scalar} {text : List Char} (h : bareText? s = some text)
    (hrest : EndsNumber rest) (place : Nat) :
    scalarFrom place (text ++ rest) = some ⟨s, place + text.length, rest⟩ := by
  cases s with
  | null =>
      cases h
      rfl
  | bool b =>
      cases h
      cases b <;> rfl
  | int n =>
      cases h
      exact scalarFrom_toString n hrest place
  | float x =>
      cases h
      exact scalarFrom_render x hrest place
  | text | bytes | asset => cases h

def BeginsScalar (c : Char) : Prop :=
  c.isDigit = true ∨ c ∈ ['-', 'n', 't', 'f', 'N', 'I']

instance (c : Char) : Decidable (BeginsScalar c) :=
  inferInstanceAs (Decidable (_ ∨ _))

theorem BeginsScalar.ne {c d : Char} (hc : BeginsScalar c) (hd : ¬ BeginsScalar d) : c ≠ d := by
  rintro rfl
  exact hd hc

theorem beginsScalar_of_scalarFrom {c : Char} {t : List Char} {r : Read Scalar}
    (h : scalarFrom place (c :: t) = some r) : BeginsScalar c := by
  by_contra hc
  obtain ⟨hdigit, hmem⟩ := not_or.mp hc
  simp only [List.mem_cons, not_or] at hmem
  obtain ⟨hminus, hn, ht, hf, hN, hI, -⟩ := hmem
  have hwords : (words.find? fun w => w.1.isPrefixOf (c :: t)) = none := by
    simp [words, List.isPrefixOf, Ne.symm hminus, Ne.symm hn, Ne.symm ht, Ne.symm hf, Ne.symm hN,
      Ne.symm hI]
  have hzero : c ≠ '0' := by
    rintro rfl
    exact hdigit rfl
  have hnumber : scalarFrom place (c :: t) = magnitudeFrom false place (c :: t) := by
    rw [scalarFrom, hwords]
    simp [hminus]
  rw [hnumber, magnitudeFrom, wholeOf, Decimal.takeDigits, if_neg hdigit] at h
  · cases h
  · simpa using hzero

end Dialogue.Json
