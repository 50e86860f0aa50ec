import Dialogue.Proofs.Decimal.Digits
import Dialogue.Proofs.Text.Hexadecimal
import Dialogue.Proofs.Yaml.RoundTrip
import Mathlib.Data.List.TakeDrop
import Mathlib.Data.List.TakeWhile

/-! The digits of a number stand without quotes, and are read as the number. -/

namespace Dialogue.Yaml

open Decimal (AreDigits areDigits_toDigits)

/-! ## Digits -/

theorem mem_digits {c : Char} (h : c.isDigit = true) : c ∈ "0123456789".toList := by
  have hrange : 48 ≤ c.toNat ∧ c.toNat ≤ 57 := by
    simpa [Char.isDigit, UInt32.le_iff_toNat_le] using h
  have hdigits : ∀ n < 58, 48 ≤ n → Char.ofNat n ∈ "0123456789".toList := by decide
  have hmem := hdigits c.toNat (Nat.lt_succ_of_le hrange.2) hrange.1
  rwa [Char.ofNat_toNat] at hmem

section Digits

variable {ds : List Char} (h : AreDigits ds)

include h

/-- What holds of ten digits holds of every digit. -/
theorem forall_digits {P : Char → Prop} [DecidablePred P]
    (hP : ("0123456789".toList.all fun c => P c) = true) : ∀ c ∈ ds, P c :=
  fun c hc => of_decide_eq_true (List.all_eq_true.mp hP c (mem_digits (h c hc)))

/-- Digits are none of some words that are not all digits. -/
theorem any_words_digits (words : List String)
    (hwords : (words.all fun word => word.toList.any fun c => !c.isDigit) = true) :
    (words.any fun word => ds == word.toList) = false := by
  rw [List.any_eq_false]
  rintro word hword heq
  obtain ⟨c, hc, hdigit⟩ := List.any_eq_true.mp (List.all_eq_true.mp hwords word hword)
  rw [← eq_of_beq heq] at hc
  simp [h c hc] at hdigit

theorem dropSign_digits : Spelling.dropSign ds = ds := by
  cases ds with
  | nil => rfl
  | cons c ds =>
      have hc := forall_digits h (P := fun c => (c == '-' || c == '+') = false) (by decide) c
        List.mem_cons_self
      rw [Spelling.dropSign, if_neg (by simp [hc])]

theorem atPoint_digits : Spelling.atPoint ds = none := by
  have hspan : ds.span (· != '.') = (ds, []) := by
    have hall := forall_digits h (P := fun c => (c != '.') = true) (by decide)
    rw [List.span_eq_takeWhile_dropWhile, List.takeWhile_eq_self_iff.mpr hall,
      List.dropWhile_eq_nil_iff.mpr hall]
  rw [Spelling.atPoint, hspan]

theorem isFloat_digits : Spelling.isFloat ds = false := by
  have hwords := any_words_digits h [".inf", ".Inf", ".INF"] (by decide)
  have hothers := any_words_digits h [".nan", ".NaN", ".NAN"] (by decide)
  rw [Spelling.isFloat, Spelling.isFloatWord, dropSign_digits h, hwords, hothers, atPoint_digits h]
  rfl

theorem dropLastFeed_digits : Tag.dropLastFeed ds = ds := by
  have hlast : ds.getLast? ≠ some '\n' := fun hlast =>
    forall_digits h (P := fun c => c ≠ '\n') (by decide) '\n' (List.mem_of_getLast? hlast) rfl
  rw [Tag.dropLastFeed, if_neg (by simpa using fun _ => hlast)]

theorem isNumeral_digits (hne : ds ≠ []) : Spelling.isNumeral ds = true := by
  obtain ⟨c, ds, rfl⟩ := List.exists_cons_of_ne_nil hne
  have hrest := forall_digits h (P := fun c => Spelling.isDigitOrLine c = true) (by decide)
  rw [Spelling.isNumeral, h c List.mem_cons_self, Bool.true_and, List.all_eq_true]
  exact fun d hd => hrest d (List.mem_cons_of_mem c hd)

theorem isInt_digits (hne : ds ≠ []) (hhead : ds = ['0'] ∨ ds.head? ≠ some '0') :
    Spelling.isInt ds = true := by
  rw [Spelling.isInt, dropSign_digits h]
  rcases hhead with rfl | hhead
  · rfl
  · split
    case h_5 => rw [isNumeral_digits h hne, Bool.true_or]
    all_goals exact absurd rfl hhead

theorem ofPlain_digits (hne : ds ≠ []) (hhead : ds = ['0'] ∨ ds.head? ≠ some '0') :
    Tag.ofPlain ds = .int := by
  rw [Tag.ofPlain, dropLastFeed_digits h, Spelling.isTruthWord, any_words_digits h _ (by decide),
    isFloat_digits h, isInt_digits h hne hhead]
  rfl

omit h in
/-- No pair begins with a character of a class that no character is of. -/
theorem hasPair_eq_false {p q : Char → Bool} (hp : ∀ c ∈ ds, p c = false) :
    Style.hasPair p q ds = false := by
  induction ds with
  | nil => rfl
  | cons a ds ih =>
      cases ds with
      | nil => rfl
      | cons b ds =>
          rw [Style.hasPair, hp a List.mem_cons_self, Bool.false_and, Bool.false_or]
          exact ih fun c hc => hp c (List.mem_cons_of_mem a hc)

theorem any_digits {p : Char → Bool} (hp : ("0123456789".toList.all fun c => p c = false) = true) :
    ds.any p = false :=
  List.any_eq_false.mpr fun c hc => by simp [forall_digits h hp c hc]

theorem beginsWithMark_digits (hne : ds ≠ []) : Style.beginsWithMark ds = false := by
  obtain ⟨c, rest, rfl⟩ := List.exists_cons_of_ne_nil hne
  have hc := forall_digits h (P := fun c => c ≠ '-' ∧ c ≠ '.' ∧
    Style.leadingMarks.contains c = false ∧ ['?', ':', '-'].contains c = false) (by decide) c
    List.mem_cons_self
  obtain ⟨hdash, hdot, hlead, hmark⟩ := hc
  have hdashes : ['-', '-', '-'].isPrefixOf (c :: rest) = false := by
    simp [List.isPrefixOf, Ne.symm hdash]
  have hdots : ['.', '.', '.'].isPrefixOf (c :: rest) = false := by
    simp [List.isPrefixOf, Ne.symm hdot]
  rw [Style.beginsWithMark, hdashes, hdots]
  simp only [hlead, hmark, Bool.false_or, Bool.false_and]

theorem allowsPlain_digits (hne : ds ≠ []) : Style.allowsPlain ds = true := by
  have hspecial := any_digits h (p := Style.isSpecial) (by decide)
  have hbreak := any_digits h (p := Page.isWrittenBreak) (by decide)
  have hspace := forall_digits h (P := fun c => Style.isSpaceOrBreak c = false) (by decide)
  have hhead : ds.head?.any Style.isSpaceOrBreak = false := by
    cases hc : ds.head? with
    | none => rfl
    | some c => exact hspace c (List.mem_of_head? hc)
  have hlast : ds.getLast?.any Style.isSpaceOrBreak = false := by
    cases hc : ds.getLast? with
    | none => rfl
    | some c => exact hspace c (List.mem_of_getLast? hc)
  have hcolon : ds.getLast? ≠ some ':' := fun hlast =>
    forall_digits h (P := fun c => c ≠ ':') (by decide) ':' (List.mem_of_getLast? hlast) rfl
  have hsingle : Style.allowsSingleQuotes ds = true := by
    rw [Style.allowsSingleQuotes, hspecial, hasPair_eq_false (forall_digits h (by decide)),
      hasPair_eq_false (forall_digits h (by decide))]
    rfl
  have hmark : Style.hasMark ds = false := by
    rw [Style.hasMark, hasPair_eq_false (forall_digits h (by decide)),
      hasPair_eq_false (forall_digits h (by decide))]
    simpa using hcolon
  rw [Style.allowsPlain, hsingle, hbreak, hhead, hlast, beginsWithMark_digits h hne, hmark]
  rfl

end Digits

/-! ## Numbers -/

theorem toString_natCast (n : Nat) : (toString (n : Int)).toList = Nat.toDigits 10 n := by
  rw [Int.toString_eq_repr, Int.repr_eq_if]
  simp

theorem hexValue?_of_isDigit {c : Char} (h : c.isDigit = true) :
    Text.hexValue? c = some (c.toNat - 48) ∧ c.toNat - 48 < 10 := by
  have hall : AreDigits [c] := List.forall_mem_singleton.mpr h
  exact forall_digits hall (P := fun c => Text.hexValue? c = some (c.toNat - 48) ∧
    c.toNat - 48 < 10)
    (by decide) c List.mem_cons_self

/-- A step that puts a digit behind a number reads digits as the number that they spell. -/
theorem foldlM_digits {step : Nat → Char → Option Nat} {ds : List Char} (h : AreDigits ds)
    (hstep : ∀ n c, c.isDigit = true → step n c = some (10 * n + (c.toNat - 48))) (start : Nat) :
    ds.foldlM step start = some (Nat.ofDigitChars 10 ds start) := by
  induction ds generalizing start with
  | nil => rfl
  | cons c ds ih =>
      rw [List.foldlM_cons, hstep start c (h c List.mem_cons_self), Nat.ofDigitChars_cons]
      exact ih (fun d hd => h d (List.mem_cons_of_mem c hd)) _

theorem digitsOf?_toDigits (n : Nat) : Decimal.digitsOf? 10 (Nat.toDigits 10 n) = some n := by
  rw [Decimal.digitsOf?, if_neg (by simp), foldlM_digits (areDigits_toDigits n)]
  · exact congrArg some (Decimal.digitsValue_toDigits n)
  · intro n c hc
    obtain ⟨hvalue, hlt⟩ := hexValue?_of_isDigit hc
    simp only [hvalue, if_pos hlt]

theorem naturalOf?_toDigits (n : Nat) : Decimal.naturalOf? 10 (Nat.toDigits 10 n) = some n := by
  have hdigits := digitsOf?_toDigits n
  unfold Decimal.naturalOf?
  split
  · next letter digits htext =>
      rw [← htext, if_neg (by simp [Decimal.baseLetters]), hdigits]
  · exact hdigits

theorem asciiForm_digits {ds : List Char} (h : AreDigits ds) : Decimal.asciiForm ds = ds := by
  have hascii := forall_digits h (P := fun c => c.toNat < 127) (by decide)
  exact (List.map_congr_left fun c hc => if_pos (hascii c hc)).trans (List.map_id _)

theorem stripBy_eq_self {p : Char → Bool} {text : List Char} (h : ∀ c ∈ text, p c = false) :
    Text.stripBy p text = text := by
  have hkeep : ∀ cs : List Char, (∀ c ∈ cs, p c = false) → cs.dropWhile p = cs := by
    intro cs hcs
    cases cs with
    | nil => rfl
    | cons c cs => rw [List.dropWhile_cons, if_neg (by simp [hcs c List.mem_cons_self])]
  rw [Text.stripBy, hkeep text h, hkeep text.reverse fun c hc => h c (List.mem_reverse.mp hc),
    List.reverse_reverse]

theorem integer_toDigits (n : Nat) : Scalar.integer 10 (Nat.toDigits 10 n) = .ok n := by
  have hdigits := areDigits_toDigits n
  have hinteger : Decimal.integerOf? 10 (Nat.toDigits 10 n) = some (n : Int) := by
    rw [Decimal.integerOf?, asciiForm_digits hdigits,
      stripBy_eq_self (forall_digits hdigits (by decide))]
    split
    · next rest htext =>
        exact absurd (hdigits '-' (htext ▸ List.mem_cons_self)) (by decide)
    · next rest htext =>
        exact absurd (hdigits '+' (htext ▸ List.mem_cons_self)) (by decide)
    · rw [naturalOf?_toDigits]
      rfl
  rw [Scalar.integer, hinteger]

theorem takeSign_digits {ds : List Char} (h : AreDigits ds) (hne : ds ≠ []) :
    Scalar.takeSign ds = .ok (false, ds) := by
  unfold Scalar.takeSign
  split
  · exact absurd (h '-' List.mem_cons_self) (by decide)
  · exact absurd (h '+' List.mem_cons_self) (by decide)
  · rfl
  · exact absurd rfl hne

theorem magnitude_toDigits (n : Nat) : Scalar.magnitude (Nat.toDigits 10 n) = .ok n := by
  obtain rfl | hn := Nat.eq_zero_or_pos n
  · rfl
  have hhead := Decimal.head?_toDigits_ne hn
  have hcolon : (Nat.toDigits 10 n).contains ':' = false := by
    simpa using fun hmem => absurd (areDigits_toDigits n ':' hmem) (by decide)
  unfold Scalar.magnitude
  split
  case h_1 htext => exact absurd htext Nat.toDigits_ne_nil
  case h_6 => rw [if_neg (by rw [hcolon]; decide), integer_toDigits]
  all_goals
    next htext =>
      rw [htext] at hhead
      exact absurd rfl hhead

theorem toInt_toDigits (n : Nat) : Scalar.toInt (Nat.toDigits 10 n) = .ok n := by
  have hdigits := areDigits_toDigits n
  have hplain : Scalar.dropUnderscores (Nat.toDigits 10 n) = Nat.toDigits 10 n :=
    List.filter_eq_self.mpr (forall_digits hdigits (by decide))
  rw [Scalar.toInt, hplain, takeSign_digits hdigits Nat.toDigits_ne_nil]
  change Except.bind (Scalar.magnitude (Nat.toDigits 10 n)) _ = _
  rw [magnitude_toDigits]
  rfl

/-- A natural number is stored in digits without quotes. -/
theorem scalarKept_natCast (n : Nat) : ScalarKept (.int n) .int (Nat.toDigits 10 n) := by
  have hdigits := areDigits_toDigits n
  have hhead : Nat.toDigits 10 n = ['0'] ∨ (Nat.toDigits 10 n).head? ≠ some '0' := by
    obtain rfl | hn := Nat.eq_zero_or_pos n
    · exact .inl rfl
    · exact .inr (Decimal.head?_toDigits_ne hn)
  have hstyle : Style.of .int (Nat.toDigits 10 n) = .plain := by
    rw [Style.of, ofPlain_digits hdigits Nat.toDigits_ne_nil hhead,
      allowsPlain_digits hdigits Nat.toDigits_ne_nil]
    rfl
  constructor
  case written => rw [written?, toString_natCast]
  case kept =>
    exact fun hnext => absurd (forall_digits hdigits (P := fun c => c ≠ '\x85') (by decide) _ hnext)
      (fun h => h rfl)
  case ne_nil => exact fun _ => Nat.toDigits_ne_nil
  case read =>
    rw [if_pos hstyle, Scalar.read, toInt_toDigits]
    rfl

end Dialogue.Yaml
