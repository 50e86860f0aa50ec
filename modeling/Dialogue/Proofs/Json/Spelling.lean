import Dialogue.Proofs.Json.Numbers
import Dialogue.Proofs.Json.Strings
import Dialogue.Proofs.Text.Ascii

/-! A text spells a value if the reader gives the value for it, wherever the text stands. Scalars as
they are written do, and so do rows of texts in brackets. -/

namespace Dialogue.Json

/-! ## ASCII -/

open Text (CodePoint Ascii ascii_append ascii_cons ascii_flatMap ascii_nil)

theorem ascii_of_areDigits {text : List Char} (h : Decimal.AreDigits text) : Ascii text :=
  fun c hc => Text.toNat_lt_of_isDigit (h c hc)

theorem ascii_digitChar : ∀ d < 16, (Nat.digitChar d).toNat < 128 := by
  decide

theorem ascii_unitEscape (n : Nat) : Ascii (unitEscape n) := by
  rw [unitEscape, ascii_cons, ascii_cons]
  refine ⟨by decide, by decide, fun c hc => ?_⟩
  obtain ⟨i, -, rfl⟩ := List.mem_map.mp hc
  exact ascii_digitChar _ (Nat.mod_lt _ (by decide))

theorem ascii_escapeChar (c : Char) : Ascii (escapeChar c) := by
  rw [escapeChar]
  iterate 7
    split
    · simp [Ascii]
  split
  · rename_i hprintable
    have : c.val.toNat ≤ 126 := hprintable.2
    rw [ascii_cons]
    exact ⟨Nat.lt_of_le_of_lt this (by decide), ascii_nil⟩
  split
  · exact ascii_unitEscape _
  · exact ascii_append.mpr ⟨ascii_unitEscape _, ascii_unitEscape _⟩

theorem ascii_escapePoint (p : CodePoint) : Ascii (escapePoint p) := by
  cases p with
  | char c => exact ascii_escapeChar c
  | surrogate s => exact ascii_unitEscape s.code

theorem ascii_writeString (points : List CodePoint) : Ascii (writeString points) := by
  rw [writeString, List.cons_append, ascii_cons, ascii_append]
  exact ⟨by decide, ascii_flatMap ascii_escapePoint, by simp [Ascii]⟩

theorem ascii_numeral {n : Decimal.Numeral} (h : n.IsFloat) : Ascii n.text := by
  rw [Decimal.Numeral.text, ascii_append, ascii_append]
  refine ⟨ascii_of_areDigits h.areDigits_whole, ?_, ?_⟩
  · rw [Decimal.Numeral.partText]
    split
    · exact ascii_nil
    · exact ascii_cons.mpr ⟨by decide, ascii_of_areDigits h.areDigits_part⟩
  · rw [Decimal.Numeral.exponentText]
    split
    · exact ascii_nil
    · rename_i negative digits he
      have hdigits := (h.areDigits_exponent _ (Option.mem_def.mpr he)).1
      exact ascii_cons.mpr ⟨by decide, ascii_cons.mpr ⟨by cases negative <;> decide,
        ascii_of_areDigits hdigits⟩⟩

theorem ascii_bareText {s : Scalar} {text : List Char} (h : bareText? s = some text) :
    Ascii text := by
  cases s with
  | null =>
      cases h
      simp [Ascii]
  | bool b =>
      cases h
      cases b <;> simp [Ascii]
  | int n =>
      cases h
      rw [Int.toString_eq_repr, Int.repr_eq_if]
      have hdigits := fun m => ascii_of_areDigits (Decimal.areDigits_toDigits m)
      split
      · simpa using hdigits n.toNat
      · rw [String.toList_append, ascii_append]
        exact ⟨by simp [Ascii], by simpa using hdigits (-n).toNat⟩
  | float x =>
      cases h
      cases hx : Decimal.Dyadic.ofFloat x with
      | notANumber =>
          rw [Decimal.FloatLayout.render, hx]
          simp [Ascii, numberText]
      | infinite negative =>
          rw [Decimal.FloatLayout.render, hx]
          cases negative <;> simp [Ascii, numberText]
      | finite negative m q =>
          obtain ⟨n, hn, htext, -⟩ := exists_render hx
          rw [htext]
          cases negative
          · exact ascii_numeral hn
          · exact ascii_cons.mpr ⟨by decide, ascii_numeral hn⟩
  | text | bytes | asset => cases h

/-! ## Texts of values -/

/-- The text of a value: it begins with no blank and no closing bracket, and whatever comes behind
it, unless it goes on with a number, it is read as the value. -/
structure Spells (text : List Char) (v : Value) : Prop where
  ascii : Ascii text
  starts : ∃ c t, text = c :: t ∧ isSpace c = false ∧ c ≠ ']' ∧ c ≠ '}'
  reads : ∀ fuel place rest, 2 * text.length ≤ fuel → EndsNumber rest →
    valueFrom fuel place (text ++ rest) = .ok ⟨v, place + text.length, rest⟩

theorem skipSpace_of_starts {c : Char} {t : List Char} (hc : isSpace c = false) (place : Nat) :
    skipSpace place (c :: t) = ⟨(), place, c :: t⟩ := by
  rw [skipSpace, hc]
  rfl

theorem Spells.skip {text : List Char} {v : Value} (h : Spells text v) (place : Nat)
    (rest : List Char) : skipSpace place (text ++ rest) = ⟨(), place, text ++ rest⟩ := by
  obtain ⟨c, t, rfl, hc, -⟩ := h.starts
  exact skipSpace_of_starts hc place

/-! ## Scalars -/

theorem spells_text (points : List CodePoint) :
    Spells (writeString points) (.scalar (.text (.ofPoints (joined points)))) := by
  refine ⟨ascii_writeString _, ⟨'"', _, rfl, by decide, by decide, by decide⟩, ?_⟩
  intro fuel place rest hfuel _
  obtain ⟨fuel, rfl⟩ : ∃ n, fuel = n + 1 := ⟨fuel - 1, by simp [writeString] at hfuel; omega⟩
  have hread := stringFrom_writeString points place (place + 1) rest
  have htext : writeString points ++ rest =
      '"' :: (points.flatMap escapePoint ++ '"' :: rest) := by
    simp [writeString]
  rw [htext, valueFrom]
  simp only [hread]
  simp [writeString]
  omega

theorem valueFrom_of_scalarFrom {c : Char} {t : List Char} {fuel place : Nat} {r : Read Scalar}
    (h : scalarFrom place (c :: t) = some r) :
    valueFrom (fuel + 1) place (c :: t) = .ok ⟨.scalar r.value, r.place, r.rest⟩ := by
  have hc := beginsScalar_of_scalarFrom h
  rw [valueFrom]
  · rw [h]
  · simpa using hc.ne (by decide)
  · simpa using hc.ne (by decide)
  · simpa using hc.ne (by decide)

theorem spells_bareText {s : Scalar} {text : List Char} (h : bareText? s = some text) :
    Spells text (.scalar s) := by
  have hread := fun place rest (hrest : EndsNumber rest) => scalarFrom_bareText h hrest place
  have hend : EndsNumber [] := by simp [EndsNumber]
  obtain ⟨c, t, rfl⟩ : ∃ c t, text = c :: t := by
    refine List.exists_cons_of_ne_nil ?_
    rintro rfl
    have hnone : scalarFrom 0 [] = none := rfl
    cases hnone.symm.trans (hread 0 [] hend)
  refine ⟨ascii_bareText h, ⟨c, t, rfl, ?_⟩, ?_⟩
  · have hc := beginsScalar_of_scalarFrom (hread 0 [] hend)
    refine ⟨?_, hc.ne (by decide), hc.ne (by decide)⟩
    simp [isSpace, hc.ne (d := ' ') (by decide), hc.ne (d := '\t') (by decide),
      hc.ne (d := '\n') (by decide), hc.ne (d := '\r') (by decide)]
  · intro fuel place rest hfuel hrest
    obtain ⟨fuel, rfl⟩ : ∃ n, fuel = n + 1 := ⟨fuel - 1, by simp at hfuel; omega⟩
    exact valueFrom_of_scalarFrom (hread place rest hrest)

/-! ## Lists -/

theorem commaSeparated_singleton (text : List Char) : commaSeparated [text] = text :=
  List.intercalate_singleton

theorem commaSeparated_cons_cons (text text' : List Char) (texts : List (List Char)) :
    commaSeparated (text :: text' :: texts) =
      text ++ ',' :: ' ' :: commaSeparated (text' :: texts) := by
  simp [commaSeparated, List.intercalate]

theorem ascii_commaSeparated {texts : List (List Char)} (h : ∀ t ∈ texts, Ascii t) :
    Ascii (commaSeparated texts) := by
  induction texts with
  | nil => exact ascii_nil
  | cons text texts ih =>
      obtain ⟨htext, htexts⟩ := List.forall_mem_cons.mp h
      cases texts with
      | nil =>
          rw [commaSeparated_singleton]
          exact htext
      | cons text' texts =>
          rw [commaSeparated_cons_cons, ascii_append, ascii_cons, ascii_cons]
          exact ⟨htext, by decide, by decide, ih htexts⟩

theorem ascii_brackets {texts : List (List Char)} {left right : Char} (hleft : left.toNat < 128)
    (hright : right.toNat < 128) (h : ∀ t ∈ texts, Ascii t) :
    Ascii (left :: commaSeparated texts ++ [right]) := by
  rw [List.cons_append, ascii_cons, ascii_append, ascii_cons]
  exact ⟨hleft, ascii_commaSeparated h, hright, ascii_nil⟩

theorem forall_ascii {α : Type} {R : List Char → α → Prop} (hR : ∀ t a, R t a → Ascii t)
    {texts : List (List Char)} {as : List α} (h : List.Forall₂ R texts as) :
      ∀ t ∈ texts, Ascii t := by
  induction h with
  | nil => simp
  | cons hra _ ih => exact List.forall_mem_cons.mpr ⟨hR _ _ hra, ih⟩

theorem endsNumber_of_not {c : Char} (rest : List Char)
    (hc : c.isDigit = false ∧ c ≠ '.' ∧ c ≠ 'e' ∧ c ≠ 'E') : EndsNumber (c :: rest) := by
  rintro d ⟨⟩
  exact hc

variable {fuel place : Nat} {text rest : List Char}

theorem itemsFrom_last {v : Value} {p : Nat}
    (hitem : valueFrom fuel place text = .ok ⟨v, p, ']' :: rest⟩) :
    itemsFrom (fuel + 1) place text = .ok ⟨[v], p + 1, rest⟩ := by
  rw [itemsFrom, hitem]
  rfl

theorem itemsFrom_more {v : Value} {p : Nat} {r : Read (List Value)}
    (hitem : valueFrom fuel place text = .ok ⟨v, p, ',' :: ' ' :: rest⟩)
    (hskip : skipSpace (p + 2) rest = ⟨(), p + 2, rest⟩)
    (hrest : itemsFrom fuel (p + 2) rest = .ok r) :
    itemsFrom (fuel + 1) place text = .ok { r with value := v :: r.value } := by
  have hcomma : skipSpace p (',' :: ' ' :: rest) = ⟨(), p, ',' :: ' ' :: rest⟩ := rfl
  have hblank : skipSpace (p + 1) (' ' :: rest) = ⟨(), p + 2, rest⟩ := by
    rw [skipSpace, if_pos (by decide), hskip]
  rw [itemsFrom, hitem]
  simp only [hcomma, hblank, hrest]

/-- Texts that begin with no blank are not touched by skipping, nor is a row of them. -/
theorem skipSpace_commaSeparated {text : List Char} (texts : List (List Char))
    (h : ∃ c t, text = c :: t ∧ isSpace c = false) (place : Nat) (rest : List Char) :
    skipSpace place (commaSeparated (text :: texts) ++ rest) =
      ⟨(), place, commaSeparated (text :: texts) ++ rest⟩ := by
  obtain ⟨c, t, rfl, hc⟩ := h
  cases texts with
  | nil =>
      rw [commaSeparated_singleton]
      exact skipSpace_of_starts hc place
  | cons text' texts =>
      rw [commaSeparated_cons_cons]
      exact skipSpace_of_starts hc place

theorem Spells.exists_cons {v : Value} (h : Spells text v) :
    ∃ c t, text = c :: t ∧ isSpace c = false := by
  obtain ⟨c, t, hct, hc, -⟩ := h.starts
  exact ⟨c, t, hct, hc⟩

theorem itemsFrom_spelled {texts : List (List Char)} {values : List Value}
    (h : List.Forall₂ Spells texts values) (hne : texts ≠ []) (rest : List Char)
    (hfuel : 2 * (commaSeparated texts).length + 1 ≤ fuel) :
    itemsFrom fuel place (commaSeparated texts ++ ']' :: rest) =
      .ok ⟨values, place + (commaSeparated texts).length + 1, rest⟩ := by
  induction h generalizing fuel place with
  | nil => exact absurd rfl hne
  | cons hspells htexts ih =>
      rename_i text value texts values
      obtain ⟨fuel, rfl⟩ : ∃ n, fuel = n + 1 := ⟨fuel - 1, by omega⟩
      cases htexts with
      | nil =>
          rw [commaSeparated_singleton] at hfuel ⊢
          exact itemsFrom_last
            (hspells.reads fuel place _ (by omega) (endsNumber_of_not rest (by decide)))
      | cons hspells' htexts =>
          rename_i text' value' texts values
          rw [commaSeparated_cons_cons, List.length_append, List.length_cons,
            List.length_cons] at hfuel
          rw [commaSeparated_cons_cons, List.append_assoc, List.cons_append, List.cons_append]
          have hitem := hspells.reads fuel place
            (',' :: ' ' :: (commaSeparated (text' :: texts) ++ ']' :: rest)) (by omega)
            (endsNumber_of_not _ (by decide))
          refine (itemsFrom_more hitem (skipSpace_commaSeparated _ hspells'.exists_cons _ _)
            (ih (by simp) (by omega))).trans ?_
          simp
          omega

/-! ## Mappings -/

def memberText (name : List CodePoint) (text : List Char) : List Char :=
  writeString name ++ ':' :: ' ' :: text

def SpellsMember (text : List Char) (e : Scalar × Value) : Prop :=
  ∃ name valueText, text = memberText name valueText ∧
    e.1 = .text (.ofPoints (joined name)) ∧ Spells valueText e.2

theorem SpellsMember.ascii {e : Scalar × Value} (h : SpellsMember text e) : Ascii text := by
  obtain ⟨name, valueText, rfl, -, hvalue⟩ := h
  rw [memberText, ascii_append, ascii_cons, ascii_cons]
  exact ⟨ascii_writeString _, by decide, by decide, hvalue.ascii⟩

theorem SpellsMember.exists_cons {e : Scalar × Value} (h : SpellsMember text e) :
    ∃ c t, text = c :: t ∧ isSpace c = false := by
  obtain ⟨name, valueText, rfl, -⟩ := h
  exact ⟨'"', _, rfl, by decide⟩

theorem membersFrom_last {name : List CodePoint} {v : Value} {p p' : Nat} {valueText : List Char}
    (hname : stringFrom place (place + 1) text = .ok ⟨name, p, ':' :: ' ' :: valueText⟩)
    (hskip : skipSpace (p + 2) valueText = ⟨(), p + 2, valueText⟩)
    (hvalue : valueFrom fuel (p + 2) valueText = .ok ⟨v, p', '}' :: rest⟩) :
    membersFrom (fuel + 1) place ('"' :: text) =
      .ok ⟨[(.text (.ofPoints name), v)], p' + 1, rest⟩ := by
  have hcolon : skipSpace p (':' :: ' ' :: valueText) = ⟨(), p, ':' :: ' ' :: valueText⟩ := rfl
  have hblank : skipSpace (p + 1) (' ' :: valueText) = ⟨(), p + 2, valueText⟩ := by
    rw [skipSpace, if_pos (by decide), hskip]
  have hbrace : skipSpace p' ('}' :: rest) = ⟨(), p', '}' :: rest⟩ := rfl
  rw [membersFrom]
  simp only [hname, hcolon, hblank, hvalue, hbrace]

theorem membersFrom_more {name : List CodePoint} {v : Value} {p p' : Nat} {valueText : List Char}
    {r : Read (List (Scalar × Value))}
    (hname : stringFrom place (place + 1) text = .ok ⟨name, p, ':' :: ' ' :: valueText⟩)
    (hskip : skipSpace (p + 2) valueText = ⟨(), p + 2, valueText⟩)
    (hvalue : valueFrom fuel (p + 2) valueText = .ok ⟨v, p', ',' :: ' ' :: rest⟩)
    (hskip' : skipSpace (p' + 2) rest = ⟨(), p' + 2, rest⟩)
    (hrest : membersFrom fuel (p' + 2) rest = .ok r) :
    membersFrom (fuel + 1) place ('"' :: text) =
      .ok { r with value := (.text (.ofPoints name), v) :: r.value } := by
  have hcolon : skipSpace p (':' :: ' ' :: valueText) = ⟨(), p, ':' :: ' ' :: valueText⟩ := rfl
  have hblank : skipSpace (p + 1) (' ' :: valueText) = ⟨(), p + 2, valueText⟩ := by
    rw [skipSpace, if_pos (by decide), hskip]
  have hcomma : skipSpace p' (',' :: ' ' :: rest) = ⟨(), p', ',' :: ' ' :: rest⟩ := rfl
  have hblank' : skipSpace (p' + 1) (' ' :: rest) = ⟨(), p' + 2, rest⟩ := by
    rw [skipSpace, if_pos (by decide), hskip']
  rw [membersFrom]
  simp only [hname, hcolon, hblank, hvalue, hcomma, hblank', hrest]

theorem stringFrom_memberText (name : List CodePoint) (valueText rest : List Char) (place : Nat) :
    ∃ t, memberText name valueText ++ rest = '"' :: t ∧ stringFrom place (place + 1) t =
      .ok ⟨joined name, place + (writeString name).length,
        ':' :: ' ' :: (valueText ++ rest)⟩ := by
  refine ⟨name.flatMap escapePoint ++ '"' :: ':' :: ' ' :: (valueText ++ rest),
    by simp [memberText, writeString], ?_⟩
  rw [stringFrom_writeString]
  simp [writeString]
  omega

theorem membersFrom_spelled {texts : List (List Char)} {members : List (Scalar × Value)}
    (h : List.Forall₂ SpellsMember texts members) (hne : texts ≠ []) (rest : List Char)
    (hfuel : 2 * (commaSeparated texts).length + 1 ≤ fuel) :
    membersFrom fuel place (commaSeparated texts ++ '}' :: rest) =
      .ok ⟨members, place + (commaSeparated texts).length + 1, rest⟩ := by
  induction h generalizing fuel place with
  | nil => exact absurd rfl hne
  | cons hspells htexts ih =>
      rename_i text e texts members
      have hspells' := hspells
      obtain ⟨name, valueText, rfl, hname, hvalue⟩ := hspells
      obtain ⟨key, value⟩ := e
      dsimp only at hname hvalue
      subst hname
      have hlength : (memberText name valueText).length =
          (writeString name).length + 2 + valueText.length := by
        simp [memberText]
        omega
      obtain ⟨fuel, rfl⟩ : ∃ n, fuel = n + 1 := ⟨fuel - 1, by omega⟩
      cases htexts with
      | nil =>
          rw [commaSeparated_singleton] at hfuel ⊢
          obtain ⟨t, ht, hread⟩ := stringFrom_memberText name valueText ('}' :: rest) place
          rw [ht]
          refine (membersFrom_last hread (hvalue.skip _ _) (hvalue.reads fuel _ _ (by omega)
            (endsNumber_of_not rest (by decide)))).trans ?_
          simp [hlength, Nat.add_comm, Nat.add_left_comm]
      | cons hmember htexts =>
          rename_i text' e' texts members
          rw [commaSeparated_cons_cons, List.length_append, List.length_cons,
            List.length_cons] at hfuel
          rw [commaSeparated_cons_cons, List.append_assoc, List.cons_append, List.cons_append]
          obtain ⟨t, ht, hread⟩ := stringFrom_memberText name valueText
            (',' :: ' ' :: (commaSeparated (text' :: texts) ++ '}' :: rest)) place
          rw [ht]
          refine (membersFrom_more hread (hvalue.skip _ _) (hvalue.reads fuel _ _ (by omega)
            (endsNumber_of_not _ (by decide))) (skipSpace_commaSeparated _ hmember.exists_cons _ _)
            (ih (by simp) (by omega))).trans ?_
          simp [hlength]
          omega

/-! ## Lists and mappings as values -/

theorem valueFrom_items {r : Read (List Value)}
    (hskip : skipSpace (place + 1) text = ⟨(), place + 1, text⟩) (hhead : text.head? ≠ some ']')
    (h : itemsFrom fuel (place + 1) text = .ok r) :
    valueFrom (fuel + 1) place ('[' :: text) = .ok ⟨.list r.value, r.place, r.rest⟩ := by
  rw [valueFrom]
  simp only [hskip, h]
  split
  · simp at hhead
  · rfl

theorem valueFrom_members {r : Read (List (Scalar × Value))}
    (hskip : skipSpace (place + 1) text = ⟨(), place + 1, text⟩) (hhead : text.head? ≠ some '}')
    (h : membersFrom fuel (place + 1) text = .ok r) :
    valueFrom (fuel + 1) place ('{' :: text) =
      .ok ⟨.mapping (Table.ofEntries r.value), r.place, r.rest⟩ := by
  rw [valueFrom]
  simp only [hskip, h]
  split
  · simp at hhead
  · rfl

theorem head?_commaSeparated {c : Char} {t : List Char} (texts : List (List Char))
    (rest : List Char) : (commaSeparated ((c :: t) :: texts) ++ rest).head? = some c := by
  cases texts with
  | nil =>
      rw [commaSeparated_singleton]
      rfl
  | cons text texts =>
      rw [commaSeparated_cons_cons]
      rfl

theorem spells_list {texts : List (List Char)} {values : List Value}
    (h : List.Forall₂ Spells texts values) :
    Spells ('[' :: commaSeparated texts ++ [']']) (.list values) := by
  refine ⟨ascii_brackets (by decide) (by decide) (forall_ascii (fun _ _ h => h.ascii) h),
    ⟨'[', _, rfl, by decide, by decide, by decide⟩, fun fuel place rest hfuel _ => ?_⟩
  have hlength : ('[' :: commaSeparated texts ++ [']']).length =
    (commaSeparated texts).length + 2 := by
    simp
  obtain ⟨fuel, rfl⟩ : ∃ n, fuel = n + 1 := ⟨fuel - 1, by omega⟩
  have htext : '[' :: commaSeparated texts ++ [']'] ++ rest =
      '[' :: (commaSeparated texts ++ ']' :: rest) := by
    simp
  rw [htext, hlength]
  cases h with
  | nil => rfl
  | cons hitem hitems =>
      rename_i text value texts values
      have hread : itemsFrom fuel (place + 1) (commaSeparated (text :: texts) ++ ']' :: rest) = _ :=
        itemsFrom_spelled (.cons hitem hitems) (by simp) rest (by omega)
      obtain ⟨c, t, rfl, hc, hclosing, -⟩ := hitem.starts
      refine (valueFrom_items (skipSpace_commaSeparated texts ⟨c, t, rfl,
        hc⟩ _ _) ?_ hread).trans ?_
      · rw [head?_commaSeparated]
        simpa using hclosing
      · simp
        omega

theorem spells_mapping {texts : List (List Char)} {members : List (Scalar × Value)}
    (h : List.Forall₂ SpellsMember texts members) :
    Spells ('{' :: commaSeparated texts ++ ['}']) (.mapping (Table.ofEntries members)) := by
  refine ⟨ascii_brackets (by decide) (by decide) (forall_ascii (fun _ _ h => h.ascii) h),
    ⟨'{', _, rfl, by decide, by decide, by decide⟩, fun fuel place rest hfuel _ => ?_⟩
  have hlength : ('{' :: commaSeparated texts ++ ['}']).length =
    (commaSeparated texts).length + 2 := by
    simp
  obtain ⟨fuel, rfl⟩ : ∃ n, fuel = n + 1 := ⟨fuel - 1, by omega⟩
  have htext : '{' :: commaSeparated texts ++ ['}'] ++ rest =
      '{' :: (commaSeparated texts ++ '}' :: rest) := by
    simp
  rw [htext, hlength]
  cases h with
  | nil => rfl
  | cons hmember hmembers =>
      rename_i text member texts members
      have hread : membersFrom fuel (place + 1) (commaSeparated (text :: texts) ++ '}' :: rest) =
        _ :=
        membersFrom_spelled (.cons hmember hmembers) (by simp) rest (by omega)
      obtain ⟨name, valueText, rfl, -⟩ := id hmember
      refine (valueFrom_members (skipSpace_commaSeparated texts hmember.exists_cons _ _) ?_
        hread).trans ?_
      · rw [memberText, writeString, List.cons_append, List.cons_append, head?_commaSeparated]
        simp
      · simp
        omega

end Dialogue.Json
