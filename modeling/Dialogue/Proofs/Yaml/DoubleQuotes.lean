import Dialogue.Proofs.Text.Hexadecimal
import Dialogue.Proofs.Yaml.Pages
import Dialogue.Yaml.Quoted

/-! A text in quotes is read back as it was: between double quotes whatever it is, between single
quotes unless a next line character or a space beside a line end is in it. -/

namespace Dialogue.Yaml

open Page

namespace Quoted

variable {g : Gap} {c : Char} {rest text : List Char}

/-! ## Characters between double quotes -/

structure Standing (c : Char) : Prop where
  isInline : isInline c = true
  ne_quote : c ≠ '"'
  ne_backslash : c ≠ '\\'
  ne_tab : c ≠ '\t'

theorem standing_of_standsInDouble (h : standsInDouble c = true) : Standing c := by
  simp only [standsInDouble, List.contains_cons, List.contains_nil, Bool.and_eq_true,
    Bool.or_eq_true, Bool.not_eq_true', Bool.or_eq_false_iff, decide_eq_true_eq,
    beq_eq_false_iff_ne, ne_eq, eq_iff_toNat_eq, le_iff_toNat_le, Char.reduceToNat] at h
  have hvalid := toNat_lt_or_gt c
  refine ⟨?_, ?_, ?_, ?_⟩
  · rw [isInline, Bool.and_eq_true, Bool.not_eq_true', isPrinted_iff, ← Bool.not_eq_true,
      isBreak_iff]
    omega
  all_goals
    rw [ne_eq, eq_iff_toNat_eq]
    simp only [Char.reduceToNat]
    omega

theorem readDouble_standing (h : Standing c) (hspace : c ≠ ' ') (g : Gap) (s : Spot)
    (rest : List Char) : readDouble g s (c :: rest) =
      prepend (g.text ++ [c]) (readDouble .none (s.after [c]) rest) := by
  have hstep := Spot.step_eq_after (isPrinted_of_isInline h.isInline) s rest
  have hbreak := isBreak_of_isInline h.isInline
  rw [readDouble]
  · simp [h.ne_quote, h.ne_backslash, isSpaceOrTab, hspace, h.ne_tab, endsLine, hbreak, hstep]
  all_goals
    intros
    simp_all [h.ne_backslash]

theorem readDouble_space (g : Gap) (s : Spot) (rest : List Char) :
    readDouble g s (' ' :: rest) = readDouble (g.blank ' ') (s.after [' ']) rest := by
  rw [readDouble]
  · simp [isSpaceOrTab, Spot.step_eq_after (show isPrinted ' ' = true by decide)]
  all_goals simp

theorem readDouble_close (g : Gap) (s : Spot) (rest : List Char) :
    readDouble g s ('"' :: rest) = .ok (g.text, ⟨s.after ['"'], rest⟩) := by
  rw [readDouble]
  · simp [Spot.step_eq_after (show isPrinted '"' = true by decide)]
  all_goals simp

/-! ## Escapes -/

theorem charOfDigits_upperHex {count : Nat} (h : c.toNat < 16 ^ count) :
    charOfDigits (upperHex count c.toNat) = .ok c := by
  have hvalid := toNat_lt_or_gt c
  have hlt : c.toNat < 0x110000 := by omega
  rw [charOfDigits, upperHex, Text.hexNumber?_toUpper h]
  simp only [charOfCode, if_pos hlt, Char.ofNat_toNat]

theorem inline_upperHex (count n : Nat) : Inline (upperHex count n) := by
  have hdigit : ∀ d < 16, isInline (Nat.digitChar d).toUpper = true := by decide
  intro c hc
  simp only [upperHex, Text.hexDigits, List.map_map, List.mem_map] at hc
  obtain ⟨i, -, rfl⟩ := hc
  exact hdigit _ (Nat.mod_lt _ (by decide))

theorem along_eq_after {s : Spot} {chunk : List Char} {n : Nat} (h : Inline chunk)
    (hn : chunk.length = n) : s.along n = s.after chunk := by
  rw [Spot.after_of_inline h, hn]

theorem readDouble_letter {letter : Char} (hletter : letters.lookup letter = some c)
    (hinline : isInline letter = true) (hhex : letter ≠ 'x' ∧ letter ≠ 'u' ∧ letter ≠ 'U')
    (g : Gap) (s : Spot) (rest : List Char) : readDouble g s ('\\' :: letter :: rest) =
      prepend (g.text ++ [c]) (readDouble .none (s.after ['\\', letter]) rest) := by
  have hstep (s : Spot) := Spot.step_eq_after (isPrinted_of_isInline hinline) s rest
  have halong : s.along 1 = s.after ['\\'] := along_eq_after (by simp; decide) rfl
  have hreturn : letter ≠ '\r' := ne_return_of_isPrinted (isPrinted_of_isInline hinline)
  rw [readDouble]
  · simp only [hletter, hstep, halong, ← Spot.after_append]
    rfl
  all_goals
    intros
    simp_all

theorem lookup_letters {letter : Char} (h : escapeLetters.lookup c = some letter) :
    letters.lookup letter = some c ∧ isInline letter = true ∧
      letter ≠ 'x' ∧ letter ≠ 'u' ∧ letter ≠ 'U' := by
  obtain ⟨front, back, hsplit, -⟩ := List.lookup_eq_some_iff.mp h
  have hmem : (c, letter) ∈ escapeLetters := hsplit ▸ List.mem_append_right _ List.mem_cons_self
  have hall : ∀ e ∈ escapeLetters, letters.lookup e.2 = some e.1 ∧ isInline e.2 = true ∧
      e.2 ≠ 'x' ∧ e.2 ≠ 'u' ∧ e.2 ≠ 'U' := by decide
  exact hall _ hmem

def digitCounts : List (Char × Nat) :=
  [('x', 2), ('u', 4), ('U', 8)]

theorem inline_digitEscape {letter : Char} {count : Nat} (h : (letter, count) ∈ digitCounts)
    (n : Nat) :
    Inline ('\\' :: letter :: upperHex count n) := by
  have hall : ∀ e ∈ digitCounts, isInline e.1 = true := by decide
  exact inline_cons.mpr ⟨by decide, inline_cons.mpr ⟨hall _ h, inline_upperHex count n⟩⟩

theorem readDouble_digits {letter : Char} {count : Nat} (h : (letter, count) ∈ digitCounts)
    (hc : c.toNat < 16 ^ count) (g : Gap) (s : Spot) (rest : List Char) :
    readDouble g s ('\\' :: letter :: upperHex count c.toNat ++ rest) =
      prepend (g.text ++ [c])
        (readDouble .none (s.after ('\\' :: letter :: upperHex count c.toNat)) rest) := by
  have hdigits := charOfDigits_upperHex hc
  have hlength : (upperHex count c.toNat).length = count := by simp [upperHex, Text.hexDigits]
  have hafter := Spot.after_of_inline (inline_digitEscape h c.toNat) s
  rw [List.length_cons, List.length_cons, hlength] at hafter
  rw [hafter]
  have htwo (n : Nat) : ∃ a b, upperHex 2 n = [a, b] := ⟨_, _, rfl⟩
  have hfour (n : Nat) : ∃ a b c d, upperHex 4 n = [a, b, c, d] := ⟨_, _, _, _, rfl⟩
  have height (n : Nat) : ∃ a b c d e f g h, upperHex 8 n = [a, b, c, d, e, f, g, h] :=
    ⟨_, _, _, _, _, _, _, _, rfl⟩
  simp only [digitCounts, List.mem_cons, Prod.mk.injEq, List.not_mem_nil, or_false] at h
  obtain ⟨rfl, rfl⟩ | ⟨rfl, rfl⟩ | ⟨rfl, rfl⟩ := h
  · obtain ⟨_, _, hspelled⟩ := htwo c.toNat
    rw [hspelled] at hdigits ⊢
    simp only [List.cons_append, List.nil_append, readDouble, hdigits]
  · obtain ⟨_, _, _, _, hspelled⟩ := hfour c.toNat
    rw [hspelled] at hdigits ⊢
    simp only [List.cons_append, List.nil_append, readDouble, hdigits]
  · obtain ⟨_, _, _, _, _, _, _, _, hspelled⟩ := height c.toNat
    rw [hspelled] at hdigits ⊢
    simp only [List.cons_append, List.nil_append, readDouble, hdigits]

/-- A character is escaped by a letter or by digits that are enough for it. -/
theorem escape_cases (c : Char) :
    (∃ letter, escapeLetters.lookup c = some letter ∧ escape c = ['\\', letter]) ∨
      ∃ letter count, (letter, count) ∈ digitCounts ∧ c.toNat < 16 ^ count ∧
        escape c = '\\' :: letter :: upperHex count c.toNat := by
  have hvalid := toNat_lt_or_gt c
  rw [escape]
  split
  · next letter hletter => exact .inl ⟨letter, hletter, rfl⟩
  split
  · exact .inr ⟨'x', 2, by decide, by omega, rfl⟩
  split
  · exact .inr ⟨'u', 4, by decide, by omega, rfl⟩
  · exact .inr ⟨'U', 8, by decide, by omega, rfl⟩

theorem inline_escape (c : Char) : Inline (escape c) := by
  obtain ⟨letter, hletter, heq⟩ | ⟨letter, count, hcount, -, heq⟩ := escape_cases c
  · rw [heq]
    exact inline_cons.mpr ⟨by decide, inline_cons.mpr ⟨(lookup_letters hletter).2.1, inline_nil⟩⟩
  · rw [heq]
    exact inline_digitEscape hcount c.toNat

/-- What is written for a character that does not stand for itself is read as the character. -/
theorem readDouble_escape (c : Char) (g : Gap) (s : Spot) (rest : List Char) :
    readDouble g s (escape c ++ rest) =
      prepend (g.text ++ [c]) (readDouble .none (s.after (escape c)) rest) := by
  obtain ⟨letter, hletter, heq⟩ | ⟨letter, count, hcount, hc, heq⟩ := escape_cases c
  · obtain ⟨hread, hinline, hhex⟩ := lookup_letters hletter
    rw [heq]
    exact readDouble_letter hread hinline hhex g s rest
  · rw [heq]
    exact readDouble_digits hcount hc g s rest

/-! ## Lines broken between double quotes -/

theorem readDouble_indentation (first : Option Char) (more : List Char) (n : Nat) (s : Spot)
    (rest : List Char) : readDouble (.lines first more) s (spaces n ++ rest) =
      readDouble (.lines first more) (s.after (spaces n)) rest := by
  induction n generalizing s with
  | zero => rfl
  | succ n ih =>
      rw [spaces, List.replicate_succ, List.cons_append, readDouble_space, Spot.after_cons]
      exact ih _

theorem readDouble_fold {n : Nat} (hn : 0 < n) (g : Gap) (s : Spot) (rest : List Char) :
    readDouble g s ('\\' :: '\n' :: spaces n ++ rest) = prepend g.text
      (readDouble (.lines .none []) (s.after ('\\' :: '\n' :: spaces n)) rest) := by
  have halong : s.along 1 = s.after ['\\'] := along_eq_after (by simp; decide) rfl
  rw [List.cons_append, List.cons_append, readDouble]
  · simp only [letters, List.lookup_cons, List.lookup_nil, atAnyDocumentMark_spaces hn, halong,
      Spot.step_eq_after (show isPrinted '\n' = true by decide), readDouble_indentation,
      ← Spot.after_append]
    rfl
  all_goals simp

/-! ## Texts between double quotes -/

/-- A body is read behind a gap as a text, as far as the closing quote. -/
def DoubleReads (g : Gap) (body text : List Char) : Prop :=
  ∀ s rest, readDouble g s (body ++ '"' :: rest) =
    .ok (g.text ++ text, ⟨s.after (body ++ ['"']), rest⟩)

/-- A gap that a text may follow: spaces, or an escaped line end in front of no space. -/
def Gap.Meets (g : Gap) (text : List Char) : Prop :=
  (∃ blanks, g = .blanks blanks) ∨ g = .lines .none [] ∧ text.head? ≠ some ' '

theorem Gap.meets_none (text : List Char) : Gap.none.Meets text :=
  .inl ⟨[], rfl⟩

namespace DoubleReads

variable {body : List Char}

theorem nil (g : Gap) : DoubleReads g [] [] := by
  intro s rest
  rw [List.append_nil]
  exact readDouble_close g s rest

theorem of_prepend (front chunk : List Char) {g' : Gap} (h : DoubleReads g' body text)
    (hread : ∀ s rest, readDouble g s (chunk ++ rest) =
      prepend (g.text ++ front) (readDouble g' (s.after chunk) rest))
    {whole : List Char} (hwhole : front ++ (g'.text ++ text) = whole) :
    DoubleReads g (chunk ++ body) whole := by
  intro s rest
  rw [List.append_assoc, hread, h, prepend, ← Spot.after_append, List.append_assoc, hwhole,
    List.append_assoc]

theorem standing (h : DoubleReads .none body text) (hc : Standing c) (hspace : c ≠ ' ') (g : Gap) :
    DoubleReads g (c :: body) (c :: text) :=
  h.of_prepend [c] [c] (readDouble_standing hc hspace g) rfl

theorem escape (h : DoubleReads .none body text) (c : Char) (g : Gap) :
    DoubleReads g (Page.escape c ++ body) (c :: text) :=
  h.of_prepend [c] (Page.escape c) (readDouble_escape c g) rfl

theorem escapedSpace (h : DoubleReads .none body text) (g : Gap) :
    DoubleReads g ('\\' :: ' ' :: body) (' ' :: text) :=
  h.of_prepend [' '] ['\\', ' ']
    (readDouble_letter (by decide) (by decide) (by decide) g) rfl

theorem fold (h : DoubleReads (.lines .none []) body text) {n : Nat} (hn : 0 < n) (g : Gap) :
    DoubleReads g ('\\' :: '\n' :: spaces n ++ body) text :=
  h.of_prepend [] _ (by simpa using readDouble_fold hn g) rfl

/-- A space stays in the gap until it is known what comes behind. -/
theorem space {blanks : List Char} (h : DoubleReads (.blanks (' ' :: blanks)) body text) :
    DoubleReads (.blanks blanks) (' ' :: body) (' ' :: text) := by
  intro s rest
  rw [List.cons_append, readDouble_space]
  refine (h _ rest).trans ?_
  simp [Gap.text, Spot.after_cons]

end DoubleReads

/-! ## Pages with texts between double quotes -/

section

variable {p : Page}

/-- A broken line goes on with a backslash if a space comes. -/
theorem foldLine_of_space (indent : Nat) (rest : List Char) :
    p.foldLine indent (' ' :: rest) = (p.foldLine indent []).put ['\\'] := rfl

theorem foldLine_of_ne (h : rest.head? ≠ some ' ') (indent : Nat) :
    p.foldLine indent rest = p.foldLine indent [] := by
  simp [foldLine, h]

theorem puts_foldLine (h : p.inMargin = false) (indent : Nat) :
    p.Puts ('\\' :: '\n' :: spaces indent) (p.foldLine indent []) := by
  have hput : p.Puts ['\\'] (p.put ['\\']) :=
    puts_put (inline_cons.mpr ⟨by decide, inline_nil⟩) p
  have hword : (p.put ['\\']).inMargin = false := h
  exact (hput.trans (puts_indentTo_of_word (.inl hword))).beforeWord

theorem column_foldLine (h : p.inMargin = false) (indent : Nat) :
    (p.foldLine indent []).column = indent := by
  have hword : (p.put ['\\']).inMargin = false := h
  have hfold : p.foldLine indent [] = ((p.put ['\\']).indentTo indent).beforeWord := rfl
  rw [hfold, indentTo_of_word (.inl hword)]
  rfl

theorem puts_char (hc : isInline c = true) (p : Page) : p.Puts [c] (p.put [c]) :=
  puts_put (inline_cons.mpr ⟨hc, inline_nil⟩) p

/-- A space is put without a break on a line that has room. -/
theorem putChars_space {broken : Bool} {indent : Nat} (h : p.column ≤ pageWidth)
    (first fresh : Bool)
    (rest : List Char) : putChars broken indent first fresh (' ' :: rest) p =
      putChars broken indent false false rest (p.put [' ']) := by
  have hroom : ¬ pageWidth < p.column := Nat.not_lt.mpr h
  have hspace : standsInDouble ' ' = true := by decide
  simp [putChars, hspace, hroom]

end

/-- What is put of a text between double quotes is read as the text. -/
def Rereads (broken : Bool) (indent : Nat) (text : List Char) : Prop :=
  ∀ (first fresh : Bool) (p : Page) (g : Gap), p.inMargin = false → g.Meets text →
    ∃ body, p.Puts body (putChars broken indent first fresh text p) ∧ DoubleReads g body text

namespace Rereads

variable {broken : Bool} {indent : Nat}

theorem nil : Rereads broken indent [] :=
  fun _ _ p g _ _ => ⟨[], .refl p, .nil g⟩

theorem standing (hindent : 0 < indent) (h : Rereads broken indent rest)
    (hstands : standsInDouble c = true) : Rereads broken indent (c :: rest) := by
  intro first fresh p g hp hg
  have hc := standing_of_standsInDouble hstands
  rw [putChars]
  simp only [hstands, if_true]
  split
  · have hfold := puts_foldLine hp indent
    by_cases hspace : c = ' '
    · subst hspace
      have hmark := puts_char (show isInline '\\' = true by decide) (p.foldLine indent [])
      have hput := (hfold.trans hmark).trans (puts_char hc.isInline _)
      obtain ⟨body, hbody, hread⟩ := h false false _ .none
        (show (((p.foldLine indent []).put ['\\']).put [' ']).inMargin = false from rfl)
        (Gap.meets_none rest)
      refine ⟨_, hput.trans hbody, ?_⟩
      have hwhole := (hread.escapedSpace (.lines .none [])).fold hindent g
      simpa using hwhole
    · have hne : (c :: rest).head? ≠ some ' ' := by simpa using hspace
      rw [foldLine_of_ne hne]
      obtain ⟨body, hbody, hread⟩ := h false false _ .none
        (show ((p.foldLine indent []).put [c]).inMargin = false from rfl) (Gap.meets_none rest)
      refine ⟨_, (hfold.trans (puts_char hc.isInline _)).trans hbody, ?_⟩
      have hwhole := (hread.standing hc hspace (.lines .none [])).fold hindent g
      simpa using hwhole
  · have hput := puts_char hc.isInline p
    by_cases hspace : c = ' '
    · subst hspace
      obtain ⟨blanks, rfl⟩ | ⟨-, hne⟩ := hg
      · obtain ⟨body, hbody, hread⟩ := h false false (p.put [' ']) (.blanks (' ' :: blanks)) hp
          (.inl ⟨_, rfl⟩)
        exact ⟨_, hput.trans hbody, hread.space⟩
      · exact absurd rfl hne
    · obtain ⟨body, hbody, hread⟩ := h false false (p.put [c]) .none hp (Gap.meets_none rest)
      exact ⟨_, hput.trans hbody, hread.standing hc hspace g⟩

/-- Behind an escape, a line may be broken in front of a space; then the space is escaped. -/
theorem escape (hindent : 0 < indent) (hroom : indent < pageWidth) (h : Rereads broken indent rest)
    (hspace : ∀ later, rest = ' ' :: later → Rereads broken indent later)
    (hstands : standsInDouble c = false) : Rereads broken indent (c :: rest) := by
  intro first fresh p g hp _
  have hput := puts_put (inline_escape c) p
  rw [putChars]
  simp only [hstands, Bool.false_eq_true, if_false]
  split
  · have hword : (p.put (Page.escape c)).inMargin = false := hp
    have hfold := hput.trans (puts_foldLine hword indent)
    by_cases hne : rest.head? = some ' '
    · obtain ⟨later, rfl⟩ : ∃ later, rest = ' ' :: later := by
        cases rest with
        | nil => simp at hne
        | cons d later => exact ⟨later, by simpa using hne⟩
      have hcolumn : (((p.put (Page.escape c)).foldLine indent []).put ['\\']).column ≤
        pageWidth := by
        have := column_foldLine hword indent
        rw [put, this]
        exact hroom
      rw [foldLine_of_space, putChars_space hcolumn]
      obtain ⟨body, hbody, hread⟩ := hspace later rfl false false _ .none
        (show ((((p.put (Page.escape c)).foldLine indent []).put ['\\']).put [' ']).inMargin =
          false from rfl)
        (Gap.meets_none later)
      refine ⟨_,
        ((hfold.trans (puts_char (by decide) _)).trans (puts_char (by decide) _)).trans hbody, ?_⟩
      have hwhole := ((hread.escapedSpace (.lines .none [])).fold hindent .none).escape c g
      simpa using hwhole
    · rw [foldLine_of_ne hne]
      obtain ⟨body, hbody, hread⟩ := h false true _ (.lines .none [])
        (show ((p.put (Page.escape c)).foldLine indent []).inMargin = false from rfl)
          (.inr ⟨rfl, hne⟩)
      refine ⟨_, hfold.trans hbody, ?_⟩
      have hwhole := (hread.fold hindent .none).escape c g
      simpa using hwhole
  · obtain ⟨body, hbody, hread⟩ := h false true (p.put (Page.escape c)) .none hp
      (Gap.meets_none rest)
    exact ⟨_, hput.trans hbody, hread.escape c g⟩

end Rereads

theorem rereads (broken : Bool) {indent : Nat} (hindent : 0 < indent) (hroom : indent < pageWidth)
    (text : List Char) : Rereads broken indent text := by
  induction hn : text.length using Nat.strong_induction_on generalizing text with
  | h n ih =>
    cases text with
    | nil => exact .nil
    | cons c rest =>
        rw [List.length_cons] at hn
        have hrest : Rereads broken indent rest := ih rest.length (by omega) rest rfl
        cases hstands : standsInDouble c with
        | true => exact hrest.standing hindent hstands
        | false =>
            refine hrest.escape hindent hroom ?_ hstands
            rintro later rfl
            rw [List.length_cons] at hn
            exact ih later.length (by omega) later rfl

/-! ## Texts in quotes -/

/-- A body in quotes is read as a text. Another quote behind it would belong to it. -/
structure QuotedAs (body text : List Char) : Prop where
  head : body.head? = some '\'' ∨ body.head? = some '"'
  read : ∀ s rest, rest.head? ≠ some '\'' →
    Quoted.read ⟨s, body ++ rest⟩ = .ok (text, ⟨s.after body, rest⟩)

/-- A text that is put between double quotes is read back. -/
theorem exists_putDoubleQuoted {indent : Nat} (hindent : 0 < indent) (hroom : indent < pageWidth)
    (broken : Bool) (p : Page) (text : List Char) : ∃ body,
      p.Puts (spaces p.lead ++ body) (p.putDoubleQuoted broken indent text) ∧
        QuotedAs body text := by
  have hmargin : (p.mark '"' false).inMargin = false := by rw [inMargin_mark, Bool.and_false]
  obtain ⟨body, hbody, hread⟩ :=
    rereads broken hindent hroom text true true _ .none hmargin (Gap.meets_none text)
  have hmark : p.Puts (spaces p.lead ++ ['"']) (p.mark '"' false) := puts_mark (by decide) p false
  refine ⟨'"' :: (body ++ ['"']), ?_, .inr rfl, fun s rest _ => ?_⟩
  · have hquote : Inline ['"'] := inline_cons.mpr ⟨by decide, inline_nil⟩
    have hput := (hmark.trans hbody).closing hquote
    simpa [putDoubleQuoted] using hput
  · have hnext : (Cursor.mk s ('"' :: (body ++ '"' :: rest))).next =
        ⟨s.after ['"'], body ++ '"' :: rest⟩ := Cursor.next_of_printed (by decide) s _
    have hread := hread (s.after ['"']) rest
    rw [← Spot.after_append] at hread
    simp only [List.cons_append, List.append_assoc, List.nil_append] at hread ⊢
    rw [Quoted.read, hnext]
    exact hread

def spell (c : Char) : List Char :=
  if standsInDouble c then [c] else escape c

theorem putChars_unbroken (indent : Nat) (first fresh : Bool) (text : List Char) (p : Page) :
    putChars false indent first fresh text p = p.put (text.flatMap spell) := by
  induction text generalizing first fresh p with
  | nil => rfl
  | cons c text ih =>
      rw [putChars, List.flatMap_cons, ← put_put, spell]
      by_cases hstands : standsInDouble c = true
      · simp [hstands, ih]
      · simp [hstands, ih]

end Quoted

end Dialogue.Yaml
