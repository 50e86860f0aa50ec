import Dialogue.Proofs.Yaml.SingleQuotes
import Dialogue.Yaml.Plain

/-! A plain text is read word by word. A gap between two words is read as it was, and so is a single
space at which the line was broken; what comes behind the last word ends the text. -/

namespace Dialogue.Yaml

open Page Style

namespace Plain

variable {c : Char} {word text body rest : List Char} {margin n : Nat}

/-! ## Gaps -/

theorem moreBreaks_spaces (hrest : stopsAt isFirst rest = true) (s : Spot) (n : Nat) :
    moreBreaks s (spaces n ++ rest) = (some [], ⟨s.after (spaces n), rest⟩) := by
  induction n generalizing s with
  | zero =>
      cases rest with
      | nil => rfl
      | cons c rest =>
          simp only [stopsAt, isFirst, Bool.and_eq_true, Bool.not_eq_true', bne_iff_ne] at hrest
          change moreBreaks s (c :: rest) = _
          rw [moreBreaks, hrest.1.1]
          simp [hrest.1.2, spaces]
  | succ n ih =>
      have hspace : moreBreaks s (spaces (n + 1) ++ rest) =
          moreBreaks (s.step ' ' (spaces n ++ rest)) (spaces n ++ rest) := rfl
      rw [hspace, ih, Spot.step_of_ne (by decide)]
      rfl

theorem lineBreak_of_first (hrest : stopsAt isFirst rest = true) (s : Spot) :
    (Cursor.mk s rest).lineBreak = (none, ⟨s, rest⟩) := by
  cases rest with
  | nil => rfl
  | cons c rest =>
      simp only [stopsAt, isFirst, Bool.and_eq_true, Bool.not_eq_true', bne_iff_ne] at hrest
      have hreturn : c ≠ '\r' := by
        rintro rfl
        exact absurd hrest.1.1 (by decide)
      unfold Cursor.lineBreak
      split <;> simp_all

theorem head_ne_space_of_first (hrest : stopsAt isFirst rest = true) : rest.head? ≠ some ' ' := by
  cases rest with
  | nil => simp
  | cons c rest =>
      rintro hc
      obtain rfl : c = ' ' := by simpa using hc
      exact absurd hrest (by simp [stopsAt, isFirst])

theorem takeGap_spaces (hrest : stopsAt isFirst rest = true) (s : Spot) (n : Nat) :
    takeGap ⟨s, spaces n ++ rest⟩ = ⟨spaces n, false, ⟨s.after (spaces n), rest⟩⟩ := by
  rw [takeGap]
  simp only [Cursor.takeWhile_spaces (head_ne_space_of_first hrest), lineBreak_of_first hrest]

theorem takeGap_line (hrest : stopsAt isFirst rest = true)
    (hmark : atAnyDocumentMark (spaces n ++ rest) = false) (s : Spot) :
    takeGap ⟨s, '\n' :: spaces n ++ rest⟩ = ⟨[' '], true, ⟨s.after ('\n' :: spaces n), rest⟩⟩ := by
  have hnone : (Cursor.mk s ('\n' :: spaces n ++ rest)).takeWhile (· == ' ') =
      ([], ⟨s, '\n' :: spaces n ++ rest⟩) :=
    Cursor.takeWhile_spaces (n := 0) (by simp) s
  have hbreak : (Cursor.mk s ('\n' :: spaces n ++ rest)).lineBreak =
      (some '\n', ⟨s.after ['\n'], spaces n ++ rest⟩) := rfl
  rw [takeGap]
  simp only [hnone, hbreak, hmark, moreBreaks_spaces hrest, Bool.false_eq_true, if_false]
  rfl

/-! ## Words -/

/-- No word ends in front of a character that is none of a gap, unless it is a colon in front of a
gap. -/
theorem endsWord_cons (hgap : isGap c = false) (hcolon : c = ':' → stopsAt isGap rest = false) :
    endsWord false (c :: rest) = false := by
  by_cases hc : c = ':'
  · have hnext := hcolon hc
    subst hc
    simp [endsWord, hgap, hnext]
  · simp [endsWord, hgap, hc]

theorem endsWord_of_word {front back : List Char} (hfront : ∀ c ∈ front, isGap c = false)
    (hlast : front.getLast? ≠ some ':') (hne : front ≠ []) :
      endsWord false (front ++ back) = false := by
  obtain ⟨c, front, rfl⟩ := List.exists_cons_of_ne_nil hne
  obtain ⟨hc, hmore⟩ := List.forall_mem_cons.mp hfront
  refine endsWord_cons hc ?_
  rintro rfl
  cases front with
  | nil => exact absurd rfl hlast
  | cons d front => exact hmore d List.mem_cons_self

theorem takeWord_append (hword : ∀ c ∈ word, isGap c = false) (hlast : word.getLast? ≠ some ':')
    (hrest : endsWord false rest = true) : takeWord false (word ++ rest) = word := by
  induction word with
  | nil =>
      cases rest with
      | nil => rfl
      | cons c rest => rw [List.nil_append, takeWord, if_pos hrest]
  | cons c word ih =>
      have hgoes : endsWord false ((c :: word) ++ rest) = false :=
        endsWord_of_word hword hlast (List.cons_ne_nil c word)
      have hmore : word.getLast? ≠ some ':' := by
        cases word with
        | nil => simp
        | cons d word => simpa [List.getLast?_cons_cons] using hlast
      rw [List.cons_append] at hgoes ⊢
      rw [takeWord, if_neg (by simp [hgoes]), ih (List.forall_mem_cons.mp hword).2 hmore]

/-! ## Texts of words -/

/-- A text that is read as it was where it is put without quotes, as far as its words go. -/
structure Wordy (text : List Char) : Prop where
  isInline : ∀ c ∈ text, isInline c = true
  ne_tab : ∀ c ∈ text, c ≠ '\t'
  colon : text.IsChain fun a b => (a == ':' && isGap b) = false
  comment : text.IsChain fun a b => (isGap a && b == '#') = false
  last : text.getLast? ≠ some ':' ∧ text.getLast? ≠ some ' '

namespace Wordy

variable {front back : List Char}

theorem of_append (h : Wordy (front ++ back)) : Wordy back where
  isInline c hc := h.isInline c (List.mem_append_right _ hc)
  ne_tab c hc := h.ne_tab c (List.mem_append_right _ hc)
  colon := (List.isChain_append.mp h.colon).2.1
  comment := (List.isChain_append.mp h.comment).2.1
  last := by
    cases back with
    | nil => simp
    | cons c back =>
        have hlast := h.last
        rwa [List.getLast?_append_of_ne_nil _ (List.cons_ne_nil c back)] at hlast

theorem isGap_eq_false (h : Wordy text) (hc : c ∈ text) (hspace : c ≠ ' ') : isGap c = false := by
  have hbreak := isBreak_of_isInline (h.isInline c hc)
  have htab := h.ne_tab c hc
  simp [isGap, isSpaceOrTab, hbreak, hspace, htab]

/-- No word ends with a colon. -/
theorem getLast?_ne (h : Wordy (front ++ back)) (hback : back = [] ∨ back.head? = some ' ') :
    front.getLast? ≠ some ':' := by
  intro hlast
  obtain rfl | hspace := hback
  · rw [List.append_nil] at h
    exact h.last.1 hlast
  · have hbeside := (List.isChain_append.mp h.colon).2.2 _ hlast _ hspace
    exact absurd hbeside (by decide)

/-- No comment begins behind a gap. -/
theorem head?_ne (h : Wordy (front ++ back)) (hfront : front.getLast? = some ' ') :
    back.head? ≠ some '#' := by
  intro hhead
  have hbeside := (List.isChain_append.mp h.comment).2.2 _ hfront _ hhead
  exact absurd hbeside (by decide)

end Wordy

/-! ## Texts read word by word -/

structure Word (word : List Char) : Prop where
  isInline : Inline word
  isGap : ∀ c ∈ word, isGap c = false
  last : word.getLast? ≠ some ':'
  ne_nil : word ≠ []

/-- What a plain text goes on with behind a gap. -/
structure Goes (text : List Char) : Prop where
  word : ∀ rest, endsWord false (text ++ rest) = false
  comment : text.head? ≠ some '#'

theorem Word.goes (h : Word word) (hcomment : word.head? ≠ some '#') (rest : List Char) :
    Goes (word ++ rest) where
  word more := by
    rw [List.append_assoc]
    exact endsWord_of_word h.isGap h.last h.ne_nil
  comment := by
    rw [List.head?_append_of_ne_nil _ h.ne_nil]
    exact hcomment

theorem Goes.first (h : Goes text) (rest : List Char) : stopsAt isFirst (text ++ rest) = true := by
  cases text with
  | nil => exact absurd (h.word []) (by simp [endsWord])
  | cons c text =>
      have hgap : isGap c = false := by
        have hword := h.word []
        by_contra hgap
        rw [Bool.not_eq_false] at hgap
        simp [endsWord, hgap] at hword
      have hcomment : c ≠ '#' := fun hc => h.comment (congrArg some hc)
      simp only [isGap, isSpaceOrTab, Bool.or_eq_false_iff, beq_eq_false_iff_ne] at hgap
      simp [stopsAt, isFirst, hgap, hcomment]

theorem Goes.head? (h : Goes text) (rest : List Char) : (text ++ rest).head? ≠ some '#' := by
  have hfirst := h.first rest
  intro hhead
  cases htext : text ++ rest with
  | nil => simp [htext] at hhead
  | cons c more =>
      obtain rfl : c = '#' := by simpa [htext] using hhead
      simp [htext, stopsAt, isFirst] at hfirst

/-- Two texts begin with the same word, and with nothing more that belongs to a word. -/
def SameFirst (body text : List Char) : Prop :=
  ∃ word more later, Word word ∧ body = word ++ more ∧ text = word ++ later ∧
    stopsAt isGap later = true ∧
      ∀ tail, endsWord false tail = true → endsWord false (more ++ tail) = true

/-- A body is read as a text in front of whatever ends a plain text. -/
def PlainReads (margin : Nat) (body text : List Char) : Prop :=
  ∀ s tail fuel, margin ≤ s.column + 1 → endsWord false tail = true →
    (∀ s, endsAt false margin (takeGap ⟨s, tail⟩) = true) → body.length ≤ fuel →
    readWords false margin fuel ⟨s, body ++ tail⟩ = (text, takeGap ⟨s.after body, tail⟩)

theorem Word.plainReads (h : Word word) (margin : Nat) : PlainReads margin word word := by
  intro s tail fuel _ htail hend hfuel
  have hpos := List.length_pos_iff.mpr h.ne_nil
  obtain ⟨fuel, rfl⟩ : ∃ n, fuel = n + 1 := Nat.exists_eq_succ_of_ne_zero (by omega)
  have htake := takeWord_append h.isGap h.last htail
  rw [readWords]
  simp only [htake, Cursor.skip_append h.isInline.printed, hend, if_true]

namespace PlainReads

/-- A word, a gap that counts as some text, and what comes behind. -/
theorem cons (h : PlainReads margin body text) (hgoes : Goes body) (hword : Word word)
    {between gapText : List Char} {crossed : Bool} (htext : gapText ≠ [])
    (hstart : ∀ rest, endsWord false (between ++ rest) = true)
    (hgap : ∀ s rest, takeGap ⟨s, between ++ (body ++ rest)⟩ =
      ⟨gapText, crossed, ⟨s.after between, body ++ rest⟩⟩)
    (hcolumn : ∀ s : Spot, margin ≤ s.column + 1 →
      margin ≤ ((s.after word).after between).column) :
    PlainReads margin (word ++ (between ++ body)) (word ++ (gapText ++ text)) := by
  intro s tail fuel hs htail hend hfuel
  have hpos := List.length_pos_iff.mpr hword.ne_nil
  rw [List.length_append, List.length_append] at hfuel
  obtain ⟨fuel, rfl⟩ : ∃ n, fuel = n + 1 := Nat.exists_eq_succ_of_ne_zero (by omega)
  have hreach := hcolumn s hs
  have htake : takeWord false (word ++ (between ++ (body ++ tail))) = word :=
    takeWord_append hword.isGap hword.last (hstart _)
  have hnot : endsAt false margin
      ⟨gapText, crossed, ⟨(s.after word).after between, body ++ tail⟩⟩ = false := by
    have hhead : ((body ++ tail).head? == some '#') = false := by simpa using hgoes.head? tail
    have hmargin : ¬ ((s.after word).after between).column < margin := Nat.not_lt.mpr hreach
    simp only [endsAt, Cursor.head?, Cursor.column, hhead, hgoes.word, hmargin]
    simpa using htext
  rw [readWords]
  simp only [List.append_assoc, htake, Cursor.skip_append hword.isInline.printed, hgap, hnot,
    Bool.false_eq_true, if_false]
  rw [h _ tail fuel (by omega) htail hend (by omega)]
  simp only [Spot.after_append]

/-- A word, a row of spaces, and what comes behind. -/
theorem spaces (h : PlainReads margin body text) (hgoes : Goes body) (hword : Word word) {n : Nat}
    (hn : 0 < n) :
    PlainReads margin (word ++ (Yaml.spaces n ++ body)) (word ++ (Yaml.spaces n ++ text)) := by
  obtain ⟨n, rfl⟩ := Nat.exists_eq_succ_of_ne_zero hn.ne'
  refine h.cons hgoes hword (by simp [Yaml.spaces]) (fun _ => rfl)
    (fun s rest => takeGap_spaces (hgoes.first rest) s (n + 1)) ?_
  intro s hs
  have hpos := List.length_pos_iff.mpr hword.ne_nil
  rw [Spot.column_after_spaces, Spot.after_of_inline hword.isInline, Spot.along]
  dsimp only
  omega

/-- A word, a line that was broken at a space, and what comes behind. -/
theorem fold (h : PlainReads margin body text) (hgoes : Goes body) (hword : Word word) {n : Nat}
    (hn : 0 < n) (hmargin : margin ≤ n) :
    PlainReads margin (word ++ ('\n' :: Yaml.spaces n ++ body)) (word ++ (' ' :: text)) := by
  refine h.cons hgoes hword (List.cons_ne_nil ' ' []) (fun _ => rfl)
    (fun s rest => takeGap_line (hgoes.first rest) (atAnyDocumentMark_spaces hn _) s) ?_
  intro s _
  rw [Spot.column_after_line]
  exact hmargin

end PlainReads

/-! ## Pages with plain texts -/

def putWord (broken : Bool) (indent : Nat) (p : Page) (run : List Char) : Page :=
  if broken && p.breaksAt run then (p.indentTo indent).beforeWord else p.put run

variable {p : Page} {broken : Bool} {indent : Nat}

theorem putWord_of_word (hword : ∀ c ∈ word, (c == ' ') = false) (hne : word ≠ []) (p : Page) :
    putWord broken indent p word = p.put word := by
  obtain ⟨c, word, rfl⟩ := List.exists_cons_of_ne_nil hne
  have hc : c ≠ ' ' := by simpa using hword c List.mem_cons_self
  simp [putWord, breaksAt, hc]

/-- A run of spaces is put as it is, or is a single space at which the line is broken. -/
theorem putWord_spaces (broken : Bool) (hroom : indent ≤ pageWidth) (p : Page) (n : Nat) :
    p.Puts (spaces n) (putWord broken indent p (spaces n)) ∨
      n = 1 ∧ p.Puts ('\n' :: spaces indent) (putWord broken indent p (spaces n)) := by
  rw [putWord]
  split
  · next h =>
    obtain ⟨hrun, hput⟩ := puts_indentTo_of_breaksAt (Bool.and_eq_true_iff.mp h).2 hroom
    exact .inr ⟨by simpa using congrArg List.length hrun, hput.beforeWord⟩
  · exact .inl (puts_put (inline_spaces n) p)

theorem endsWord_spaces {m : Nat} (hm : 0 < m) (more : List Char) :
    endsWord false (spaces m ++ more) = true := by
  obtain ⟨m, rfl⟩ := Nat.exists_eq_succ_of_ne_zero hm.ne'
  rfl

theorem stopsAt_spaces {m : Nat} (hm : 0 < m) (more : List Char) :
    stopsAt isGap (spaces m ++ more) = true := by
  obtain ⟨m, rfl⟩ := Nat.exists_eq_succ_of_ne_zero hm.ne'
  rfl

theorem head?_spaces {m : Nat} (hm : 0 < m) (more : List Char) :
    (spaces m ++ more).head? = some ' ' := by
  obtain ⟨m, rfl⟩ := Nat.exists_eq_succ_of_ne_zero hm.ne'
  rfl

theorem getLast?_spaces {m : Nat} (hm : 0 < m) : (spaces m).getLast? = some ' ' := by
  simp [spaces, List.getLast?_replicate, hm.ne']

theorem eq_spaces_of_run {run : List Char} (hne : run ≠ []) (h : ∀ c ∈ run, (c == ' ') = true) :
    ∃ m, 0 < m ∧ run = spaces m :=
  ⟨run.length, List.length_pos_iff.mpr hne,
    List.eq_replicate_of_mem fun c hc => by simpa using h c hc⟩

/-- What is put from a page on for a text, and is read as the text. -/
def Carries (indent : Nat) (p q : Page) (text : List Char) : Prop :=
  ∃ body, p.Puts body q ∧ Goes body ∧ SameFirst body text ∧
    ∀ margin ≤ indent, PlainReads margin body text

/-- A word alone. -/
theorem carries_word (hword : Word word) (hhead : word.head? ≠ some '#') (p : Page) :
    Carries indent p (p.put word) word := by
  refine ⟨word, puts_put hword.isInline p, ?_, ⟨word, [], [], hword, ?_⟩, fun margin _ => ?_⟩
  · simpa using hword.goes hhead []
  · exact ⟨by simp, by simp, rfl, fun _ h => h⟩
  · exact hword.plainReads margin

/-- A word, a row of spaces, and what comes behind. -/
theorem Carries.cons (broken : Bool) (hindent : 0 < indent) (hroom : indent ≤ pageWidth)
    (hword : Word word) (hhead : word.head? ≠ some '#') {m : Nat} (hm : 0 < m) {q : Page}
    (h : Carries indent (putWord broken indent (p.put word) (spaces m)) q text) :
    Carries indent p q (word ++ (spaces m ++ text)) := by
  obtain ⟨body, hbody, hgoes, -, hread⟩ := h
  have hput : p.Puts word (p.put word) := puts_put hword.isInline p
  have hgap := stopsAt_spaces hm text
  obtain hspaces | ⟨rfl, hfold⟩ := putWord_spaces broken hroom (p.put word) m
  · refine ⟨word ++ (spaces m ++ body), hput.trans (hspaces.trans hbody), hword.goes hhead _,
      ⟨word, _, _, hword, rfl, rfl, hgap, fun tail _ => ?_⟩, fun margin hmargin => ?_⟩
    · rw [List.append_assoc]
      exact endsWord_spaces hm _
    · exact (hread margin hmargin).spaces hgoes hword hm
  · refine ⟨word ++ ('\n' :: spaces indent ++ body), hput.trans (hfold.trans hbody),
      hword.goes hhead _, ⟨word, _, _, hword, rfl, rfl, hgap, fun _ _ => rfl⟩,
      fun margin hmargin => ?_⟩
    exact (hread margin hmargin).fold hgoes hword hindent hmargin

/-- What is put of the runs of a plain text is read as the text. -/
theorem carries_foldl_putWord (broken : Bool) (hindent : 0 < indent) (hroom : indent ≤ pageWidth)
    {rs : List (List Char)} (hruns : RunsOf (· == ' ') (some false) rs) (htext : Wordy rs.flatten)
    (hcomment : rs.flatten.head? ≠ some '#') (p : Page) :
    Carries indent p (rs.foldl (putWord broken indent) p) rs.flatten := by
  -- A step takes a word and the spaces behind it, so the induction is on the number of runs.
  induction hn : rs.length using Nat.strong_induction_on generalizing rs p with
  | h n ih =>
    cases hruns with
    | @cons _ next word rest hne hspace hrest hnext =>
      have hwords (hback : rest.flatten = [] ∨ rest.flatten.head? = some ' ') : Word word :=
        ⟨fun c hc => htext.isInline c (List.mem_append_left _ hc),
          fun c hc => htext.isGap_eq_false (List.mem_append_left _ hc) (by simpa using hspace c hc),
          htext.getLast?_ne hback, hne⟩
      have hhead : word.head? ≠ some '#' := by
        rwa [List.flatten_cons, List.head?_append_of_ne_nil _ hne] at hcomment
      rw [List.foldl_cons, putWord_of_word hspace hne]
      cases hrest with
      | nil => simpa using carries_word (hwords (.inl rfl)) hhead p
      | @cons k later run rest hrunne hrun hrest hlater =>
        obtain rfl : k = true := by simpa using hnext
        obtain ⟨m, hm, rfl⟩ := eq_spaces_of_run hrunne hrun
        have hword := hwords (.inr (by rw [List.flatten_cons, head?_spaces hm]))
        have hlater : later = some false := by
          cases later with
          | none =>
              cases hrest
              exact absurd (by simp [getLast?_spaces hm]) htext.last.2
          | some k => cases k <;> simp_all
        rw [hlater] at hrest
        rw [List.length_cons, List.length_cons] at hn
        simp only [List.flatten_cons] at htext ⊢
        have hnext : rest.flatten.head? ≠ some '#' := by
          rw [← List.append_assoc] at htext
          exact htext.head?_ne (by simp [getLast?_spaces hm])
        exact (ih rest.length (by omega) hrest htext.of_append.of_append hnext _ rfl).cons broken
          hindent hroom hword hhead hm

/-! ## Whole plain texts -/

theorem isInline_of_plain (hspecial : isSpecial c = false) (hbreak : isWrittenBreak c = false) :
    isInline c = true ∧ c ≠ '\t' := by
  by_cases hspace : c = ' '
  · subst hspace
    exact ⟨by decide, by decide⟩
  · have hliteral := literal_of_classOf hspecial (by simp [classOf, hspace, hbreak])
    exact ⟨hliteral.isInline, hliteral.ne_tab⟩

theorem wordy_of_allows (h : allowsPlain text = true) :
    Wordy text ∧ beginsWithMark text = false ∧ text.head? ≠ some ' ' := by
  simp only [allowsPlain, allowsSingleQuotes, hasMark, Bool.and_eq_true, Bool.not_eq_true',
    Bool.or_eq_false_iff, List.any_eq_false, Bool.not_eq_true, hasPair_eq_false_iff] at h
  obtain ⟨⟨⟨⟨⟨⟨⟨hspecial, -⟩, -⟩, hbreak⟩, hhead⟩, hlast⟩, hmark⟩, ⟨hcolon, hlastColon⟩,
    hcomment⟩ := h
  have hspace {o : Option Char} (ho : o.any isSpaceOrBreak = false) : o ≠ some ' ' := by
    rintro rfl
    exact absurd ho (by decide)
  exact ⟨⟨fun c hc => (isInline_of_plain (hspecial c hc) (hbreak c hc)).1,
    fun c hc => (isInline_of_plain (hspecial c hc) (hbreak c hc)).2, hcolon, hcomment,
    by simpa using hlastColon, hspace hlast⟩, hmark, hspace hhead⟩

theorem not_leadingMark (h : beginsWithMark (c :: text) = false) :
    leadingMarks.contains c = false := by
  simp only [beginsWithMark, Bool.or_eq_false_iff] at h
  exact h.2.1

theorem puts_lead (p : Page) :
    p.Puts (spaces p.lead) (if p.afterGap then p else p.put [' ']).beforeWord := by
  rw [lead]
  split
  · exact (Puts.refl p).beforeWord
  · exact (puts_put (inline_spaces 1) p).beforeWord

theorem runsOf_plain (hne : text ≠ []) (hspace : text.head? ≠ some ' ') :
    RunsOf (· == ' ') (some false) (runs (· == ' ') text) := by
  obtain ⟨c, rest, rfl⟩ := List.exists_cons_of_ne_nil hne
  have hc : (c == ' ') = false := by simpa using hspace
  have hruns := runsOf_runs (· == ' ') (c :: rest)
  rwa [List.head?_cons, Option.map_some, hc] at hruns

/-- A text that is put without quotes is read back. -/
theorem exists_putPlain (hindent : 0 < indent) (hroom : indent ≤ pageWidth)
    (h : allowsPlain text = true) (hne : text ≠ []) (broken : Bool) (p : Page) : ∃ body,
      p.Puts (spaces p.lead ++ body) (p.putPlain broken indent text) ∧ Goes body ∧
        SameFirst body text ∧ ∀ margin ≤ indent, PlainReads margin body text := by
  obtain ⟨hwordy, hmark, hspace⟩ := wordy_of_allows h
  have hcomment : text.head? ≠ some '#' := by
    obtain ⟨c, rest, rfl⟩ := List.exists_cons_of_ne_nil hne
    rintro hhead
    obtain rfl : c = '#' := by simpa using hhead
    exact absurd (not_leadingMark hmark) (by decide)
  have hflatten := flatten_runs (· == ' ') text
  rw [← hflatten] at hwordy hcomment
  obtain ⟨body, hbody, hgoes, hfirst, hread⟩ := carries_foldl_putWord broken hindent hroom
    (runsOf_plain hne hspace) hwordy hcomment (if p.afterGap then p else p.put [' ']).beforeWord
  rw [hflatten] at hfirst hread
  exact ⟨body, (puts_lead p).trans hbody, hgoes, hfirst, hread⟩

/-- Without breaks, a text is put on its line as a whole. -/
theorem foldl_putWord_unbroken (rs : List (List Char)) (indent : Nat) (p : Page) :
    rs.foldl (putWord false indent) p = p.put rs.flatten := by
  induction rs generalizing p with
  | nil => rfl
  | cons run rs ih =>
      rw [List.foldl_cons, ih, List.flatten_cons, ← put_put]
      rfl

theorem inMargin_foldl_putWord (rs : List (List Char)) (broken : Bool) (indent : Nat)
    (h : p.inMargin = false) : (rs.foldl (putWord broken indent) p).inMargin = false := by
  induction rs generalizing p with
  | nil => exact h
  | cons run rs ih =>
      refine ih ?_
      rw [putWord]
      split
      · rfl
      · exact h

end Plain

end Dialogue.Yaml
