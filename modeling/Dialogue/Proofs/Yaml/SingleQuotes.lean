import Dialogue.Proofs.Yaml.DoubleQuotes

/-! A text that may stand between single quotes is read back as it was, unless a next line character
is in it. -/

namespace Dialogue.Yaml

open Page

/-! ## Pairs -/

namespace Style

theorem hasPair_eq_false_iff (p q : Char → Bool) (text : List Char) :
    hasPair p q text = false ↔ text.IsChain fun a b => (p a && q b) = false := by
  induction text with
  | nil => simp [hasPair]
  | cons a text ih =>
      cases text with
      | nil => simp [hasPair]
      | cons b text => rw [hasPair, Bool.or_eq_false_iff, ih, List.isChain_cons_cons]

/-- What may stand between single quotes, its next line characters apart. -/
structure Quotable (text : List Char) : Prop where
  special : ∀ c ∈ text, isSpecial c = false
  nextLine : '\x85' ∉ text
  spaceBreak : text.IsChain fun a b => (a == ' ' && isWrittenBreak b) = false
  breakSpace : text.IsChain fun a b => (isWrittenBreak a && b == ' ') = false

variable {text front back : List Char} {c : Char}

theorem quotable_of_allows (h : allowsSingleQuotes text = true) (hnext : '\x85' ∉ text) :
    Quotable text := by
  simp only [allowsSingleQuotes, Bool.and_eq_true, Bool.not_eq_true', List.any_eq_false,
    Bool.not_eq_true] at h
  obtain ⟨⟨hspecial, hspace⟩, hbreak⟩ := h
  exact ⟨hspecial, hnext, (hasPair_eq_false_iff ..).mp hspace, (hasPair_eq_false_iff ..).mp hbreak⟩

theorem Quotable.of_append (h : Quotable (front ++ back)) : Quotable back :=
  ⟨fun c hc => h.special c (List.mem_append_right _ hc),
    fun hc => h.nextLine (List.mem_append_right _ hc),
    (List.isChain_append.mp h.spaceBreak).2.1, (List.isChain_append.mp h.breakSpace).2.1⟩

/-- A character that stands for itself between single quotes, unless it is the quote. -/
structure Literal (c : Char) : Prop where
  isInline : isInline c = true
  ne_space : c ≠ ' '
  ne_tab : c ≠ '\t'

theorem literal_of_classOf (hspecial : isSpecial c = false) (hclass : classOf c = .other) :
    Literal c := by
  have hspace : c ≠ ' ' := by
    rintro rfl
    exact absurd hclass (by decide)
  have hbreak : isWrittenBreak c = false := by
    by_contra hbreak
    rw [Bool.not_eq_false] at hbreak
    simp [classOf, hspace, hbreak] at hclass
  simp only [isSpecial, List.contains_cons, List.contains_nil, Bool.not_eq_false', Bool.and_eq_true,
    Bool.or_eq_true, Bool.not_eq_true', Bool.or_eq_false_iff, decide_eq_true_eq, beq_iff_eq,
    beq_eq_false_iff_ne, ne_eq, eq_iff_toNat_eq, le_iff_toNat_le, Char.reduceToNat] at hspecial
  simp only [isWrittenBreak, Bool.or_eq_false_iff, beq_eq_false_iff_ne, ne_eq, eq_iff_toNat_eq,
    Char.reduceToNat] at hbreak
  have hvalid := toNat_lt_or_gt c
  refine ⟨?_, hspace, ?_⟩
  · rw [isInline, Bool.and_eq_true, Bool.not_eq_true', isPrinted_iff, ← Bool.not_eq_true,
      isBreak_iff]
    omega
  · rw [ne_eq, eq_iff_toNat_eq]
    simp only [Char.reduceToNat]
    omega

/-- A line end that is read as it was written. -/
structure KeptBreak (c : Char) : Prop where
  isPrinted : isPrinted c = true
  isBreak : isBreak c = true
  breakChar_eq : breakChar c = c

theorem KeptBreak.ne_return (h : KeptBreak c) : c ≠ '\r' :=
  ne_return_of_isPrinted h.isPrinted

theorem isWrittenBreak_of_classOf (hclass : classOf c = .lineEnd) : isWrittenBreak c = true := by
  by_contra hbreak
  rw [classOf, if_neg hbreak] at hclass
  split at hclass <;> nomatch hclass

theorem keptBreak_of_classOf (hnext : c ≠ '\x85') (hclass : classOf c = .lineEnd) :
    KeptBreak c := by
  have hbreak := isWrittenBreak_of_classOf hclass
  simp only [isWrittenBreak, Bool.or_eq_true, beq_iff_eq, hnext, or_false] at hbreak
  obtain (rfl | rfl) | rfl := hbreak <;> exact ⟨by decide, by decide, by decide⟩

theorem eq_space_of_classOf (hclass : classOf c = .space) : c = ' ' := by
  by_contra hspace
  have hne : (c == ' ') = false := by simpa using hspace
  rw [classOf, hne] at hclass
  split at hclass
  · exact absurd ‹_› Bool.false_ne_true
  · split at hclass <;> nomatch hclass

end Style

namespace Quoted

open Style

variable {g : Gap} {c : Char} {text body rest : List Char}

/-! ## Characters between single quotes -/

theorem readSingle_literal (h : Literal c) (hquote : c ≠ '\'') (g : Gap) (s : Spot)
    (rest : List Char) : readSingle g s (c :: rest) =
      prepend (g.text ++ [c]) (readSingle .none (s.after [c]) rest) := by
  have hstep := Spot.step_eq_after (isPrinted_of_isInline h.isInline) s rest
  have hbreak := isBreak_of_isInline h.isInline
  rw [readSingle]
  · simp [hquote, isSpaceOrTab, h.ne_space, h.ne_tab, endsLine, hbreak, hstep]
  · intros
    simp_all

theorem readSingle_quote (g : Gap) (s : Spot) (rest : List Char) :
    readSingle g s ('\'' :: '\'' :: rest) =
      prepend (g.text ++ ['\'']) (readSingle .none (s.after ['\'', '\'']) rest) := by
  have hstep (s : Spot) := Spot.step_eq_after (show isPrinted '\'' = true by decide) s rest
  rw [readSingle, hstep, hstep, ← Spot.after_append]
  rfl

theorem readSingle_space (g : Gap) (s : Spot) (rest : List Char) :
    readSingle g s (' ' :: rest) = readSingle (g.blank ' ') (s.after [' ']) rest := by
  rw [readSingle]
  · simp [isSpaceOrTab, Spot.step_eq_after (show isPrinted ' ' = true by decide)]
  · simp

theorem readSingle_close (hrest : rest.head? ≠ some '\'') (g : Gap) (s : Spot) :
    readSingle g s ('\'' :: rest) = .ok (g.text, ⟨s.after ['\''], rest⟩) := by
  rw [readSingle]
  · simp [Spot.step_eq_after (show isPrinted '\'' = true by decide)]
  · rintro later - rfl
    exact hrest rfl

theorem readSingle_break (h : KeptBreak c) (hmark : atAnyDocumentMark rest = false) (g : Gap)
    (s : Spot) : readSingle g s (c :: rest) = readSingle (g.line c) (s.after [c]) rest := by
  have hquote : c ≠ '\'' := by
    rintro rfl
    exact absurd h.isBreak (by decide)
  have hblank : isSpaceOrTab c = false := by
    by_contra hblank
    simp only [isSpaceOrTab, Bool.not_eq_false, Bool.or_eq_true, beq_iff_eq] at hblank
    obtain rfl | rfl := hblank <;> exact absurd h.isBreak (by decide)
  rw [readSingle]
  · simp [hquote, hblank, endsLine_of_ne h.ne_return, h.isBreak, hmark,
      Spot.step_eq_after h.isPrinted]
  · intros
    simp_all

/-! ## Line ends between single quotes -/

/-- A text at whose front no mark of a document can be, however it goes on. -/
theorem atAnyDocumentMark_breaks {breaks : List Char} (h : ∀ c ∈ breaks, KeptBreak c) {n : Nat}
    (hn : 0 < n) (rest : List Char) : atAnyDocumentMark (breaks ++ (spaces n ++ rest)) = false := by
  cases breaks with
  | nil =>
      obtain ⟨n, rfl⟩ := Nat.exists_eq_succ_of_ne_zero hn.ne'
      exact atAnyDocumentMark_cons (by decide) (by decide) _
  | cons c breaks =>
      have hc := (h c List.mem_cons_self).isBreak
      refine atAnyDocumentMark_cons ?_ ?_ _ <;> rintro rfl <;> exact absurd hc (by decide)

theorem readSingle_indentation (first : Option Char) (more : List Char) (n : Nat) (s : Spot)
    (rest : List Char) : readSingle (.lines first more) s (spaces n ++ rest) =
      readSingle (.lines first more) (s.after (spaces n)) rest := by
  induction n generalizing s with
  | zero => rfl
  | succ n ih =>
      rw [spaces, List.replicate_succ, List.cons_append, readSingle_space, Spot.after_cons]
      exact ih _

theorem readSingle_breaks {breaks : List Char} (h : ∀ c ∈ breaks, KeptBreak c) {n : Nat}
    (hn : 0 < n)
    (first : Option Char) (more : List Char) (s : Spot) (rest : List Char) :
    readSingle (.lines first more) s (breaks ++ (spaces n ++ rest)) =
      readSingle (.lines first (breaks.reverse ++ more)) (s.after (breaks ++ spaces n)) rest := by
  induction breaks generalizing more s with
  | nil => exact readSingle_indentation first more n s rest
  | cons c breaks ih =>
      obtain ⟨hc, hbreaks⟩ := List.forall_mem_cons.mp h
      have hmark := atAnyDocumentMark_breaks hbreaks hn rest
      rw [List.cons_append, readSingle_break hc hmark, Gap.line, hc.breakChar_eq, ih hbreaks]
      simp [Spot.after_cons]

/-! ## Texts between single quotes -/

/-- A body is read behind a gap as a text, as far as the closing quote. -/
def SingleReads (g : Gap) (body text : List Char) : Prop :=
  ∀ s rest, rest.head? ≠ some '\'' → readSingle g s (body ++ '\'' :: rest) =
    .ok (g.text ++ text, ⟨s.after (body ++ ['\'']), rest⟩)

namespace SingleReads

theorem nil (g : Gap) : SingleReads g [] [] := by
  intro s rest hrest
  rw [List.append_nil]
  exact readSingle_close hrest g s

theorem char (h : SingleReads .none body text) (hc : Literal c) (g : Gap) :
    SingleReads g (doubleQuote c ++ body) (c :: text) := by
  intro s rest hrest
  by_cases hquote : c = '\''
  · subst hquote
    refine (readSingle_quote g s (body ++ '\'' :: rest)).trans ?_
    rw [h _ rest hrest]
    simp [prepend, doubleQuote, Gap.none, Gap.text, Spot.after_cons]
  · have hdouble : doubleQuote c = [c] := by simp [doubleQuote, hquote]
    rw [hdouble]
    refine (readSingle_literal hc hquote g s (body ++ '\'' :: rest)).trans ?_
    rw [h _ rest hrest]
    simp [prepend, Gap.none, Gap.text, Spot.after_cons]

theorem literals {run : List Char} (h : SingleReads .none body text) (hrun : ∀ c ∈ run, Literal c)
    (hne : run ≠ []) (g : Gap) : SingleReads g (run.flatMap doubleQuote ++ body) (run ++ text) := by
  induction run generalizing g with
  | nil => exact absurd rfl hne
  | cons c run ih =>
      obtain ⟨hc, hrun⟩ := List.forall_mem_cons.mp hrun
      rw [List.flatMap_cons, List.append_assoc]
      by_cases hnil : run = []
      · subst hnil
        exact h.char hc g
      · exact (ih hrun hnil .none).char hc g

/-- A space stays in the gap until it is known what comes behind. -/
theorem space {blanks : List Char} (h : SingleReads (.blanks (' ' :: blanks)) body text) :
    SingleReads (.blanks blanks) (' ' :: body) (' ' :: text) := by
  intro s rest hrest
  rw [List.cons_append, readSingle_space]
  refine (h _ rest hrest).trans ?_
  simp [Gap.text, Spot.after_cons]

/-- A run of spaces in front of something that any gap may be in front of. -/
theorem spaces {run : List Char} (h : ∀ g, SingleReads g body text) (hrun : ∀ c ∈ run, c = ' ')
    (blanks : List Char) : SingleReads (.blanks blanks) (run ++ body) (run ++ text) := by
  induction run generalizing blanks with
  | nil => exact h _
  | cons c run ih =>
      obtain ⟨rfl, hspaces⟩ := List.forall_mem_cons.mp hrun
      exact (ih hspaces _).space

/-- Line ends in a row, and the indentation behind them. -/
theorem lines {b : Char} {bs : List Char} {n : Nat} (h : ∀ g, SingleReads g body text)
    (hkept : ∀ c ∈ b :: bs, KeptBreak c) (hn : 0 < n) :
    SingleReads .none (b :: bs ++ Yaml.spaces n ++ body) (foldBreaks b bs ++ text) := by
  intro s rest hrest
  obtain ⟨hb, hbs⟩ := List.forall_mem_cons.mp hkept
  have hmark := atAnyDocumentMark_breaks hbs hn (body ++ '\'' :: rest)
  have hread := readSingle_break hb hmark .none s
  rw [Gap.none, Gap.line, readSingle_breaks hbs hn, h _ _ rest hrest, hb.breakChar_eq] at hread
  rw [List.cons_append, List.cons_append, List.cons_append, List.append_assoc, List.append_assoc]
  refine hread.trans ?_
  simp [Gap.none, Gap.text, Spot.after_cons, Spot.after_append]

theorem fold {n : Nat} (h : ∀ g, SingleReads g body text) (hn : 0 < n) :
    SingleReads .none ('\n' :: Yaml.spaces n ++ body) (' ' :: text) := by
  have hfeed : ∀ c ∈ ['\n'], KeptBreak c := by
    rintro c hc
    obtain rfl := List.mem_singleton.mp hc
    exact ⟨by decide, by decide, by decide⟩
  exact lines h hfeed hn

/-- What is put of a run of line ends: one more line feed in front of line feeds. -/
theorem breaks {run : List Char} {n : Nat} (h : ∀ g, SingleReads g body text)
    (hrun : ∀ c ∈ run, KeptBreak c) (hne : run ≠ []) (hn : 0 < n) :
    SingleReads .none ((if run.head? = some '\n' then ['\n'] else []) ++ run ++
      Yaml.spaces n ++ body)
      (run ++ text) := by
  obtain ⟨b, bs, rfl⟩ := List.exists_cons_of_ne_nil hne
  by_cases hfeed : b = '\n'
  · subst hfeed
    have hread := lines h (List.forall_mem_cons.mpr ⟨hrun _ List.mem_cons_self, hrun⟩) hn
    simpa [foldBreaks] using hread
  · have hread := lines h hrun hn
    simpa [foldBreaks, hfeed] using hread

end SingleReads

/-! ## Pages with texts between single quotes -/

theorem puts_breakLines {run : List Char} (hrun : ∀ c ∈ run, KeptBreak c) (p : Page) :
    p.Puts run (run.foldl breakLine p) := by
  induction run generalizing p with
  | nil => exact .refl p
  | cons c run ih =>
      obtain ⟨hc, hrun⟩ := List.forall_mem_cons.mp hrun
      exact (puts_breakLine hc.isPrinted hc.isBreak p).trans (ih hrun _)

theorem breakLines_eq {run : List Char} (hne : run ≠ []) (p : Page) :
    run.foldl breakLine p = { written := run.reverse ++ p.written } := by
  induction run generalizing p with
  | nil => exact absurd rfl hne
  | cons c run ih =>
      by_cases hnil : run = []
      · subst hnil
        rfl
      · rw [List.foldl_cons, ih hnil]
        simp [breakLine]

theorem puts_putBreaks {run : List Char} (hrun : ∀ c ∈ run, KeptBreak c) (hne : run ≠ []) (p : Page)
    (indent : Nat) : p.Puts
      ((if run.head? = some '\n' then ['\n'] else []) ++ run ++ Yaml.spaces indent)
      (p.putBreaks indent run) := by
  have hmore (p : Page) : p.Puts (run ++ Yaml.spaces indent)
    ((run.foldl breakLine p).indentTo indent) := by
    have hlines := puts_breakLines hrun p
    rw [breakLines_eq hne] at hlines ⊢
    exact hlines.trans (puts_indentTo_of_line _ indent)
  by_cases hfeed : run.head? = some '\n'
  · have hput := (puts_breakLine (by decide) (by decide) p).trans (hmore (p.breakLine '\n'))
    simpa [putBreaks, hfeed] using hput
  · simpa [putBreaks, hfeed] using hmore p

theorem inline_doubleQuote {run : List Char} (hrun : ∀ c ∈ run, isInline c = true) :
    Inline (run.flatMap doubleQuote) := by
  intro d hd
  obtain ⟨c, hc, hd⟩ := List.mem_flatMap.mp hd
  rw [doubleQuote] at hd
  split at hd
  · have : d = '\'' := by simpa using hd
    subst this
    decide
  · obtain rfl := List.mem_singleton.mp hd
    exact hrun d hc

/-- The class that comes behind a run, if it is known what may not stand beside it. -/
theorem next_ne {f q : Char → Bool} {k : CharClass} {next : Option CharClass} {run : List Char}
    {runs : List (List Char)}
      (hchain : (run ++ runs.flatten).IsChain fun a b => (f a && q b) = false)
    (hruns : RunsOf classOf next runs) (hne : run ≠ []) (hf : ∀ c ∈ run, f c = true)
    (hq : ∀ c, classOf c = k → q c = true) : next ≠ some k := by
  rintro rfl
  obtain ⟨d, hd, hclass⟩ := Option.map_eq_some_iff.mp hruns.flatten_head
  have hbeside := (List.isChain_append.mp hchain).2.2 _ (List.getLast?_eq_some_getLast hne) d hd
  rw [hf _ (List.getLast_mem hne), hq d hclass] at hbeside
  exact absurd hbeside (by decide)

/-- What is put of the runs of a text is read as the text; behind any gap, if the text does not
begin with one. -/
def RunsRead (broken : Bool) (indent : Nat) (k : Option CharClass) (rs : List (List Char)) : Prop :=
  ∀ (first : Bool) (p : Page), ∃ body, p.Puts body (putRuns broken indent first rs p) ∧
    SingleReads .none body rs.flatten ∧
    (k ≠ some .space → k ≠ some .lineEnd → ∀ g, SingleReads g body rs.flatten)

section Runs

variable {broken : Bool} {indent : Nat} {next : Option CharClass} {run : List Char}
  {rest : List (List Char)}

theorem head?_of_classOf {k : CharClass} (hne : run ≠ []) (hrun : ∀ c ∈ run, classOf c = k) :
    run.head?.map classOf = some k := by
  obtain ⟨c, run, rfl⟩ := List.exists_cons_of_ne_nil hne
  exact congrArg some (hrun c List.mem_cons_self)

/-- A single space may become a line end, which is read as a space. -/
theorem RunsRead.spaces (h : RunsRead broken indent next rest) (hindent : 0 < indent)
    (hroom : indent ≤ pageWidth) (hne : run ≠ []) (hrun : ∀ c ∈ run, classOf c = .space)
    (hspace : next ≠ some .space) (hbreak : next ≠ some .lineEnd) :
    RunsRead broken indent (some .space) (run :: rest) := by
  intro first p
  have hspaces : ∀ c ∈ run, c = ' ' := fun c hc => eq_space_of_classOf (hrun c hc)
  have hinline : Inline run := fun c hc => by
    rw [hspaces c hc]
    decide
  rw [putRuns, List.flatten_cons, head?_of_classOf hne hrun]
  dsimp only
  split
  · next hfold =>
    obtain ⟨rfl, hput⟩ := puts_indentTo_of_breaksAt (Bool.and_eq_true_iff.mp hfold).2 hroom
    obtain ⟨body, hbody, -, hread⟩ := h false (p.indentTo indent)
    exact ⟨_, hput.trans hbody, SingleReads.fold (hread hspace hbreak) hindent,
      fun h => absurd rfl h⟩
  · obtain ⟨body, hbody, -, hread⟩ := h false (p.put run)
    exact ⟨_, (puts_put hinline p).trans hbody,
      SingleReads.spaces (hread hspace hbreak) hspaces [], fun h => absurd rfl h⟩

theorem RunsRead.lineEnds (h : RunsRead broken indent next rest) (hindent : 0 < indent)
    (hne : run ≠ []) (hrun : ∀ c ∈ run, classOf c = .lineEnd) (hkept : ∀ c ∈ run, KeptBreak c)
    (hspace : next ≠ some .space) (hbreak : next ≠ some .lineEnd) :
    RunsRead broken indent (some .lineEnd) (run :: rest) := by
  intro first p
  obtain ⟨body, hbody, -, hread⟩ := h false (p.putBreaks indent run)
  rw [putRuns, List.flatten_cons, head?_of_classOf hne hrun]
  exact ⟨_, (puts_putBreaks hkept hne p indent).trans hbody,
    SingleReads.breaks (hread hspace hbreak) hkept hne hindent, fun _ h => absurd rfl h⟩

theorem RunsRead.literals (h : RunsRead broken indent next rest) (hne : run ≠ [])
    (hrun : ∀ c ∈ run, classOf c = .other) (hliteral : ∀ c ∈ run, Literal c) :
    RunsRead broken indent (some .other) (run :: rest) := by
  intro first p
  obtain ⟨body, hbody, hread, -⟩ := h false (p.put (run.flatMap doubleQuote))
  have hput := puts_put (inline_doubleQuote fun c hc => (hliteral c hc).isInline) p
  rw [putRuns, List.flatten_cons, head?_of_classOf hne hrun]
  exact ⟨_, hput.trans hbody, hread.literals hliteral hne .none,
    fun _ _ => hread.literals hliteral hne⟩

end Runs

theorem runsRead_of_quotable (broken : Bool) {indent : Nat} (hindent : 0 < indent)
    (hroom : indent ≤ pageWidth) {k : Option CharClass} {rs : List (List Char)}
    (hruns : RunsOf classOf k rs) (htext : Quotable rs.flatten) : RunsRead broken indent k rs := by
  induction hruns with
  | nil => exact fun _ p => ⟨[], .refl p, .nil _, fun _ _ => .nil⟩
  | @cons k next run rest hne hrun hrest hnext ih =>
      have hread := ih htext.of_append
      cases k with
      | space =>
          have hbreak : next ≠ some .lineEnd := next_ne htext.spaceBreak hrest hne
            (fun c hc => by simp [eq_space_of_classOf (hrun c hc)])
            (fun c hc => isWrittenBreak_of_classOf hc)
          exact hread.spaces hindent hroom hne hrun hnext hbreak
      | lineEnd =>
          have hkept : ∀ c ∈ run, KeptBreak c := fun c hc =>
            keptBreak_of_classOf
              (fun hnel => htext.nextLine (List.mem_append_left _ (hnel ▸ hc))) (hrun c hc)
          have hspace : next ≠ some .space := next_ne htext.breakSpace hrest hne
            (fun c hc => isWrittenBreak_of_classOf (hrun c hc))
            (fun c hc => by simp [eq_space_of_classOf hc])
          exact hread.lineEnds hindent hne hrun hkept hspace hnext
      | other =>
          exact hread.literals hne hrun fun c hc =>
            literal_of_classOf (htext.special c (List.mem_append_left _ hc)) (hrun c hc)

/-- A text that is put between single quotes is read back. -/
theorem exists_putSingleQuoted {indent : Nat} (hindent : 0 < indent) (hroom : indent ≤ pageWidth)
    (htext : Quotable text) (broken : Bool) (p : Page) : ∃ body,
      p.Puts (Yaml.spaces p.lead ++ body) (p.putSingleQuoted broken indent text) ∧
        QuotedAs body text := by
  have hruns := runsOf_runs classOf text
  rw [← flatten_runs classOf text] at htext
  obtain ⟨body, hbody, hread, -⟩ :=
    runsRead_of_quotable broken hindent hroom hruns htext true (p.mark '\'' false)
  rw [flatten_runs] at hread
  refine ⟨'\'' :: (body ++ ['\'']), ?_, .inl rfl, fun s rest hrest => ?_⟩
  · have hquote : Inline ['\''] := inline_cons.mpr ⟨by decide, inline_nil⟩
    have hput := ((puts_mark (by decide) p false).trans hbody).closing hquote
    simpa [putSingleQuoted] using hput
  · have hnext : (Cursor.mk s ('\'' :: (body ++ '\'' :: rest))).next =
        ⟨s.after ['\''], body ++ '\'' :: rest⟩ := Cursor.next_of_printed (by decide) s _
    have hread := hread (s.after ['\'']) rest hrest
    rw [← Spot.after_append] at hread
    simp only [List.cons_append, List.append_assoc, List.nil_append] at hread ⊢
    rw [Quoted.read, hnext]
    exact hread

theorem flatMap_doubleQuote_spaces {run : List Char} (h : ∀ c ∈ run, c = ' ') :
    run.flatMap doubleQuote = run := by
  induction run with
  | nil => rfl
  | cons c run ih =>
      obtain ⟨rfl, hrun⟩ := List.forall_mem_cons.mp h
      rw [List.flatMap_cons, ih hrun]
      rfl

/-- Without line ends, a text is put on its line as a whole. -/
theorem putRuns_unbroken {k : Option CharClass} {rs : List (List Char)}
    (hruns : RunsOf classOf k rs)
    (hbreak : ∀ c ∈ rs.flatten, isWrittenBreak c = false) (indent : Nat) (first : Bool) (p : Page) :
    putRuns false indent first rs p = p.put (rs.flatten.flatMap doubleQuote) := by
  induction hruns generalizing first p with
  | nil => rfl
  | @cons k next run rest hne hrun hrest hnext ih =>
      rw [List.flatten_cons] at hbreak ⊢
      obtain ⟨hrunbreak, hrestbreak⟩ := List.forall_mem_append.mp hbreak
      rw [putRuns, ih hrestbreak, List.flatMap_append, ← put_put]
      have hhead : run.head?.map classOf = some k := by
        obtain ⟨c, run, rfl⟩ := List.exists_cons_of_ne_nil hne
        exact congrArg some (hrun c List.mem_cons_self)
      rw [hhead]
      cases k with
      | space =>
          rw [flatMap_doubleQuote_spaces fun c hc => eq_space_of_classOf (hrun c hc)]
          rfl
      | lineEnd =>
          obtain ⟨c, hc⟩ := List.exists_mem_of_ne_nil run hne
          have hwritten := isWrittenBreak_of_classOf (hrun c hc)
          rw [hrunbreak c hc] at hwritten
          exact absurd hwritten Bool.false_ne_true
      | other => rfl

end Quoted

end Dialogue.Yaml
