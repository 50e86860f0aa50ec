import Dialogue.Proofs.Yaml.Places
import Dialogue.Yaml.Writer
import Mathlib.Data.List.SplitBy

/-! The characters that a step of writing puts on a page, and the column that it comes to: the one
that reading the characters comes to. -/

namespace Dialogue.Yaml.Page

/-- The page becomes another one by some characters. -/
structure Puts (p : Page) (chunk : List Char) (p' : Page) : Prop where
  written : p'.written = chunk.reverse ++ p.written
  printed : Printed chunk
  column : ∀ s : Spot, s.column = p.column → (s.after chunk).column = p'.column

variable {p p' p'' : Page} {chunk later : List Char} {c : Char} {n : Nat}

namespace Puts

theorem refl (p : Page) : p.Puts [] p :=
  ⟨rfl, printed_nil, fun _ h => h⟩

theorem trans (h : p.Puts chunk p') (h' : p'.Puts later p'') : p.Puts (chunk ++ later) p'' where
  written := by rw [h'.written, h.written, List.reverse_append, List.append_assoc]
  printed := printed_append.mpr ⟨h.printed, h'.printed⟩
  column := by
    intro s hs
    rw [Spot.after_append]
    exact h'.column _ (h.column s hs)

theorem text (h : p.Puts chunk p') : p'.text = p.text ++ chunk := by
  rw [Page.text, Page.text, h.written, List.reverse_append, List.reverse_reverse]

end Puts

/-- The column behind characters that end no line. -/
theorem Puts.column_eq (h : p.Puts chunk p') (hchunk : Inline chunk) :
    p'.column = p.column + chunk.length := by
  have hcolumn := h.column ⟨0, 0, p.column⟩ rfl
  rw [Spot.after_of_inline hchunk] at hcolumn
  exact hcolumn.symm

theorem puts_put (hchunk : Inline chunk) (p : Page) : p.Puts chunk (p.put chunk) where
  written := rfl
  printed := hchunk.printed
  column := by
    intro s hs
    rw [Spot.after_of_inline hchunk, Spot.along, hs]
    rfl

theorem puts_breakLine (hprinted : isPrinted c = true) (hbreak : isBreak c = true) (p : Page) :
    p.Puts [c] (p.breakLine c) where
  written := rfl
  printed := printed_cons.mpr ⟨hprinted, printed_nil⟩
  column := by
    intro s _
    rw [Spot.after_cons, Spot.after_nil, Spot.step,
      endsLine_of_ne (ne_return_of_isPrinted hprinted),
      if_pos hbreak]
    rfl

theorem Puts.beforeWord (h : p.Puts chunk p') : p.Puts chunk p'.beforeWord :=
  ⟨h.written, h.printed, h.column⟩

theorem Puts.closing (h : p.Puts chunk p') (hlater : Inline later) :
    p.Puts (chunk ++ later) (p'.closing later) :=
  (h.trans (puts_put hlater p')).beforeWord

theorem put_put (p : Page) (chunk later : List Char) :
    (p.put chunk).put later = p.put (chunk ++ later) := by
  simp [put, Nat.add_assoc]

/-! ## Indentation -/

/-- Behind a word, or beyond the column, indentation is on a new line. -/
theorem indentTo_of_word (h : p.inMargin = false ∨ n < p.column) : p.indentTo n =
    { written := spaces n ++ '\n' :: p.written, column := n } := by
  have hbreak : (!p.inMargin || decide (n < p.column) || (p.column == n && !p.afterGap)) =
    true := by
    rcases h with h | h <;> simp [h]
  rw [indentTo]
  simp only [hbreak, if_true]
  cases n with
  | zero => simp [breakLine, spaces]
  | succ n => simp [breakLine, spaces, put]

theorem puts_indentTo_of_word (h : p.inMargin = false ∨ n < p.column) :
    p.Puts ('\n' :: spaces n) (p.indentTo n) := by
  rw [indentTo_of_word h]
  refine ⟨by simp [spaces], printed_line n, fun s _ => Spot.column_after_line s n⟩

theorem puts_indentTo_of_breaksAt {run : List Char} (h : p.breaksAt run = true)
    (hroom : n ≤ pageWidth) : run = [' '] ∧ p.Puts ('\n' :: spaces n) (p.indentTo n) := by
  simp only [breaksAt, Bool.and_eq_true, beq_iff_eq, decide_eq_true_eq] at h
  exact ⟨h.1, puts_indentTo_of_word (.inr (Nat.lt_of_le_of_lt hroom h.2))⟩

/-- Within the indentation, there is one space behind a mark. -/
theorem indentTo_of_mark (hmargin : p.inMargin = true) (hcolumn : p.column + 1 = n) :
    p.indentTo n = { written := ' ' :: p.written, column := n } := by
  have hstays : (!p.inMargin || decide (n < p.column) || (p.column == n && !p.afterGap)) =
    false := by
    have hle : ¬ n < p.column := by omega
    have hne : ¬ p.column = n := by omega
    simp [hmargin, hle, hne]
  have hlt : p.column < n := by omega
  have hone : n - p.column = 1 := by omega
  simp only [indentTo, hstays, Bool.false_eq_true, if_false, hlt, if_true, hone]
  simp [put, hmargin, hcolumn]

theorem puts_indentTo_of_mark (hmargin : p.inMargin = true) (hcolumn : p.column + 1 = n) :
    p.Puts (spaces 1) (p.indentTo n) := by
  rw [indentTo_of_mark hmargin hcolumn]
  refine ⟨rfl, (inline_spaces 1).printed, fun s hs => ?_⟩
  rw [Spot.column_after_spaces, hs, hcolumn]

/-- At the beginning of a line there is nothing but the indentation. -/
theorem indentTo_of_line (written : List Char) (n : Nat) :
    ({ written } : Page).indentTo n = { written := spaces n ++ written, column := n } := by
  cases n with
  | zero => simp [indentTo, spaces]
  | succ n => simp [indentTo, spaces, put]

theorem puts_indentTo_of_line (written : List Char) (n : Nat) :
    ({ written } : Page).Puts (spaces n) (({ written } : Page).indentTo n) := by
  rw [indentTo_of_line]
  refine ⟨by simp [spaces], (inline_spaces n).printed, fun s hs => ?_⟩
  rw [Spot.column_after_spaces, hs]
  exact Nat.zero_add n

/-! ## Marks -/

/-- The number of spaces in front of the next word. -/
def lead (p : Page) : Nat :=
  if p.afterGap then 0 else 1

theorem puts_mark (hc : isInline c = true) (p : Page) (ofMargin : Bool) :
    p.Puts (spaces p.lead ++ [c]) (p.mark c ofMargin) := by
  have hput : p.Puts (spaces p.lead ++ [c]) (p.put (spaces p.lead ++ [c])) :=
    puts_put (inline_append.mpr ⟨inline_spaces _, inline_cons.mpr ⟨hc, inline_nil⟩⟩) p
  have hmark : p.mark c ofMargin = { p.put (spaces p.lead ++ [c]) with
      afterGap := false, inMargin := p.inMargin && ofMargin } := by
    cases h : p.afterGap <;> simp [mark, lead, h, spaces, put]
  rw [hmark]
  exact ⟨hput.written, hput.printed, hput.column⟩

theorem column_mark (p : Page) (c : Char) (ofMargin : Bool) :
    (p.mark c ofMargin).column = p.column + p.lead + 1 := by
  cases h : p.afterGap <;> simp [mark, lead, h, put]

theorem inMargin_mark (p : Page) (c : Char) (ofMargin : Bool) :
    (p.mark c ofMargin).inMargin = (p.inMargin && ofMargin) := by
  cases h : p.afterGap <;> simp [mark, h, put]

/-! ## Runs -/

section Runs

variable {α : Type} {cls : Char → α}

/-- Rows of characters, each of one class and in front of a row of another, and the class of the
first row. -/
inductive RunsOf (cls : Char → α) : Option α → List (List Char) → Prop
  | nil : RunsOf cls none []
  | cons {k : α} {next : Option α} {run : List Char} {rest : List (List Char)} :
      run ≠ [] → (∀ c ∈ run, cls c = k) → RunsOf cls next rest → next ≠ some k →
      RunsOf cls (some k) (run :: rest)

theorem RunsOf.flatten_head {k : Option α} {rs : List (List Char)} (h : RunsOf cls k rs) :
    rs.flatten.head?.map cls = k := by
  cases h with
  | nil => rfl
  | @cons k next run rest hne hrun hrest hnext =>
      obtain ⟨c, run, rfl⟩ := List.exists_cons_of_ne_nil hne
      exact congrArg some (hrun c List.mem_cons_self)

theorem flatten_runs [BEq α] (cls : Char → α) (text : List Char) : (runs cls text).flatten = text :=
  List.flatten_splitBy _ text

variable [BEq α] [LawfulBEq α]

theorem forall_eq_head {run : List Char} (h : run.IsChain fun x y => (cls x == cls y) = true)
    (hne : run ≠ []) : ∀ c ∈ run, cls c = cls (run.head hne) := by
  induction run with
  | nil => exact absurd rfl hne
  | cons a run ih =>
      obtain ⟨hhead, hrun⟩ := List.isChain_cons.mp h
      refine List.forall_mem_cons.mpr ⟨rfl, fun c hc => ?_⟩
      have hne := List.ne_nil_of_mem hc
      rw [ih hrun hne c hc]
      exact (LawfulBEq.eq_of_beq (hhead _ (List.head?_eq_some_head hne))).symm

theorem exists_runsOf {rs : List (List Char)} (hne : [] ∉ rs)
    (huniform : ∀ run ∈ rs, run.IsChain fun x y => (cls x == cls y) = true)
    (hchain : rs.IsChain fun a b => ∃ ha hb, (cls (a.getLast ha) == cls (b.head hb)) = false) :
    ∃ k, RunsOf cls k rs := by
  induction rs with
  | nil => exact ⟨none, .nil⟩
  | cons run rs ih =>
      obtain ⟨hrun, hrs⟩ := List.forall_mem_cons.mp huniform
      obtain ⟨hnext, hchain⟩ := List.isChain_cons.mp hchain
      have hrunne : run ≠ [] := fun h => hne (h ▸ List.mem_cons_self)
      have hclass := forall_eq_head hrun hrunne
      obtain ⟨k, hruns⟩ := ih (fun h => hne (List.mem_cons_of_mem _ h)) hrs hchain
      refine ⟨_, .cons hrunne hclass hruns ?_⟩
      rintro rfl
      cases hruns with
      | @cons _ next later rest hlater hlaterrun _ _ =>
          obtain ⟨ha, hb, hdiffer⟩ := hnext later rfl
          rw [hclass _ (List.getLast_mem ha), hlaterrun _ (List.head_mem hb)] at hdiffer
          simp at hdiffer

theorem runsOf_runs (cls : Char → α) (text : List Char) :
    RunsOf cls (text.head?.map cls) (runs cls text) := by
  have hchain := List.isChain_getLast_head_splitBy (fun a b => cls a == cls b) text
  obtain ⟨k, hruns⟩ := exists_runsOf (List.nil_notMem_splitBy _ text)
    (fun _ => List.isChain_of_mem_splitBy) hchain
  have hhead := hruns.flatten_head
  rw [List.flatten_splitBy] at hhead
  exact hhead ▸ hruns

end Runs

end Dialogue.Yaml.Page
