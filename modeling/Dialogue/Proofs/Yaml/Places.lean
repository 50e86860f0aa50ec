import Dialogue.Yaml.Layout

/-! The characters of a written text move a place in one way only, whatever comes behind them. A gap
in such a text is a row of spaces, which may stand behind a line feed. -/

namespace Dialogue.Yaml

/-! ## Written characters -/

/-- The characters that are written: those that may be read, but for the carriage return and the
byte order mark. -/
def isPrinted (c : Char) : Bool :=
  Layout.isReadable c && c != '\r' && c != '\ufeff'

/-- The characters that do not end a line. -/
def isInline (c : Char) : Bool :=
  isPrinted c && !isBreak c

theorem eq_iff_toNat_eq {c d : Char} : c = d ↔ c.toNat = d.toNat :=
  Char.toNat_inj.symm

theorem le_iff_toNat_le {c d : Char} : c ≤ d ↔ c.toNat ≤ d.toNat :=
  Iff.rfl

/-- The code points of the characters that are written. -/
theorem isPrinted_iff (c : Char) : isPrinted c = true ↔
    (c.toNat = 9 ∨ c.toNat = 10 ∨ c.toNat = 0x85 ∨ 0x20 ≤ c.toNat ∧ c.toNat ≤ 0x7e
      ∨ 0xa0 ≤ c.toNat ∧ c.toNat ≤ 0xd7ff ∨ 0xe000 ≤ c.toNat ∧ c.toNat ≤ 0xfffd
      ∨ 0x10000 ≤ c.toNat ∧ c.toNat ≤ 0x10ffff) ∧ c.toNat ≠ 0xfeff := by
  simp only [isPrinted, Layout.isReadable, List.any_cons, List.any_nil, Bool.and_eq_true,
    Bool.or_eq_true, bne_iff_ne, beq_iff_eq, decide_eq_true_eq, ne_eq, eq_iff_toNat_eq,
    Bool.false_eq_true, or_false, Char.reduceToNat]
  omega

theorem isBreak_iff (c : Char) : isBreak c = true ↔
    c.toNat = 10 ∨ c.toNat = 13 ∨ c.toNat = 0x85 ∨ c.toNat = 0x2028 ∨ c.toNat = 0x2029 := by
  simp only [isBreak, Bool.or_eq_true, beq_iff_eq, eq_iff_toNat_eq, Char.reduceToNat, or_assoc]

theorem toNat_lt_or_gt (c : Char) : c.toNat < 0xd800 ∨ 0xdfff < c.toNat ∧ c.toNat < 0x110000 :=
  c.valid

def Printed (text : List Char) : Prop :=
  ∀ c ∈ text, isPrinted c = true

def Inline (text : List Char) : Prop :=
  ∀ c ∈ text, isInline c = true

def spaces (n : Nat) : List Char :=
  List.replicate n ' '

variable {c : Char} {text front back rest : List Char}

theorem ne_return_of_isPrinted (h : isPrinted c = true) : c ≠ '\r' := by
  simp only [isPrinted, Bool.and_eq_true, bne_iff_ne] at h
  exact h.1.2

theorem ne_mark_of_isPrinted (h : isPrinted c = true) : c ≠ '\ufeff' := by
  simp only [isPrinted, Bool.and_eq_true, bne_iff_ne] at h
  exact h.2

theorem isPrinted_of_isInline (h : isInline c = true) : isPrinted c = true :=
  (Bool.and_eq_true _ _ ▸ h).1

theorem isBreak_of_isInline (h : isInline c = true) : isBreak c = false := by
  simp only [isInline, Bool.and_eq_true, Bool.not_eq_true'] at h
  exact h.2

theorem Inline.printed (h : Inline text) : Printed text :=
  fun c hc => isPrinted_of_isInline (h c hc)

@[simp] theorem printed_nil : Printed [] := fun _ h => nomatch h

@[simp] theorem printed_cons : Printed (c :: text) ↔ isPrinted c = true ∧ Printed text :=
  List.forall_mem_cons

@[simp] theorem printed_append : Printed (front ++ back) ↔ Printed front ∧ Printed back :=
  List.forall_mem_append

@[simp] theorem inline_nil : Inline [] := fun _ h => nomatch h

@[simp] theorem inline_cons : Inline (c :: text) ↔ isInline c = true ∧ Inline text :=
  List.forall_mem_cons

@[simp] theorem inline_append : Inline (front ++ back) ↔ Inline front ∧ Inline back :=
  List.forall_mem_append

theorem inline_spaces (n : Nat) : Inline (spaces n) := by
  intro c hc
  rw [List.eq_of_mem_replicate hc]
  decide

theorem printed_line (n : Nat) : Printed ('\n' :: spaces n) :=
  printed_cons.mpr ⟨by decide, (inline_spaces n).printed⟩

@[simp] theorem length_spaces (n : Nat) : (spaces n).length = n :=
  List.length_replicate

/-! ## Moving on -/

theorem endsLine_of_ne (h : c ≠ '\r') (rest : List Char) : endsLine c rest = isBreak c := by
  simp [endsLine, h]

namespace Spot

variable {s : Spot}

theorem step_of_ne (h : c ≠ '\r') (s : Spot) (rest : List Char) : s.step c rest = s.step c [] := by
  rw [step, step, endsLine_of_ne h, endsLine_of_ne h]

def after (s : Spot) (text : List Char) : Spot :=
  text.foldl (fun s c => s.step c []) s

@[simp] theorem after_nil (s : Spot) : s.after [] = s := rfl

theorem after_cons (s : Spot) (c : Char) (text : List Char) :
    s.after (c :: text) = (s.step c []).after text := rfl

theorem after_append (s : Spot) (front back : List Char) :
    s.after (front ++ back) = (s.after front).after back :=
  List.foldl_append

theorem step_eq_after (h : isPrinted c = true) (s : Spot) (rest : List Char) :
    s.step c rest = s.after [c] :=
  step_of_ne (ne_return_of_isPrinted h) s rest

theorem step_of_isInline (h : isInline c = true) (s : Spot) (rest : List Char) :
    s.step c rest = s.along 1 := by
  have hprinted := isPrinted_of_isInline h
  rw [step, endsLine_of_ne (ne_return_of_isPrinted hprinted), isBreak_of_isInline h,
    if_neg Bool.false_ne_true, if_neg (by simpa using ne_mark_of_isPrinted hprinted)]
  rfl

theorem along_along (s : Spot) (m n : Nat) : (s.along m).along n = s.along (m + n) := by
  simp only [along, Nat.add_assoc]

theorem after_of_inline (h : Inline text) (s : Spot) : s.after text = s.along text.length := by
  induction text generalizing s with
  | nil => rfl
  | cons c text ih =>
      obtain ⟨hc, htext⟩ := inline_cons.mp h
      rw [after_cons, step_of_isInline hc, ih htext, along_along, List.length_cons, Nat.add_comm]

theorem line_step_le (s : Spot) (c : Char) : s.line ≤ (s.step c []).line := by
  rw [step]
  split
  · exact Nat.le_succ _
  · split <;> exact Nat.le_refl _

theorem line_le_after (s : Spot) (text : List Char) : s.line ≤ (s.after text).line := by
  induction text generalizing s with
  | nil => exact Nat.le_refl _
  | cons c text ih => exact Nat.le_trans (line_step_le s c) (ih _)

theorem step_feed (s : Spot) (rest : List Char) : s.step '\n' rest = ⟨s.index + 1, s.line + 1, 0⟩ :=
  rfl

theorem after_line (s : Spot) (n : Nat) :
    s.after ('\n' :: spaces n) = ⟨s.index + 1 + n, s.line + 1, n⟩ := by
  rw [after_cons, step_feed, after_of_inline (inline_spaces n), length_spaces, along, Nat.zero_add]

theorem column_after_line (s : Spot) (n : Nat) : (s.after ('\n' :: spaces n)).column = n := by
  rw [after_line]

theorem column_after_spaces (s : Spot) (n : Nat) : (s.after (spaces n)).column = s.column + n := by
  rw [after_of_inline (inline_spaces n), length_spaces, along]

end Spot

namespace Cursor

variable {s : Spot}

theorem next_of_printed (h : isPrinted c = true) (s : Spot) (rest : List Char) :
    (Cursor.mk s (c :: rest)).next = ⟨s.after [c], rest⟩ := by
  rw [next, Spot.step_eq_after h]

theorem skip_append (h : Printed front) (s : Spot) (back : List Char) :
    (Cursor.mk s (front ++ back)).skip front.length = ⟨s.after front, back⟩ := by
  induction front generalizing s with
  | nil => rfl
  | cons c front ih =>
      obtain ⟨hc, hfront⟩ := printed_cons.mp h
      rw [List.length_cons, skip, List.cons_append, next_of_printed hc, ih hfront]
      rfl

theorem takeWhile_append {p : Char → Bool} (hprinted : Printed front)
    (hfront : ∀ c ∈ front, p c = true)
    (hback : stopsAt (fun c => !p c) back = true) (s : Spot) :
    (Cursor.mk s (front ++ back)).takeWhile p = (front, ⟨s.after front, back⟩) := by
  have hstop : back.takeWhile p = [] := by
    cases back with
    | nil => rfl
    | cons c back => exact List.takeWhile_cons_of_neg (by simpa [stopsAt] using hback)
  have htake : (front ++ back).takeWhile p = front := by
    rw [List.takeWhile_append_of_pos hfront, hstop, List.append_nil]
  rw [takeWhile]
  simp only [htake, skip_append hprinted]

theorem takeWhile_spaces (hrest : rest.head? ≠ some ' ') (s : Spot) (n : Nat) :
    (Cursor.mk s (spaces n ++ rest)).takeWhile (· == ' ') =
      (spaces n, ⟨s.after (spaces n), rest⟩) := by
  refine takeWhile_append (inline_spaces n).printed ?_ ?_ s
  · intro c hc
    rw [List.eq_of_mem_replicate hc]
    rfl
  · cases rest with
    | nil => rfl
    | cons c rest => simpa [stopsAt] using hrest

end Cursor

/-! ## What comes behind a gap -/

def isFirst (c : Char) : Bool :=
  !isBreak c && c != ' ' && c != '#'

/-- The text behind a gap: it ends there, or a token of the document begins. -/
structure Opens (text : List Char) : Prop where
  first : stopsAt isFirst text = true
  mark : atAnyDocumentMark text = false

theorem opens_nil : Opens [] := ⟨rfl, rfl⟩

theorem atAnyDocumentMark_cons (hdash : c ≠ '-') (hdot : c ≠ '.') (rest : List Char) :
    atAnyDocumentMark (c :: rest) = false := by
  rcases rest with - | ⟨a, - | ⟨b, rest⟩⟩ <;> simp [atAnyDocumentMark, atDocumentMark, hdash, hdot]

theorem atAnyDocumentMark_spaces {n : Nat} (hn : 0 < n) (rest : List Char) :
    atAnyDocumentMark (spaces n ++ rest) = false := by
  obtain ⟨n, rfl⟩ := Nat.exists_eq_succ_of_ne_zero (Nat.ne_of_gt hn)
  exact atAnyDocumentMark_cons (by decide) (by decide) _

theorem opens_cons (hfirst : isFirst c = true) (hdash : c ≠ '-') (hdot : c ≠ '.') :
    Opens (c :: rest) :=
  ⟨hfirst, atAnyDocumentMark_cons hdash hdot rest⟩

/-- The mark of an item in front of a gap begins no mark of a document. -/
theorem opens_item (h : stopsAt isGap rest = true) : Opens ('-' :: rest) := by
  refine ⟨rfl, ?_⟩
  have hrest : rest.head? ≠ some '-' := by
    rintro hhead
    cases rest with
    | nil => simp at hhead
    | cons c rest =>
        obtain rfl : c = '-' := by simpa using hhead
        simp [stopsAt, isGap, isSpaceOrTab, isBreak] at h
  rcases rest with - | ⟨a, - | ⟨b, rest⟩⟩ <;> simp_all [atAnyDocumentMark, atDocumentMark]

namespace Layout

theorem toToken_spaces (crossed : Bool) (s : Spot) (n : Nat) (rest : List Char) :
    toToken false crossed s (spaces n ++ rest) =
      toToken false crossed (s.after (spaces n)) rest := by
  induction n generalizing s with
  | zero => rfl
  | succ n ih =>
      have hspace : toToken false crossed s (' ' :: (spaces n ++ rest)) =
          toToken false crossed (s.step ' ' (spaces n ++ rest)) (spaces n ++ rest) := rfl
      rw [spaces, List.replicate_succ, List.cons_append]
      exact hspace.trans (by rw [ih, Spot.after_cons, Spot.step_of_ne (by decide)]; rfl)

theorem toToken_of_first (h : stopsAt isFirst rest = true) (crossed : Bool) (s : Spot) :
    toToken false crossed s rest = (crossed, ⟨s, rest⟩) := by
  cases rest with
  | nil => rfl
  | cons c rest =>
      simp only [stopsAt, isFirst, Bool.and_eq_true, Bool.not_eq_true', bne_iff_ne] at h
      rw [toToken, h.1.1]
      simp [h.1.2, h.2]

theorem toToken_line (h : stopsAt isFirst rest = true) (s : Spot) (n : Nat) :
    toToken false false s ('\n' :: spaces n ++ rest) =
      (true, ⟨s.after ('\n' :: spaces n), rest⟩) := by
  have hfeed : toToken false false s ('\n' :: spaces n ++ rest) =
      toToken false true (s.step '\n' (spaces n ++ rest)) (spaces n ++ rest) := rfl
  rw [hfeed, toToken_spaces, toToken_of_first h]
  rfl

theorem length_toToken_le (inComment crossed : Bool) (s : Spot) (text : List Char) :
    (toToken inComment crossed s text).2.rest.length ≤ text.length := by
  induction text generalizing inComment crossed s with
  | nil => exact Nat.le_refl _
  | cons c text ih =>
      rw [toToken]
      split
      · exact Nat.le_trans (ih ..) (Nat.le_succ _)
      split
      · exact Nat.le_trans (ih ..) (Nat.le_succ _)
      split
      · exact Nat.le_trans (ih ..) (Nat.le_succ _)
      · exact Nat.le_refl _

end Layout

end Dialogue.Yaml
