import Dialogue.Proofs.Yaml.Places

/-! What the rest of a text is read as, one token after another: the marks of items and keys, the
blocks that they begin, and the lines that end them. -/

namespace Dialogue.Yaml

/-- The tokens so far, last first, and the margins of the blocks that are open. -/
structure Blocks where
  tokens : List Token
  margin : Nat
  outer : List Nat

namespace Blocks

def add (b : Blocks) (new : List Token) : Blocks :=
  { b with tokens := new.reverse ++ b.tokens }

def enter (b : Blocks) (column : Nat) (start : Token) : Blocks :=
  if b.margin ≤ column then ⟨start :: b.tokens, column + 1, b.margin :: b.outer⟩ else b

variable {b : Blocks} {column : Nat} {start : Token} {new later : List Token}

@[simp] theorem add_add (b : Blocks) (new later : List Token) :
    (b.add new).add later = b.add (new ++ later) := by
  simp [add]

@[simp] theorem margin_add (b : Blocks) (new : List Token) : (b.add new).margin = b.margin := rfl

theorem margin_enter (h : b.margin ≤ column + 1) : (b.enter column start).margin = column + 1 := by
  rw [enter]
  split
  · rfl
  · omega

theorem enter_of_lt (h : column < b.margin) : b.enter column start = b :=
  if_neg (Nat.not_le.mpr h)

theorem enter_of_le (h : b.margin ≤ column) :
    b.enter column start = ⟨start :: b.tokens, column + 1, b.margin :: b.outer⟩ :=
  if_pos h

end Blocks

namespace Layout

/-- The layout at a cursor outside of brackets, with no possible key in front. -/
def ofBlocks (b : Blocks) (c : Cursor) (keyAllowed : Bool) : Layout :=
  { cursor := c, tokens := b.tokens, margin := b.margin, outerMargins := b.outer, keyAllowed }

def blocks (l : Layout) : Blocks :=
  ⟨l.tokens, l.margin, l.outerMargins⟩

variable {l next : Layout} {b : Blocks} {s : Spot} {rest : List Char} {limit : Nat}

/-! ## Blocks that end -/

theorem cursor_close (l : Layout) (limit margin : Nat) (outer : List Nat) (tokens : List Token) :
    (closeBlocks.close limit l margin outer tokens).cursor = l.cursor := by
  induction outer generalizing margin tokens with
  | nil =>
      rw [closeBlocks.close.eq_def]
      split <;> rfl
  | cons m outer ih =>
      rw [closeBlocks.close.eq_def]
      split
      · rfl
      · exact ih m (.blockEnd :: tokens)

@[simp] theorem cursor_closeBlocks (l : Layout) (limit : Nat) :
    (l.closeBlocks limit).cursor = l.cursor := by
  rw [closeBlocks]
  split
  · rfl
  · exact cursor_close ..

theorem closeBlocks_of_le (h : l.margin ≤ limit) : l.closeBlocks limit = l := by
  rw [closeBlocks]
  split
  · rfl
  · rw [closeBlocks.close.eq_def, if_pos h]

theorem closeBlocks_of_inFlow (h : l.inFlow = true) : l.closeBlocks limit = l :=
  if_pos h

theorem close_ofBlocks (b b' : Blocks) (c : Cursor) (keyAllowed : Bool) (limit margin : Nat)
    (outer : List Nat) (tokens : List Token) :
    closeBlocks.close limit (ofBlocks b c keyAllowed) margin outer tokens =
      closeBlocks.close limit (ofBlocks b' c keyAllowed) margin outer tokens := by
  induction outer generalizing margin tokens with
  | nil =>
      rw [closeBlocks.close.eq_def, closeBlocks.close.eq_def]
      rfl
  | cons m outer ih =>
      rw [closeBlocks.close.eq_def, closeBlocks.close.eq_def]
      split
      · rfl
      · exact ih m (.blockEnd :: tokens)

theorem closeBlocks_ofBlocks {tokens : List Token} {margin outerMargin : Nat} {outer : List Nat}
    (h : limit < margin) (c : Cursor) (keyAllowed : Bool) :
    (ofBlocks ⟨tokens, margin, outerMargin :: outer⟩ c keyAllowed).closeBlocks limit =
      (ofBlocks ⟨.blockEnd :: tokens, outerMargin, outer⟩ c keyAllowed).closeBlocks limit := by
  have hclose (b : Blocks) : (ofBlocks b c keyAllowed).closeBlocks limit =
      closeBlocks.close limit (ofBlocks b c keyAllowed) b.margin b.outer b.tokens := rfl
  rw [hclose, hclose, closeBlocks.close.eq_def, if_neg (Nat.not_le.mpr h)]
  exact close_ofBlocks ..

/-! ## To the next token -/

theorem cursor_dropLateKeys (h : l.dropLateKeys = .ok next) : next.cursor = l.cursor := by
  simp only [dropLateKeys] at h
  split at h
  · nomatch h
  · cases h
    rfl

theorem length_toNext_le (h : l.toNext = .ok next) :
    next.cursor.rest.length ≤ l.cursor.rest.length := by
  rw [toNext] at h
  cases hkeys : l.skipGap.dropLateKeys with
  | error f =>
      rw [hkeys] at h
      nomatch h
  | ok kept =>
      rw [hkeys] at h
      cases h
      rw [cursor_closeBlocks, cursor_dropLateKeys hkeys]
      exact length_toToken_le ..

/-- At a token nothing changes, as long as all possible keys are in reach. -/
theorem toNext_here (hfirst : stopsAt isFirst l.cursor.rest = true)
    (hkeys : ∀ k ∈ l.key :: l.outerKeys, k.any (·.outOfReach l.cursor.spot) = false)
    (hmargin : l.inFlow = true ∨ l.margin ≤ l.cursor.column + 1) : l.toNext = .ok l := by
  have hskip : l.skipGap = l := by
    rw [skipGap, toToken_of_first hfirst]
    simp
  have hnone : (l.key :: l.outerKeys).any (fun k => k.any (·.outOfReach l.cursor.spot)
      && k.any (·.required)) = false := by
    rw [List.any_eq_false]
    intro k hk
    simp [hkeys k hk]
  have hkeep : l.dropLateKeys = .ok l := by
    obtain ⟨hkey, houter⟩ := List.forall_mem_cons.mp hkeys
    have hmap : l.outerKeys.map (fun k => if k.any (·.outOfReach l.cursor.spot) then none else k) =
        l.outerKeys := by
      rw [List.map_congr_left fun k hk => by rw [houter k hk, if_neg Bool.false_ne_true]]
      exact List.map_id _
    rw [dropLateKeys]
    simp only [hnone, Bool.false_eq_true, if_false, hkey, hmap]
  rw [toNext, hskip, hkeep]
  have hclose : l.closeBlocks (l.cursor.column + 1) = l :=
    hmargin.elim closeBlocks_of_inFlow closeBlocks_of_le
  exact congrArg Except.ok hclose

/-- A line that ended leaves no possible key, and ends the blocks that the next token is not in. The
line end may have been read already. -/
theorem toNext_line {crossed : Bool} {n : Nat}
    (hgap : toToken false false l.cursor.spot l.cursor.rest =
      (crossed, ⟨s.after ('\n' :: spaces n), rest⟩))
    (hallowed : (l.keyAllowed || crossed) = true) (hflow : l.outerKeys = [])
    (hkey : ∀ k ∈ l.key, k.required = false ∧ k.spot.line ≤ s.line) :
    l.toNext = .ok
      ((ofBlocks l.blocks ⟨s.after ('\n' :: spaces n), rest⟩ true).closeBlocks (n + 1)) := by
  have hskip : l.skipGap =
      { l with cursor := ⟨s.after ('\n' :: spaces n), rest⟩, keyAllowed := true } := by
    rw [skipGap, hgap]
    simp [inFlow, hflow, hallowed]
  have hdrop : l.skipGap.dropLateKeys =
      .ok (ofBlocks l.blocks ⟨s.after ('\n' :: spaces n), rest⟩ true) := by
    rw [hskip, dropLateKeys, hflow]
    cases hk : l.key with
    | none => rfl
    | some k =>
        obtain ⟨hrequired, hline⟩ := hkey k hk
        have hlate : k.outOfReach (s.after ('\n' :: spaces n)) = true := by
          have : k.spot.line ≠ (s.after ('\n' :: spaces n)).line := by
            rw [Spot.after_line]
            exact Nat.ne_of_lt (Nat.lt_succ_of_le hline)
          simp [PossibleKey.outOfReach, this]
        simp [hrequired, hlate, ofBlocks, blocks]
  rw [toNext, hdrop]
  have hcolumn : (ofBlocks l.blocks ⟨s.after ('\n' :: spaces n), rest⟩ true).cursor.column = n :=
    Spot.column_after_line s n
  exact congrArg (fun column => Except.ok
    ((ofBlocks l.blocks ⟨s.after ('\n' :: spaces n), rest⟩ true).closeBlocks (column + 1))) hcolumn

theorem toNext_ofBlocks_line {keyAllowed : Bool} {n : Nat} (hfirst : stopsAt isFirst rest = true) :
    (ofBlocks b ⟨s, '\n' :: spaces n ++ rest⟩ keyAllowed).toNext =
      .ok ((ofBlocks b ⟨s.after ('\n' :: spaces n), rest⟩ true).closeBlocks (n + 1)) :=
  toNext_line (toToken_line hfirst s n) (Bool.or_true _) rfl (by simp [ofBlocks])

/-! ## Tokens read one after another -/

/-- What the rest of a text is read as, together with the tokens so far. -/
def Reads (l : Layout) (tokens : List Token) : Prop :=
  ∃ next, l.toNext = .ok next ∧ ∀ l' : Layout, ∀ fuel, l'.toNext = .ok next →
    l'.cursor.rest.length ≤ fuel → l'.readAll fuel = tokens

variable {tokens : List Token}

theorem Reads.readAll (h : l.Reads tokens) {fuel : Nat} (hfuel : l.cursor.rest.length ≤ fuel) :
    l.readAll fuel = tokens := by
  obtain ⟨next, hnext, hreads⟩ := h
  exact hreads l fuel hnext hfuel

/-- Only the next token counts, and what is around it. -/
theorem Reads.of_toNext_eq {l' : Layout} (h : l'.Reads tokens) (heq : l.toNext = l'.toNext) :
    l.Reads tokens := by
  obtain ⟨next, hnext, hreads⟩ := h
  exact ⟨next, heq.trans hnext, hreads⟩

theorem Reads.step {l' : Layout} {c : Char} (h : l'.Reads tokens) (hnext : l.toNext = .ok next)
    (hrest : next.cursor.rest = c :: rest) (hread : next.readToken = .ok l')
    (hlength : l'.cursor.rest.length ≤ rest.length) : l.Reads tokens := by
  refine ⟨next, hnext, fun l₀ fuel hl₀ hfuel => ?_⟩
  have hle := Nat.le_trans (length_toNext_le hl₀) hfuel
  rw [hrest, List.length_cons] at hle
  cases fuel with
  | zero => exact absurd hle (by omega)
  | succ fuel =>
      rw [Layout.readAll, hl₀]
      simp only [hrest, hread]
      exact h.readAll (by omega)

theorem reads_end {last : Layout} (hnext : l.toNext = .ok next) (hrest : next.cursor.rest = [])
    (hend : next.endDocument = .ok last) : l.Reads last.tokens.reverse := by
  refine ⟨next, hnext, fun l₀ fuel hl₀ _ => ?_⟩
  rw [Layout.readAll, hl₀]
  simp only [hrest, hend]

/-! ## Gaps in front of tokens -/

def gap (crossed : Bool) (n : Nat) : List Char :=
  if crossed then '\n' :: spaces n else spaces n

theorem toToken_gap (h : stopsAt isFirst rest = true) (crossed : Bool) (s : Spot) (n : Nat) :
    toToken false false s (gap crossed n ++ rest) = (crossed, ⟨s.after (gap crossed n), rest⟩) := by
  cases crossed with
  | false => exact (toToken_spaces false s n rest).trans (toToken_of_first h false _)
  | true => exact toToken_line h s n

variable {crossed keyAllowed : Bool} {n column : Nat}

/-- A gap in front of a token that is inside of all blocks. -/
theorem toNext_gap (keyAllowed : Bool) (hfirst : stopsAt isFirst rest = true)
    (hcolumn : (s.after (gap crossed n)).column = column) (hmargin : b.margin ≤ column + 1) :
    (ofBlocks b ⟨s, gap crossed n ++ rest⟩ keyAllowed).toNext =
      .ok (ofBlocks b ⟨s.after (gap crossed n), rest⟩ (keyAllowed || crossed)) := by
  have hskip : (ofBlocks b ⟨s, gap crossed n ++ rest⟩ keyAllowed).skipGap =
      ofBlocks b ⟨s.after (gap crossed n), rest⟩ (keyAllowed || crossed) := by
    rw [skipGap]
    simp only [ofBlocks, toToken_gap hfirst]
    simp [inFlow]
  rw [toNext, hskip]
  have hclose : (ofBlocks b ⟨s.after (gap crossed n), rest⟩ (keyAllowed || crossed)).closeBlocks
      ((ofBlocks b ⟨s.after (gap crossed n), rest⟩ (keyAllowed || crossed)).cursor.column + 1) =
      ofBlocks b ⟨s.after (gap crossed n), rest⟩ (keyAllowed || crossed) :=
    closeBlocks_of_le (by rw [Cursor.column]; exact hcolumn ▸ hmargin)
  exact congrArg Except.ok hclose

/-! ## Lines that end blocks -/

/-- A line that does not reach into the last block ends the block. -/
theorem reads_leave {margin outerMargin : Nat} {outer : List Nat} {new : List Token}
    (h : (ofBlocks ⟨.blockEnd :: new, outerMargin, outer⟩ ⟨s, '\n' :: spaces n ++ rest⟩
      keyAllowed).Reads tokens)
    (hfirst : stopsAt isFirst rest = true) (hn : n + 1 < margin) :
    (ofBlocks ⟨new, margin, outerMargin :: outer⟩ ⟨s, '\n' :: spaces n ++ rest⟩
      keyAllowed).Reads tokens := by
  refine h.of_toNext_eq ?_
  rw [toNext_ofBlocks_line hfirst, toNext_ofBlocks_line hfirst]
  exact congrArg Except.ok (closeBlocks_ofBlocks hn _ _)

/-- The last line end of a text, behind a mapping. -/
theorem reads_lastLine (new : List Token) (s : Spot) (keyAllowed : Bool) :
    (ofBlocks ⟨new, 1, [0]⟩ ⟨s, ['\n']⟩ keyAllowed).Reads (.blockEnd :: new).reverse :=
  have hnext : (ofBlocks ⟨new, 1, [0]⟩ ⟨s, ['\n']⟩ keyAllowed).toNext = .ok
      (ofBlocks ⟨new, 1, [0]⟩ ⟨s.after ['\n'], []⟩ true) :=
    (toNext_ofBlocks_line (n := 0) (by exact rfl : stopsAt isFirst [] = true)).trans
      (congrArg Except.ok (closeBlocks_of_le (Nat.le_refl 1)))
  reads_end hnext rfl rfl

/-! ## Marks of items and keys -/

theorem openBlock_ofBlocks (b : Blocks) (c : Cursor) (keyAllowed : Bool) (column : Nat)
    (start : Token) : (ofBlocks b c keyAllowed).openBlock column b.tokens.length start =
      ofBlocks (b.enter column start) c keyAllowed := by
  by_cases h : b.margin ≤ column
  · have hopen : (ofBlocks b c keyAllowed).margin ≤ column := h
    rw [openBlock, if_pos hopen, Blocks.enter_of_le h]
    simp [insert, ofBlocks]
  · have hopen : ¬ (ofBlocks b c keyAllowed).margin ≤ column := h
    rw [openBlock, if_neg hopen, Blocks.enter_of_lt (Nat.lt_of_not_le h)]

theorem openBlockHere_ofBlocks (b : Blocks) (c : Cursor) (start : Token) :
    (ofBlocks b c true).openBlockHere start = .ok (ofBlocks (b.enter c.column start) c true) :=
  congrArg Except.ok (openBlock_ofBlocks b c true c.column start)

/-- The mark in front of an item, a key or the value of one, and the block that it begins. -/
inductive Mark : Char → Token → Token → Prop
  | item : Mark '-' .blockSequence .item
  | key : Mark '?' .blockMapping .key
  | value : Mark ':' .blockMapping .value

theorem Mark.opens {c : Char} {start token : Token} (h : Mark c start token)
    (hrest : stopsAt isGap rest = true) : Opens (c :: rest) := by
  cases h with
  | item => exact opens_item hrest
  | key => exact opens_cons rfl (by decide) (by decide)
  | value => exact opens_cons rfl (by decide) (by decide)

theorem Mark.readToken {c : Char} {start token : Token} (h : Mark c start token)
    (hrest : stopsAt isGap rest = true) (b : Blocks) (s : Spot) :
    (ofBlocks b ⟨s, c :: rest⟩ true).readToken =
      .ok (ofBlocks ((b.enter s.column start).add [token]) ⟨s.after [c], rest⟩ true) := by
  have hopens := h.opens hrest
  have hmark := hopens.mark
  rw [atAnyDocumentMark, Bool.or_eq_false_iff] at hmark
  have hopen := openBlockHere_ofBlocks b ⟨s, c :: rest⟩ start
  rw [Layout.readToken]
  simp only [ofBlocks] at hopen ⊢
  rw [hmark.1, hmark.2]
  have hstep (rest : List Char) : s.step c rest = s.after [c] :=
    Spot.step_of_ne (by cases h <;> decide) s rest
  cases h with
  | item => simp [hrest, readItem, hopen, dropKey, allowKey, advance, emit, Cursor.skip,
      Cursor.next, hstep, Blocks.add, Cursor.column, Except.bind, bind, pure, Except.pure]
  | key => simp [hrest, readKey, inFlow, hopen, dropKey, allowKey, advance, emit, Cursor.skip,
      Cursor.next, hstep, Blocks.add, Cursor.column, Except.bind, bind, pure, Except.pure]
  | value => simp [hrest, readColon, inFlow, hopen, allowKey, advance, emit, Cursor.skip,
      Cursor.next, hstep, Blocks.add, Cursor.column, Except.bind, bind, pure, Except.pure]

theorem reads_mark {c : Char} {start token : Token} (hmark : Mark c start token)
    (h : (ofBlocks ((b.enter column start).add [token]) ⟨s.after (gap crossed n ++ [c]), rest⟩
      true).Reads tokens)
    (hrest : stopsAt isGap rest = true) (hcolumn : (s.after (gap crossed n)).column = column)
    (hmargin : b.margin ≤ column + 1) (hallowed : (keyAllowed || crossed) = true) :
    (ofBlocks b ⟨s, gap crossed n ++ c :: rest⟩ keyAllowed).Reads tokens := by
  have hnext := toNext_gap keyAllowed (hmark.opens hrest).first hcolumn hmargin
  rw [hallowed] at hnext
  have hread := hmark.readToken hrest b (s.after (gap crossed n))
  rw [hcolumn, ← Spot.after_append] at hread
  exact h.step hnext rfl hread (Nat.le_refl _)

end Layout

end Dialogue.Yaml
