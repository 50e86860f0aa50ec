import Dialogue.Proofs.Yaml.Reading
import Dialogue.Proofs.Yaml.Words

/-! A scalar that was written in its style is read back as one token, in front of the colon of a key
or of the line end behind a value. What is in front of a colon becomes a key. -/

namespace Dialogue.Yaml

open Page Style Plain

variable {text body rest tail : List Char} {c : Char} {indent : Nat} {plain : Bool}

/-- A body is read as a text, in quotes or without. -/
inductive BodyOf (indent : Nat) (body text : List Char) : Bool → Prop
  | quoted : Quoted.QuotedAs body text → BodyOf indent body text false
  | plain : Goes body → SameFirst body text → beginsWithMark text = false →
      (∀ margin ≤ indent, PlainReads margin body text) → BodyOf indent body text true

namespace BodyOf

theorem ne_nil (h : BodyOf indent body text plain) : body ≠ [] := by
  rintro rfl
  cases h with
  | quoted h => simpa using h.head
  | plain h => exact absurd (h.word []) (by simp [endsWord])

theorem first (h : BodyOf indent body text plain) (rest : List Char) :
    stopsAt isFirst (body ++ rest) = true := by
  cases h with
  | quoted h =>
      cases body with
      | nil => simpa using h.head
      | cons c body =>
          obtain hc | hc := h.head <;> obtain rfl := Option.some.inj hc <;> rfl
  | plain h => exact h.first rest

end BodyOf

/-! ## What a scalar begins with -/

namespace Plain

/-- No word ends in front of the character of a mark. -/
theorem head?_ne_of_endsWord {d : Char} (hd : isGap d = false ∧ d ≠ ':')
    (h : endsWord false rest = true) : rest.head? ≠ some d := by
  rintro hhead
  cases rest with
  | nil => simp at hhead
  | cons c rest =>
      obtain rfl : c = d := by simpa using hhead
      simp [endsWord, hd] at h

theorem atDocumentMark_append {d : Char} (hd : isGap d = false ∧ d ≠ ':') (word : List Char)
    (hrest : endsWord false rest = true) {later : List Char}
    (hfront : [d, d, d].isPrefixOf (word ++ later) = false) :
    atDocumentMark d (word ++ rest) = false := by
  have hhead := head?_ne_of_endsWord hd hrest
  by_contra hmark
  rw [Bool.not_eq_false] at hmark
  match word with
  | [] =>
    rcases rest with - | ⟨a, - | ⟨b, - | ⟨c, rest⟩⟩⟩ <;> simp_all [atDocumentMark]
  | [a] =>
    rcases rest with - | ⟨b, - | ⟨c, rest⟩⟩ <;> simp_all [atDocumentMark]
  | [a, b] =>
    rcases rest with - | ⟨c, rest⟩ <;> simp_all [atDocumentMark]
  | a :: b :: c :: word => simp_all [atDocumentMark]

theorem atAnyDocumentMark_append (hmark : beginsWithMark text = false) (h : SameFirst body text)
    (htail : endsWord false tail = true) : atAnyDocumentMark (body ++ tail) = false := by
  obtain ⟨word, more, later, -, rfl, rfl, -, hends⟩ := h
  simp only [beginsWithMark, Bool.or_eq_false_iff] at hmark
  have hrest := hends tail htail
  rw [atAnyDocumentMark, Bool.or_eq_false_iff, List.append_assoc]
  exact ⟨atDocumentMark_append (by decide) word hrest hmark.1.1,
    atDocumentMark_append (by decide) word hrest hmark.1.2⟩

/-- A plain text begins with none of the marks of the format. -/
theorem exists_cons_of_plain (hmark : beginsWithMark text = false) (h : SameFirst body text) :
    ∃ c more, body = c :: more ∧ isGap c = false ∧ leadingMarks.contains c = false ∧
      (['?', ':', '-'].contains c = true → ∀ tail, stopsAt isGap (more ++ tail) = false) := by
  obtain ⟨word, more, later, hword, rfl, rfl, hlater, -⟩ := h
  obtain ⟨c, word, rfl⟩ := List.exists_cons_of_ne_nil hword.ne_nil
  obtain ⟨hc, hgap⟩ := List.forall_mem_cons.mp hword.isGap
  simp only [beginsWithMark, List.cons_append, Bool.or_eq_false_iff] at hmark
  refine ⟨c, word ++ more, rfl, hc, hmark.2.1, fun hthree tail => ?_⟩
  rw [hthree, Bool.true_and] at hmark
  cases word with
  | nil => exact absurd hlater (by simpa using hmark.2.2)
  | cons d word => exact hgap d List.mem_cons_self

end Plain

namespace Layout

variable {b : Blocks} {s : Spot} {keyAllowed : Bool}

theorem leadingMarks_eq : leadingMarks =
    ['#', ',', '[', ']', '{', '}', '&', '*', '!', '|', '>', '\'', '"', '%', '@', '\x60'] := by
  decide

/-- The characters that a plain text may not begin with are the leading marks, and three that may
begin one when no gap is behind them. -/
theorem beginsAt_plain (hlead : leadingMarks.contains c = false) (hgap : isGap c = false)
    (hmark : ['?', ':', '-'].contains c = true → stopsAt isGap rest = false) :
    Plain.beginsAt false (c :: rest) = true := by
  have hall : "-?:,[]\x7b\x7d#&*!|>'\"%@\x60".toList =
    ['-', '?', ':'] ++ [',', '[', ']', '{', '}', '#', '&', '*', '!', '|', '>', '\'', '"', '%', '@',
      '\x60'] := by decide
  rw [leadingMarks_eq] at hlead
  simp only [List.contains_cons, List.contains_nil, Bool.or_eq_false_iff,
    beq_eq_false_iff_ne] at hlead
  simp only [Plain.beginsAt, hgap, Bool.false_eq_true, if_false, hall]
  split
  · next hc =>
    have hcontains : ['?', ':', '-'].contains c = true := by
      simp at hc ⊢
      tauto
    simp [hmark hcontains]
  · next hc =>
    simp [hlead] at hc ⊢
    exact hc

theorem readToken_plain (hdocument : atAnyDocumentMark (c :: rest) = false)
    (hlead : leadingMarks.contains c = false) (hgap : isGap c = false)
    (hmark : ['?', ':', '-'].contains c = true → stopsAt isGap rest = false) :
    (ofBlocks b ⟨s, c :: rest⟩ keyAllowed).readToken =
      (ofBlocks b ⟨s, c :: rest⟩ keyAllowed).readPlain := by
  have hbegins := beginsAt_plain hlead hgap hmark
  have hthree : ∀ d ∈ ['?', ':', '-'], (c == d && stopsAt isGap rest) = false := by
    intro d hd
    by_cases hc : c = d
    · rw [hmark (by rw [hc, List.contains_iff_mem]; exact hd), Bool.and_false]
    · simp [hc]
  have hquestion := hthree '?' (by decide)
  have hcolon := hthree ':' (by decide)
  have hdash := hthree '-' (by decide)
  rw [leadingMarks_eq] at hlead
  simp only [List.contains_cons, List.contains_nil, Bool.or_eq_false_iff,
    beq_eq_false_iff_ne] at hlead
  rw [atAnyDocumentMark, Bool.or_eq_false_iff] at hdocument
  rw [Layout.readToken]
  simp only [ofBlocks, hdocument]
  simp [hlead, hdash, hquestion, hcolon, inFlow, hbegins]

/-! ## Scalars as tokens -/

/-- The possible key that a scalar at a cursor is. -/
def noted (b : Blocks) (c : Cursor) (keyAllowed : Bool) : Option PossibleKey :=
  if keyAllowed then some ⟨b.tokens.length, b.margin == c.column + 1, c.spot⟩ else none

theorem noteKey_ofBlocks (b : Blocks) (c : Cursor) (keyAllowed : Bool) :
    (ofBlocks b c keyAllowed).noteKey =
      .ok { ofBlocks b c keyAllowed with key := noted b c keyAllowed } := by
  cases keyAllowed <;> rfl

/-- The layout behind new tokens that may be a key. -/
def ofContent (b : Blocks) (new : List Token) (key : Option PossibleKey) (behind : Cursor)
    (keyAllowed : Bool) : Layout :=
  { ofBlocks (b.add new) behind keyAllowed with key := key }

theorem readToken_quoted (h : Quoted.QuotedAs body text) (htail : tail.head? ≠ some '\'')
    (b : Blocks)
    (s : Spot) (keyAllowed : Bool) : (ofBlocks b ⟨s, body ++ tail⟩ keyAllowed).readToken =
      .ok (ofContent b [.scalar false text] (noted b ⟨s, body ++ tail⟩ keyAllowed)
        ⟨s.after body, tail⟩ false) := by
  have hread := h.read s tail htail
  have hhead := h.head
  have hcontent : (ofBlocks b ⟨s, body ++ tail⟩ keyAllowed).readToken =
      (ofBlocks b ⟨s, body ++ tail⟩ keyAllowed).readContent Quoted.read (.scalar false) := by
    cases body with
    | nil => simp at hhead
    | cons c body =>
        have hdocument : atAnyDocumentMark (c :: (body ++ tail)) = false := by
          obtain hc | hc := hhead <;> obtain rfl := Option.some.inj hc <;>
            exact atAnyDocumentMark_cons (by decide) (by decide) _
        rw [atAnyDocumentMark, Bool.or_eq_false_iff] at hdocument
        rw [List.cons_append, Layout.readToken]
        simp only [ofBlocks, hdocument]
        obtain hc | hc := hhead <;> obtain rfl := Option.some.inj hc <;> simp
  rw [hcontent, readContent, noteKey_ofBlocks]
  simp only [ofBlocks, bind, Except.bind, hread]
  rfl

/-- A plain text is read as a token, together with the gap behind it. -/
theorem readToken_plainText (hgoes : Goes body) (hfirst : SameFirst body text)
    (hmark : beginsWithMark text = false) (hread : PlainReads b.margin body text) (s : Spot)
    (hs : b.margin ≤ s.column + 1) (htail : endsWord false tail = true)
    (hend : ∀ s, endsAt false b.margin (takeGap ⟨s, tail⟩) = true) (keyAllowed : Bool) :
    (ofBlocks b ⟨s, body ++ tail⟩ keyAllowed).readToken =
      .ok (ofContent b [.scalar true text] (noted b ⟨s, body ++ tail⟩ keyAllowed)
        (takeGap ⟨s.after body, tail⟩).behind (takeGap ⟨s.after body, tail⟩).crossesLine) := by
  have hdocument := atAnyDocumentMark_append hmark hfirst htail
  obtain ⟨c, more, rfl, hgap, hlead, hthree⟩ := exists_cons_of_plain hmark hfirst
  have hplain : (ofBlocks b ⟨s, c :: more ++ tail⟩ keyAllowed).readToken =
      (ofBlocks b ⟨s, c :: more ++ tail⟩ keyAllowed).readPlain :=
    readToken_plain hdocument hlead hgap fun hc => hthree hc tail
  have hwords : Plain.read false b.margin ⟨s, c :: more ++ tail⟩ =
      (text, takeGap ⟨s.after (c :: more), tail⟩) :=
    hread s tail _ hs htail hend (by simp)
  refine hplain.trans ?_
  rw [readPlain, noteKey_ofBlocks]
  simp only [ofBlocks, bind, Except.bind, inFlow, List.isEmpty_nil, Bool.not_true, hwords]
  rfl

/-! ## Values -/

variable {m n : Nat} {crossed : Bool} {column : Nat} {tokens : List Token}

theorem noted_line (hkey : b.margin ≤ column) {c : Cursor} (hcolumn : c.column = column) :
    ∀ k ∈ noted b c keyAllowed, k.required = false ∧ k.spot.line = c.spot.line := by
  intro k hk
  rw [noted] at hk
  split at hk
  · obtain rfl := Option.mem_some.mp hk
    exact ⟨by simp [hcolumn]; omega, rfl⟩
  · nomatch hk

/-- In front of a line, what is behind a possible key is what is behind the line. -/
theorem toNext_ofContent {behind : Cursor} (hfirst : stopsAt isFirst rest = true)
    (hgap : toToken false false behind.spot behind.rest =
      (crossed, ⟨s.after ('\n' :: spaces n), rest⟩))
    (hallowed : (keyAllowed || crossed) = true) {c : Cursor} (hline : c.spot.line ≤ s.line)
    (hkey : b.margin ≤ c.column) (new : List Token) (allowed : Bool) :
    (ofContent b new (noted b c allowed) behind keyAllowed).toNext =
      (ofBlocks (b.add new) ⟨s, '\n' :: spaces n ++ rest⟩ false).toNext := by
  have hnext : (ofContent b new (noted b c allowed) behind keyAllowed).toNext = .ok
      ((ofBlocks (b.add new) ⟨s.after ('\n' :: spaces n), rest⟩ true).closeBlocks (n + 1)) := by
    refine toNext_line hgap hallowed rfl fun k hk => ?_
    obtain ⟨hrequired, hspot⟩ := noted_line hkey rfl k hk
    exact ⟨hrequired, hspot ▸ hline⟩
  rw [hnext, toNext_ofBlocks_line hfirst]

/-- A scalar is read in front of a line that does not reach into its block. -/
theorem exists_readToken_line (hbody : BodyOf indent body text plain) (hopens : Opens rest)
    (hn : n < b.margin) (hindent : b.margin ≤ indent) (hs : b.margin ≤ s.column)
      (keyAllowed : Bool) :
    ∃ l', (ofBlocks b ⟨s, body ++ ('\n' :: spaces n ++ rest)⟩ keyAllowed).readToken = .ok l' ∧
      l'.toNext = (ofBlocks (b.add [.scalar plain text])
        ⟨s.after body, '\n' :: spaces n ++ rest⟩ false).toNext ∧
      l'.cursor.rest.length ≤ ('\n' :: spaces n ++ rest).length := by
  have hline := Spot.line_le_after s body
  cases hbody with
  | quoted h =>
      refine ⟨_, readToken_quoted h (by simp) b s keyAllowed, ?_, Nat.le_refl _⟩
      exact toNext_ofContent hopens.first (toToken_line hopens.first _ n) rfl hline hs _ _
  | plain hgoes hfirst hmark hread =>
      have hmarks : atAnyDocumentMark (spaces n ++ rest) = false := by
        cases n with
        | zero => exact hopens.mark
        | succ n => exact atAnyDocumentMark_spaces (Nat.succ_pos n) rest
      have htake (s : Spot) := takeGap_line hopens.first hmarks s
      have hend (s : Spot) : endsAt false b.margin (takeGap ⟨s, '\n' :: spaces n ++ rest⟩) =
        true := by
        rw [htake]
        simp [endsAt, Cursor.column, Spot.column_after_line, hn]
      have htoken := readToken_plainText hgoes hfirst hmark (hread _ hindent) s
        (by omega) rfl hend keyAllowed
      rw [htake] at htoken
      refine ⟨_, htoken, ?_, by simp [ofContent, ofBlocks]; omega⟩
      exact toNext_ofContent hopens.first (toToken_of_first hopens.first _ _) rfl hline hs _ _

/-- A scalar is read as the value that it was written for, in front of a line that does not reach
into its block. -/
theorem reads_scalar (hbody : BodyOf indent body text plain)
    (h : (ofBlocks (b.add [.scalar plain text])
      ⟨s.after (gap crossed n ++ body), '\n' :: spaces m ++ rest⟩ false).Reads tokens)
    (hopens : Opens rest) (hm : m < b.margin) (hindent : b.margin ≤ indent)
    (hcolumn : (s.after (gap crossed n)).column = column) (hmargin : b.margin ≤ column) :
    (ofBlocks b
      ⟨s, gap crossed n ++ (body ++ ('\n' :: spaces m ++ rest))⟩ keyAllowed).Reads tokens := by
  have hnext := toNext_gap (b := b) keyAllowed (hbody.first ('\n' :: spaces m ++ rest))
    hcolumn (Nat.le_succ_of_le hmargin)
  obtain ⟨l', hread, hsame, hlength⟩ := exists_readToken_line hbody hopens hm hindent
    (by rw [hcolumn]; exact hmargin) (keyAllowed || crossed)
  rw [Spot.after_append] at h
  obtain ⟨c, more, rfl⟩ := List.exists_cons_of_ne_nil hbody.ne_nil
  exact (h.of_toNext_eq hsame).step hnext rfl hread (by simp at hlength ⊢; omega)

/-! ## Keys -/

theorem readToken_beforeColon (hbody : BodyOf indent body text plain)
    (hrest : stopsAt isGap rest = true)
    (hindent : b.margin ≤ indent) (hs : b.margin ≤ s.column + 1) (keyAllowed : Bool) :
    (ofBlocks b ⟨s, body ++ ':' :: rest⟩ keyAllowed).readToken =
      .ok (ofContent b [.scalar plain text] (noted b ⟨s, body ++ ':' :: rest⟩ keyAllowed)
        ⟨s.after body, ':' :: rest⟩ false) := by
  cases hbody with
  | quoted h => exact readToken_quoted h (by simp) b s keyAllowed
  | plain hgoes hfirst hmark hread =>
      have htake (s : Spot) : takeGap ⟨s, ':' :: rest⟩ = ⟨[], false, ⟨s, ':' :: rest⟩⟩ :=
        takeGap_spaces (n := 0) rfl s
      have hend (s : Spot) : endsAt false b.margin (takeGap ⟨s, ':' :: rest⟩) = true := by
        rw [htake]
        rfl
      have hword : endsWord false (':' :: rest) = true := by simp [endsWord, hrest]
      have htoken := readToken_plainText hgoes hfirst hmark
        (hread _ hindent) s hs hword hend keyAllowed
      rwa [htake] at htoken

/-- The marks of a key, and of the mapping that it begins, are put in front of it. -/
theorem openBlock_insert (b : Blocks) (token : Token) (behind : Cursor) (column : Nat) :
    ((ofContent b [token] none behind false).insert b.tokens.length [.key]).openBlock column
        b.tokens.length .blockMapping =
      ofBlocks ((b.enter column .blockMapping).add [.key, token]) behind false := by
  have hinsert : (ofContent b [token] none behind false).insert b.tokens.length [.key] =
      ofBlocks ⟨token :: .key :: b.tokens, b.margin, b.outer⟩ behind false := by
    simp [insert, ofContent, ofBlocks, Blocks.add]
  rw [hinsert, openBlock, Blocks.enter]
  by_cases hmargin : b.margin ≤ column
  · have hopen : (ofBlocks ⟨token :: .key :: b.tokens, b.margin, b.outer⟩ behind false).margin ≤
      column :=
      hmargin
    have htwo : b.tokens.length + 1 + 1 - b.tokens.length = 2 := by omega
    rw [if_pos hopen, if_pos hmargin]
    simp [insert, ofBlocks, Blocks.add, htwo]
  · have hopen : ¬ (ofBlocks ⟨token :: .key :: b.tokens, b.margin, b.outer⟩ behind false).margin ≤
      column :=
      hmargin
    rw [if_neg hopen, if_neg hmargin]
    rfl

/-- The colon makes the scalar in front of it a key. -/
theorem readToken_colon (hrest : stopsAt isGap rest = true) (token : Token) (c : Cursor)
    (s : Spot) : (ofContent b [token] (noted b c true) ⟨s, ':' :: rest⟩ false).readToken =
      .ok (ofBlocks ((b.enter c.column .blockMapping).add [.key, token, .value])
        ⟨s.after [':'], rest⟩ false) := by
  have hdocument : atAnyDocumentMark (':' :: rest) = false :=
    atAnyDocumentMark_cons (by decide) (by decide) rest
  have hstep : s.step ':' rest = s.after [':'] := Spot.step_eq_after (by decide) s rest
  have hread : (ofContent b [token] (noted b c true) ⟨s, ':' :: rest⟩ false).readToken =
      (ofContent b [token] (noted b c true) ⟨s, ':' :: rest⟩ false).readColon := by
    rw [atAnyDocumentMark, Bool.or_eq_false_iff] at hdocument
    rw [Layout.readToken]
    simp only [ofContent, ofBlocks, hdocument]
    simp [hrest]
  have hcolon (k : PossibleKey) :
      (ofContent b [token] (some k) ⟨s, ':' :: rest⟩ false).readColon =
        .ok ((((((ofContent b [token] none ⟨s, ':' :: rest⟩ false).insert k.place [.key]).openBlock
          k.spot.column k.place .blockMapping).allowKey false).advance 1).emit .value) := rfl
  have hopen := openBlock_insert b token ⟨s, ':' :: rest⟩ c.column
  rw [hread, noted, if_pos rfl, hcolon]
  refine congrArg Except.ok
    ((congrArg (fun l => ((allowKey l false).advance 1).emit .value) hopen).trans ?_)
  simp [ofBlocks, allowKey, advance, emit, Cursor.skip, Cursor.next, hstep, Blocks.add]

theorem toNext_colon (hinline : Inline body) (hreach : body.length ≤ keyReach)
    (hmargin : b.margin ≤ s.column + 1) (token : Token) (behind : List Char) :
    (ofContent b [token] (noted b ⟨s, behind⟩ true) ⟨s.after body, ':' :: rest⟩ false).toNext =
      .ok (ofContent b [token] (noted b ⟨s, behind⟩ true) ⟨s.after body, ':' :: rest⟩ false) := by
  have hafter := Spot.after_of_inline hinline s
  refine toNext_here rfl ?_ (.inr ?_)
  · have hnear : ¬ keyReach < body.length := Nat.not_lt.mpr hreach
    simp [ofContent, ofBlocks, noted, PossibleKey.outOfReach, hafter, Spot.along, hnear]
  · have hcolumn : (s.after body).column = s.column + body.length := by rw [hafter, Spot.along]
    change b.margin ≤ (s.after body).column + 1
    omega

/-- A key is read with its colon, and begins a mapping unless there is one. -/
theorem reads_key (hbody : BodyOf indent body text plain) (hinline : Inline body)
    (hreach : body.length ≤ keyReach)
    (h : (ofBlocks ((b.enter column .blockMapping).add [.key, .scalar plain text, .value])
      ⟨s.after (gap crossed n ++ body ++ [':']), rest⟩ false).Reads tokens)
    (hrest : stopsAt isGap rest = true) (hindent : b.margin ≤ indent)
    (hcolumn : (s.after (gap crossed n)).column = column) (hmargin : b.margin ≤ column + 1)
    (hallowed : (keyAllowed || crossed) = true) :
    (ofBlocks b ⟨s, gap crossed n ++ (body ++ ':' :: rest)⟩ keyAllowed).Reads tokens := by
  have hnext := toNext_gap (b := b) keyAllowed (hbody.first (':' :: rest)) hcolumn hmargin
  rw [hallowed] at hnext
  have hscalar := readToken_beforeColon (s := s.after (gap crossed n)) hbody hrest hindent
    (by rw [hcolumn]; exact hmargin) true
  have hcolon := readToken_colon (b := b) hrest (.scalar plain text)
    ⟨s.after (gap crossed n), body ++ ':' :: rest⟩ (s.after (gap crossed n ++ body))
  have hhere : (ofContent b [.scalar plain text]
      (noted b ⟨s.after (gap crossed n), body ++ ':' :: rest⟩ true)
      ⟨s.after (gap crossed n ++ body), ':' :: rest⟩ false).toNext = .ok
      (ofContent b [.scalar plain text]
        (noted b ⟨s.after (gap crossed n), body ++ ':' :: rest⟩ true)
        ⟨s.after (gap crossed n ++ body), ':' :: rest⟩ false) := by
    rw [Spot.after_append]
    exact toNext_colon hinline hreach (by rw [hcolumn]; exact hmargin) _ _
  have hcolumn' : (Cursor.mk (s.after (gap crossed n)) (body ++ ':' :: rest)).column = column :=
    hcolumn
  rw [hcolumn', ← Spot.after_append] at hcolon
  rw [← Spot.after_append] at hscalar
  obtain ⟨c, more, rfl⟩ := List.exists_cons_of_ne_nil hbody.ne_nil
  exact (h.step hhere rfl hcolon (Nat.le_refl _)).step hnext rfl hscalar
    (by simp [ofContent, ofBlocks])

/-! ## Empty lists and mappings -/

/-- The brackets of an empty list, or the braces of an empty mapping. -/
inductive Brackets : Char → Char → Token → Token → Prop
  | list : Brackets '[' ']' .flowSequence .flowSequenceEnd
  | mapping : Brackets '{' '}' .flowMapping .flowMappingEnd

def inBrackets (b : Blocks) (opening : Token) (key : Option PossibleKey) (behind : Cursor) :
    Layout :=
  { ofBlocks (b.add [opening]) behind true with outerKeys := [key] }

namespace Brackets

variable {left right : Char} {opening closing : Token}

theorem inline (h : Brackets left right opening closing) : Inline [left, right] := by
  cases h <;> exact inline_cons.mpr ⟨by decide, inline_cons.mpr ⟨by decide, inline_nil⟩⟩

theorem readToken_left (h : Brackets left right opening closing) (b : Blocks) (s : Spot)
    (rest : List Char) (keyAllowed : Bool) : (ofBlocks b ⟨s, left :: rest⟩ keyAllowed).readToken =
      .ok (inBrackets b opening (noted b ⟨s, left :: rest⟩ keyAllowed) ⟨s.after [left], rest⟩) := by
  have hdocument : atAnyDocumentMark (left :: rest) = false := by
    cases h <;> exact atAnyDocumentMark_cons (by decide) (by decide) rest
  have hstep : s.step left rest = s.after [left] :=
    Spot.step_eq_after (isPrinted_of_isInline (h.inline left List.mem_cons_self)) s rest
  have hread : (ofBlocks b ⟨s, left :: rest⟩ keyAllowed).readToken =
      (ofBlocks b ⟨s, left :: rest⟩ keyAllowed).openBracket opening := by
    rw [atAnyDocumentMark, Bool.or_eq_false_iff] at hdocument
    rw [Layout.readToken]
    simp only [ofBlocks, hdocument]
    cases h <;> simp
  rw [hread, openBracket, noteKey_ofBlocks]
  simp only [bind, Except.bind, pure, Except.pure]
  simp [inBrackets, ofBlocks, allowKey, advance, emit, Cursor.skip, Cursor.next, hstep, Blocks.add]

theorem readToken_right (h : Brackets left right opening closing) (b : Blocks) (s : Spot)
    (rest : List Char) (key : Option PossibleKey) :
    (inBrackets b opening key ⟨s, right :: rest⟩).readToken =
      .ok (ofContent b [opening, closing] key ⟨s.after [right], rest⟩ false) := by
  have hdocument : atAnyDocumentMark (right :: rest) = false := by
    cases h <;> exact atAnyDocumentMark_cons (by decide) (by decide) rest
  have hstep : s.step right rest = s.after [right] :=
    Spot.step_eq_after (isPrinted_of_isInline (h.inline right (by simp))) s rest
  have hread : (inBrackets b opening key ⟨s, right :: rest⟩).readToken =
      (inBrackets b opening key ⟨s, right :: rest⟩).closeBracket closing := by
    rw [atAnyDocumentMark, Bool.or_eq_false_iff] at hdocument
    rw [Layout.readToken]
    simp only [inBrackets, ofBlocks, hdocument]
    cases h <;> simp
  rw [hread, closeBracket]
  simp only [bind, Except.bind, pure, Except.pure]
  simp [inBrackets, ofContent, ofBlocks, dropKey, allowKey, advance, emit, Cursor.skip, Cursor.next,
    hstep, Blocks.add]

theorem toNext_inBrackets (h : Brackets left right opening closing) (b : Blocks) (s : Spot)
    (rest text : List Char) (allowed : Bool) :
    (inBrackets b opening (noted b ⟨s, text⟩ allowed) ⟨s.after [left], right :: rest⟩).toNext =
      .ok (inBrackets b opening (noted b ⟨s, text⟩ allowed) ⟨s.after [left], right :: rest⟩) := by
  have hinline : Inline [left] := inline_cons.mpr ⟨h.inline left List.mem_cons_self, inline_nil⟩
  refine toNext_here (by cases h <;> rfl) ?_ (.inl rfl)
  cases allowed with
  | false => simp [inBrackets, ofBlocks, noted]
  | true =>
      simp [inBrackets, ofBlocks, noted, PossibleKey.outOfReach, Spot.after_of_inline hinline,
        Spot.along,
        keyReach]

/-- An empty list or mapping is read as its two brackets. -/
theorem reads (hb : Brackets left right opening closing)
    (h : (ofBlocks (b.add [opening, closing])
      ⟨s.after (gap crossed n ++ [left, right]), '\n' :: spaces m ++ rest⟩ false).Reads tokens)
    (hfirst : stopsAt isFirst rest = true)
    (hcolumn : (s.after (gap crossed n)).column = column) (hmargin : b.margin ≤ column) :
    (ofBlocks b ⟨s, gap crossed n ++ left :: right :: ('\n' :: spaces m ++ rest)⟩ keyAllowed).Reads
      tokens := by
  obtain ⟨start, hstart⟩ : ∃ start, s.after (gap crossed n) = start := ⟨_, rfl⟩
  rw [Spot.after_append, hstart] at h
  have hbracket : stopsAt isFirst (left :: right :: ('\n' :: spaces m ++ rest)) = true := by
    cases hb <;> rfl
  have hnext := toNext_gap (b := b) keyAllowed hbracket hcolumn (Nat.le_succ_of_le hmargin)
  rw [hstart] at hnext hcolumn
  obtain ⟨line, hline⟩ : ∃ line, '\n' :: spaces m ++ rest = line := ⟨_, rfl⟩
  have hbehind : (ofContent b [opening, closing]
      (noted b ⟨start, left :: right :: line⟩ (keyAllowed || crossed))
      ⟨start.after [left, right], line⟩ false).toNext =
      (ofBlocks (b.add [opening, closing]) ⟨start.after [left, right], line⟩ false).toNext := by
    subst hline
    exact toNext_ofContent hfirst (toToken_line hfirst _ m) rfl
      (Spot.line_le_after start [left, right]) (show b.margin ≤ start.column by omega) _ _
  rw [hline] at h hnext ⊢
  have hinside := hb.toNext_inBrackets b start line (left :: right :: line) (keyAllowed || crossed)
  have hright := hb.readToken_right b (start.after [left]) line
    (noted b ⟨start, left :: right :: line⟩ (keyAllowed || crossed))
  have hleft := hb.readToken_left b start (right :: line) (keyAllowed || crossed)
  exact ((h.of_toNext_eq hbehind).step hinside rfl hright (Nat.le_refl _)).step hnext rfl hleft
    (Nat.le_refl _)

end Brackets

end Layout

/-! ## Scalars on a page -/

/-- A text that is read back from its style: no next line character is put between single quotes. -/
def Kept (text : List Char) : Prop :=
  '\x85' ∈ text → allowsSingleQuotes text = false

instance (text : List Char) : Decidable (Kept text) :=
  inferInstanceAs (Decidable ('\x85' ∈ text → allowsSingleQuotes text = false))

theorem style_plain {tag : Tag} (h : Style.of tag text = .plain) :
    Tag.ofPlain text = tag ∧ allowsPlain text = true := by
  rw [Style.of] at h
  split at h
  · next hplain => simpa using hplain
  · split at h <;> nomatch h

theorem style_singleQuoted {tag : Tag} (h : Style.of tag text = .singleQuoted) :
    allowsSingleQuotes text = true := by
  rw [Style.of] at h
  split at h
  · nomatch h
  · split at h
    · assumption
    · nomatch h

theorem ne_nil_of_plain {tag : Tag} (htag : tag ≠ .null) (h : Style.of tag text = .plain) :
    text ≠ [] := by
  rintro rfl
  exact htag (((style_plain h).1).symm.trans (by decide))

/-- A scalar that is put in its style is read back. -/
theorem exists_putScalar (hindent : 0 < indent) (hroom : indent < pageWidth) (hkept : Kept text)
    {tag : Tag} (hne : Style.of tag text = .plain → text ≠ []) (broken : Bool) (p : Page) : ∃ body,
      p.Puts (spaces p.lead ++ body) (p.putScalar broken indent tag text) ∧
        BodyOf indent body text (decide (Style.of tag text = .plain)) := by
  rw [putScalar]
  cases hstyle : Style.of tag text with
  | plain =>
      have hallows := (style_plain hstyle).2
      obtain ⟨body, hputs, hgoes, hfirst, hread⟩ :=
        exists_putPlain hindent (Nat.le_of_lt hroom) hallows (hne hstyle) broken p
      exact ⟨body, hputs, .plain hgoes hfirst (wordy_of_allows hallows).2.1 hread⟩
  | singleQuoted =>
      have hallows := style_singleQuoted hstyle
      have hquotable := quotable_of_allows hallows fun hnext => by
        rw [hkept hnext] at hallows
        exact absurd hallows Bool.false_ne_true
      obtain ⟨body, hputs, hquoted⟩ :=
        Quoted.exists_putSingleQuoted hindent (Nat.le_of_lt hroom) hquotable broken p
      exact ⟨body, hputs, .quoted hquoted⟩
  | doubleQuoted =>
      obtain ⟨body, hputs, hquoted⟩ := Quoted.exists_putDoubleQuoted hindent hroom broken p text
      exact ⟨body, hputs, .quoted hquoted⟩

theorem inMargin_putScalar (p : Page) (broken : Bool) (indent : Nat) (tag : Tag)
    (text : List Char) :
    (p.putScalar broken indent tag text).inMargin = false := by
  rw [putScalar]
  cases Style.of tag text with
  | plain =>
      refine inMargin_foldl_putWord (runs (· == ' ') text) broken indent ?_
      split <;> rfl
  | singleQuoted => rfl
  | doubleQuoted => rfl

/-! ## Keys on a page -/

/-- A text without line ends as it is spelled in a style. -/
def spelling : Style → List Char → List Char
  | .plain, text => text
  | .singleQuoted, text => '\'' :: (text.flatMap doubleQuote ++ ['\''])
  | .doubleQuoted, text => '"' :: (text.flatMap Quoted.spell ++ ['"'])

theorem written_putScalar (hbreak : ∀ c ∈ text, isWrittenBreak c = false) (p : Page) (indent : Nat)
    (tag : Tag) : (p.putScalar false indent tag text).written =
      (spaces p.lead ++ spelling (Style.of tag text) text).reverse ++ p.written := by
  have hmark (c : Char) (hc : isInline c = true) := (puts_mark hc p false).written
  rw [putScalar]
  cases Style.of tag text with
  | plain =>
      have hput : p.putPlain false indent text =
          ((if p.afterGap then p else p.put [' ']).beforeWord).put text := by
        refine (foldl_putWord_unbroken (runs (· == ' ') text) indent _).trans ?_
        rw [flatten_runs]
      rw [hput, spelling, put, (puts_lead p).written]
      simp
  | singleQuoted =>
      have hput : putRuns false indent true (runs classOf text) (p.mark '\'' false) =
          (p.mark '\'' false).put (text.flatMap doubleQuote) := by
        have hunbroken := Quoted.putRuns_unbroken (runsOf_runs classOf text)
          (by rwa [flatten_runs]) indent true (p.mark '\'' false)
        rwa [flatten_runs] at hunbroken
      dsimp only
      rw [putSingleQuoted, hput]
      simp [closing, beforeWord, put, hmark '\'' (by decide), spelling]
  | doubleQuoted =>
      dsimp only
      rw [putDoubleQuoted, Quoted.putChars_unbroken]
      simp [closing, beforeWord, put, hmark '"' (by decide), spelling]

theorem inline_spelling (hbreak : ∀ c ∈ text, isWrittenBreak c = false) (tag : Tag) :
    Inline (spelling (Style.of tag text) text) := by
  cases hstyle : Style.of tag text with
  | plain => exact (wordy_of_allows (style_plain hstyle).2).1.isInline
  | singleQuoted =>
      have hallows := style_singleQuoted hstyle
      simp only [allowsSingleQuotes, Bool.and_eq_true, Bool.not_eq_true', List.any_eq_false,
        Bool.not_eq_true] at hallows
      have hinline := Quoted.inline_doubleQuote fun c hc =>
        (isInline_of_plain (hallows.1.1 c hc) (hbreak c hc)).1
      exact inline_cons.mpr ⟨by decide, inline_append.mpr ⟨hinline, by simp; decide⟩⟩
  | doubleQuoted =>
      have hinline : Inline (text.flatMap Quoted.spell) := by
        intro d hd
        obtain ⟨c, -, hd⟩ := List.mem_flatMap.mp hd
        rw [Quoted.spell] at hd
        split at hd
        · next hstands =>
          obtain rfl := List.mem_singleton.mp hd
          exact (Quoted.standing_of_standsInDouble hstands).isInline
        · exact Quoted.inline_escape c d hd
      exact inline_cons.mpr ⟨by decide, inline_append.mpr ⟨hinline, by simp; decide⟩⟩

def spelled (tag : Tag) (text : List Char) : List Char :=
  (({} : Page).putScalar false indentation tag text).text

theorem spelled_eq (hbreak : ∀ c ∈ text, isWrittenBreak c = false) (tag : Tag) :
    spelled tag text = spelling (Style.of tag text) text := by
  rw [spelled, Page.text, written_putScalar hbreak]
  simp [lead, spaces]

/-- A key on its line is spelled as it is on a page of its own, and is read back. -/
theorem exists_putSimpleKey (hindent : 0 < indent) (hroom : indent < pageWidth) (hkept : Kept text)
    (tag : Tag) (hne : text ≠ []) (hbreak : ∀ c ∈ text, isWrittenBreak c = false) (p : Page) :
    p.Puts (spaces p.lead ++ spelled tag text) (p.putScalar false indent tag text) ∧
      Inline (spelled tag text) ∧
        BodyOf indent (spelled tag text) text (decide (Style.of tag text = .plain)) := by
  obtain ⟨body, hputs, hbody⟩ := exists_putScalar hindent hroom hkept (fun _ => hne) false p
  have hwritten := hputs.written
  rw [written_putScalar hbreak, ← spelled_eq hbreak] at hwritten
  have hsame : spelled tag text = body := by simpa using hwritten
  exact ⟨hsame ▸ hputs, spelled_eq hbreak tag ▸ inline_spelling hbreak tag, hsame ▸ hbody⟩

end Dialogue.Yaml
