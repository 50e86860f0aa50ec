import Dialogue.Proofs.Value.Table
import Dialogue.Proofs.Yaml.Scalars
import Dialogue.Yaml.Scalar

/-! Items and entries are put one below another, and what is put of a value is read as its tokens:
those of its parts between the marks of the block that they stand in. -/

namespace Dialogue.Yaml

open Page

/-! ## The tokens of a value -/

def scalarToken (tag : Tag) (text : List Char) : Token :=
  .scalar (decide (Style.of tag text = .plain)) text

def scalarTokens (s : Scalar) : List Token :=
  (written? s).elim [] fun (tag, text) => [scalarToken tag text]

def isSimple (s : Scalar) : Bool :=
  (written? s).any fun (tag, text) => isSimpleKey tag text

mutual

/-- The tokens of a value. The items of a list may stand without a block of their own. -/
def valueTokens (loose : Bool) : Value → List Token
  | .scalar s => scalarTokens s
  | .list [] => [.flowSequence, .flowSequenceEnd]
  | .list (v :: rest) =>
    if loose then itemTokens (v :: rest)
    else .blockSequence :: itemTokens (v :: rest) ++ [.blockEnd]
  | .mapping [] => [.flowMapping, .flowMappingEnd]
  | .mapping (e :: rest) => .blockMapping :: entryTokens (e :: rest) ++ [.blockEnd]
termination_by structural v => v

def itemTokens : List Value → List Token
  | [] => []
  | v :: rest => .item :: valueTokens false v ++ itemTokens rest
termination_by structural v => v

/-- The tokens of entries. The items of a list stand without a block below a simple key. -/
def entryTokens : List (Scalar × Value) → List Token
  | [] => []
  | (k, v) :: rest =>
    .key :: scalarTokens k ++ .value :: valueTokens (isSimple k) v ++ entryTokens rest
termination_by structural v => v

end

/-! ## Pages within blocks -/

/-- A page on which a part of a block at a column may begin: behind a word, behind the mark of the
block around, or at the column. -/
def CanTurn (p : Page) (column : Nat) : Prop :=
  p.inMargin = false ∨ p.inMargin = true ∧
    (p.column + 1 = column ∨ p.afterGap = true ∧ p.column = column)

theorem exists_indentTo {p : Page} {column : Nat} (h : CanTurn p column) :
    ∃ crossed n, p.Puts (Layout.gap crossed n) (p.indentTo column) ∧
      (p.indentTo column).column = column ∧ (p.indentTo column).afterGap = true ∧
        (p.indentTo column).inMargin = true ∧ (p.inMargin = false → crossed = true ∧ n = column) ∧
          (p.afterGap = false → ∀ tail, stopsAt isGap (Layout.gap crossed n ++ tail) = true) := by
  obtain hword | ⟨hmargin, hmark | ⟨hgap, hcolumn⟩⟩ := h
  · refine ⟨true, column, puts_indentTo_of_word (.inl hword), ?_⟩
    rw [indentTo_of_word (.inl hword)]
    exact ⟨rfl, rfl, rfl, fun _ => ⟨rfl, rfl⟩, fun _ _ => rfl⟩
  · refine ⟨false, 1, puts_indentTo_of_mark hmargin hmark, ?_⟩
    rw [indentTo_of_mark hmargin hmark]
    exact ⟨rfl, rfl, rfl, fun h => by simp [hmargin] at h, fun _ _ => rfl⟩
  · have hsame : p.indentTo column = p := by simp [indentTo, hmargin, hgap, hcolumn]
    rw [hsame]
    exact ⟨false, 0, .refl p, hcolumn, hgap, hmargin, fun h => by simp [hmargin] at h,
      fun h => by simp [hgap] at h⟩

/-- What is put of a part of a block at a column is read as tokens, behind the start of the block
where the part begins it. -/
def PartReads (column : Nat) (start : Token) (new : List Token) (put : Page → Option Page) : Prop :=
  ∀ p, CanTurn p column → ∃ p' chunk, put p = some p' ∧ p.Puts chunk p' ∧ p'.inMargin = false ∧
    (p.inMargin = false → ∃ more, chunk = '\n' :: spaces column ++ more ∧
      ∀ tail, Opens (more ++ tail)) ∧
    (p.afterGap = false → ∀ tail, stopsAt isGap (chunk ++ tail) = true) ∧
    ∀ (b : Blocks) (s : Spot) (n : Nat) (rest : List Char) (keyAllowed : Bool)
      (tokens : List Token),
      s.column = p.column → b.margin ≤ column + 1 → n ≤ column → Opens rest →
      (p.inMargin = true → keyAllowed = true) →
      (Layout.ofBlocks ((b.enter column start).add new)
        ⟨s.after chunk, '\n' :: spaces n ++ rest⟩ false).Reads tokens →
      (Layout.ofBlocks b ⟨s, chunk ++ ('\n' :: spaces n ++ rest)⟩ keyAllowed).Reads tokens

theorem Blocks.enter_enter {b : Blocks} {column : Nat} {start : Token} (h : b.margin ≤ column + 1)
    (new : List Token) : ((b.enter column start).add new).enter column start =
      (b.enter column start).add new := by
  refine enter_of_lt ?_
  rw [margin_add, margin_enter h]
  exact Nat.lt_succ_self column

theorem PartReads.append {column : Nat} {start : Token} {new later : List Token}
    {put putLater : Page → Option Page} (h : PartReads column start new put)
    (hlater : PartReads column start later putLater) :
    PartReads column start (new ++ later) fun p => (put p).bind putLater := by
  intro p hp
  obtain ⟨p₁, chunk, hput, hputs, hmargin, hmore, hstart, hreads⟩ := h p hp
  obtain ⟨p₂, chunk₂, hput₂, hputs₂, hmargin₂, hmore₂, -, hreads₂⟩ := hlater p₁ (.inl hmargin)
  obtain ⟨more₂, rfl, hopens₂⟩ := hmore₂ hmargin
  refine ⟨p₂, chunk ++ ('\n' :: spaces column ++ more₂), by simp [hput, hput₂], hputs.trans hputs₂,
    hmargin₂, fun hword => ?_, fun hgap tail => by rw [List.append_assoc]; exact hstart hgap _, ?_⟩
  · obtain ⟨more, rfl, hopens⟩ := hmore hword
    exact ⟨more ++ ('\n' :: spaces column ++ more₂), by simp, fun tail => by
      rw [List.append_assoc]
      exact hopens _⟩
  · intro b s n rest keyAllowed tokens hs hb hn hrest hallowed hread
    have hs₁ := hputs.column s hs
    have hb₁ : ((b.enter column start).add new).margin ≤ column + 1 := by
      rw [Blocks.margin_add, Blocks.margin_enter hb]
    have hlast := hreads₂ ((b.enter column start).add new)
      (s.after chunk) n rest false tokens hs₁ hb₁
      hn hrest (fun h => by simp [hmargin] at h)
      (by rwa [Blocks.enter_enter hb, Blocks.add_add, ← Spot.after_append])
    have hfirst := hreads b s column (more₂ ++ ('\n' :: spaces n ++ rest)) keyAllowed tokens hs hb
      (Nat.le_refl _) (hopens₂ _) hallowed (by simpa using hlast)
    simpa using hfirst

/-! ## Items and entries -/

/-- A page on which the value of an item or of an entry comes next, in the block at a column. -/
structure Behind (column : Nat) (belowKey : Bool) (p : Page) : Prop where
  afterGap : p.afterGap = false
  column_le : column + 1 ≤ p.column
  margin : p.inMargin = true → p.column = column + 1
  word : p.inMargin = false → belowKey = true

/-- What is put of a value on a page in the block at a column is read as its tokens. -/
def ReadsOn (column : Nat) (belowKey : Bool) (v : Value) (p : Page) : Prop :=
  ∃ p' chunk, putValue (some column) belowKey v p = some p' ∧ p.Puts chunk p' ∧
    p'.inMargin = false ∧
    (∀ tail, stopsAt isGap (chunk ++ tail) = true) ∧
    ∀ (b : Blocks) (s : Spot) (n : Nat) (rest : List Char) (keyAllowed : Bool)
      (tokens : List Token),
      s.column = p.column → b.margin = column + 1 → n ≤ column → Opens rest →
      (p.inMargin = true → keyAllowed = true) →
      (Layout.ofBlocks (b.add (valueTokens (belowKey && !p.inMargin) v))
        ⟨s.after chunk, '\n' :: spaces n ++ rest⟩ false).Reads tokens →
      (Layout.ofBlocks b ⟨s, chunk ++ ('\n' :: spaces n ++ rest)⟩ keyAllowed).Reads tokens

def ValueReads (column : Nat) (belowKey : Bool) (v : Value) : Prop :=
  ∀ p, Behind column belowKey p → ReadsOn column belowKey v p

theorem behind_mark {p : Page} {column : Nat} (hcolumn : p.column = column)
    (hgap : p.afterGap = true)
    (hmargin : p.inMargin = true) (belowKey : Bool) (c : Char) :
    Behind column belowKey (p.putMark c) where
  afterGap := rfl
  column_le := by simp [putMark, column_mark, lead, hgap, hcolumn]
  margin _ := by simp [putMark, column_mark, lead, hgap, hcolumn]
  word h := by simp [putMark, inMargin_mark, hmargin] at h

theorem puts_putMark {p : Page} (hgap : p.afterGap = true) {c : Char} (hc : isInline c = true) :
    p.Puts [c] (p.putMark c) := by
  have hputs := puts_mark hc p true
  have hlead : p.lead = 0 := if_pos hgap
  rwa [hlead] at hputs

theorem allowed_of_gap {p : Page} {crossed keyAllowed : Bool} {column n : Nat}
    (hword : p.inMargin = false → crossed = true ∧ n = column)
    (hallowed : p.inMargin = true → keyAllowed = true) : (keyAllowed || crossed) = true := by
  cases hmargin : p.inMargin with
  | true => rw [hallowed hmargin, Bool.true_or]
  | false => rw [(hword hmargin).1, Bool.or_true]

theorem ValueReads.item {column : Nat} {v : Value} (h : ValueReads column false v) :
    PartReads column .blockSequence (.item :: valueTokens false v)
      fun p => putValue (some column) false v ((p.indentTo column).putMark '-') := by
  intro p hp
  obtain ⟨crossed, n, hindent, hcolumn, hgap, hmargin, hword, hbegin⟩ := exists_indentTo hp
  have hmark := puts_putMark (c := '-') hgap (by decide)
  have hbehind := behind_mark hcolumn hgap hmargin false '-'
  have hin : ((p.indentTo column).putMark '-').inMargin = true := by
    rw [putMark, inMargin_mark, hmargin]
    rfl
  obtain ⟨p', chunk, hput, hputs, hout, hstart, hreads⟩ := h _ hbehind
  refine ⟨p', Layout.gap crossed n ++ ['-'] ++ chunk, hput, (hindent.trans hmark).trans hputs, hout,
    fun h => ?_, fun h tail => by simpa using hbegin h (['-'] ++ chunk ++ tail), ?_⟩
  · obtain ⟨rfl, rfl⟩ := hword h
    exact ⟨'-' :: chunk, by simp [Layout.gap], fun tail => opens_item (hstart tail)⟩
  · intro b s m rest keyAllowed tokens hs hb hm hrest hallowed hread
    have hturn := hindent.column s hs
    have hvalue := hreads ((b.enter column .blockSequence).add [.item])
      (s.after (Layout.gap crossed n ++ ['-'])) m rest true tokens
        ((hindent.trans hmark).column s hs)
      (by rw [Blocks.margin_add, Blocks.margin_enter hb]) hm hrest (fun _ => rfl)
      (by rw [Blocks.add_add, ← Spot.after_append]; exact hread)
    have hwhole := Layout.reads_mark .item hvalue (hstart _) (hturn.trans hcolumn) hb
      (allowed_of_gap hword hallowed)
    simpa using hwhole

/-- A key that is read back: it is a text whose colon is in reach where it stands on its line. -/
structure KeyKept (s : Scalar) (text : List Char) : Prop where
  written : written? s = some (.text, text)
  kept : Kept text
  reach : isSimpleKey .text text = true → (spelled .text text).length ≤ keyReach

variable {column : Nat} {v : Value} {s : Scalar} {text : List Char}

theorem ne_nil_of_text (h : Style.of .text text = .plain) : text ≠ [] :=
  ne_nil_of_plain (by decide) h

theorem opens_body {indent : Nat} {body rest : List Char} {plain : Bool}
    (hbody : BodyOf indent body text plain) (hrest : stopsAt isGap rest = true) :
    Opens (body ++ ':' :: rest) := by
  refine ⟨hbody.first _, ?_⟩
  cases hbody with
  | quoted h =>
      cases body with
      | nil => simpa using h.head
      | cons c body =>
          obtain hc | hc := h.head <;> obtain rfl := Option.some.inj hc <;>
            exact atAnyDocumentMark_cons (by decide) (by decide) _
  | plain hgoes hfirst hmark hread =>
      exact Plain.atAnyDocumentMark_append hmark hfirst (by simp [Plain.endsWord, hrest])

theorem puts_putSimpleKey (hkey : KeyKept s text) (hsimple : isSimpleKey .text text = true)
    (hroom : column + indentation < pageWidth) {p : Page}
    (hgap : (p.indentTo column).afterGap = true) (hcolumn : (p.indentTo column).column = column) :
    Inline (spelled .text text) ∧
      BodyOf (column + indentation) (spelled .text text) text
        (decide (Style.of .text text = .plain)) ∧
      (p.indentTo column).Puts (spelled .text text ++ [':']) (p.putKey column .text text) ∧
      Behind column true (p.putKey column .text text) ∧
      (p.putKey column .text text).inMargin = false := by
  have hputKey : p.putKey column .text text =
      ((p.indentTo column).putScalar false (column + indentation) .text text).closing [':'] := by
    rw [putKey, if_pos hsimple]
  simp only [isSimpleKey, Bool.and_eq_true, Bool.not_eq_true', decide_eq_true_eq,
    List.isEmpty_eq_false_iff, List.any_eq_false, Bool.not_eq_true] at hsimple
  obtain ⟨⟨-, hne⟩, hbreak⟩ := hsimple
  obtain ⟨hputs, hinline, hbody⟩ := exists_putSimpleKey
    (show 0 < column + indentation by simp [indentation]) hroom hkey.kept .text hne hbreak
      (p.indentTo column)
  have hlead : (p.indentTo column).lead = 0 := if_pos hgap
  rw [hlead] at hputs
  have hcolon : Inline [':'] := inline_cons.mpr ⟨by decide, inline_nil⟩
  have hkeyputs := hputs.closing hcolon
  rw [← hputKey] at hkeyputs
  have hwide :=
    hkeyputs.column_eq (inline_append.mpr ⟨inline_append.mpr ⟨inline_spaces 0, hinline⟩, hcolon⟩)
  rw [hcolumn] at hwide
  refine ⟨hinline, hbody, hkeyputs, ?_, by rw [hputKey]; rfl⟩
  rw [hputKey] at hwide ⊢
  exact ⟨rfl, by rw [hwide]; simp, (fun h => nomatch h), fun _ => rfl⟩

/-- An entry whose key stands in front of its colon. -/
theorem ValueReads.simpleEntry (h : ValueReads column true v) (hkey : KeyKept s text)
    (hsimple : isSimpleKey .text text = true) (hroom : column + indentation < pageWidth) :
    PartReads column .blockMapping (.key :: [scalarToken .text text] ++
      .value :: valueTokens true v)
      fun p => putValue (some column) true v (p.putKey column .text text) := by
  intro p hp
  obtain ⟨crossed, n, hindent, hcolumn, hgap, hmargin, hword, hbegin⟩ := exists_indentTo hp
  obtain ⟨hinline, hbody, hkeyputs, hbehind, hin⟩ :=
    puts_putSimpleKey hkey hsimple hroom hgap hcolumn
  obtain ⟨p', chunk, hput, hvalueputs, hout, hstart, hreads⟩ := h _ hbehind
  refine ⟨p', _, hput, (hindent.trans hkeyputs).trans hvalueputs, hout, fun h => ?_,
    fun h tail => by simpa using hbegin h _, ?_⟩
  · obtain ⟨rfl, rfl⟩ := hword h
    exact ⟨spelled .text text ++ ':' :: chunk, by simp [Layout.gap, spaces], fun tail => by
      simpa using opens_body hbody (hstart tail)⟩
  · intro b s m rest keyAllowed tokens hs hb hm hrest hallowed hread
    have hturn := (hindent.column s hs).trans hcolumn
    have hbehindKey := (hindent.trans hkeyputs).column s hs
    have hmarginEnter : ((b.enter column .blockMapping).add
        [.key, scalarToken .text text, .value]).margin = column + 1 := by
      rw [Blocks.margin_add, Blocks.margin_enter hb]
    have hvalue := hreads _ _ m rest false tokens hbehindKey hmarginEnter hm hrest
      (fun h => by simp [hin] at h) (by
        rw [Blocks.add_add, ← Spot.after_append, hin]
        exact hread)
    have hwhole := Layout.reads_key hbody hinline (hkey.reach hsimple)
      (by simpa [spaces, scalarToken] using hvalue) (hstart _)
        (Nat.le_trans hb (by simp [indentation])) hturn hb
      (allowed_of_gap hword hallowed)
    simpa [spaces] using hwhole

/-- A key behind a question mark is read with the colon that stands below. -/
theorem Layout.reads_longKey {b : Blocks} {s : Spot} {body rest : List Char} {crossed plain : Bool}
    {n : Nat} {keyAllowed : Bool} {tokens : List Token}
    (hbody : BodyOf (column + indentation) body text plain)
    (h : (ofBlocks ((b.enter column .blockMapping).add [.key, .scalar plain text, .value])
      ⟨s.after (gap crossed n ++ '?' :: ' ' :: (body ++ '\n' :: (spaces column ++ [':']))), rest⟩
      true).Reads tokens)
    (hrest : stopsAt isGap rest = true) (hcolumn : (s.after (gap crossed n)).column = column)
    (hmargin : b.margin ≤ column + 1) (hallowed : (keyAllowed || crossed) = true) :
    (ofBlocks b ⟨s, gap crossed n ++ '?' :: ' ' :: (body ++ '\n' :: (spaces column ++ ':' :: rest))⟩
      keyAllowed).Reads tokens := by
  have henter (new : List Token) : ((b.enter column .blockMapping).add new).margin =
    column + 1 := by
    rw [Blocks.margin_add, Blocks.margin_enter hmargin]
  have hkeyColumn : (s.after (gap crossed n ++ ['?'])).column = column + 1 := by
    rw [Spot.after_append, Spot.after_of_inline (inline_cons.mpr ⟨by decide, inline_nil⟩),
      Spot.along,
      hcolumn]
    rfl
  have hcolon : (ofBlocks ((b.enter column .blockMapping).add [.key, .scalar plain text])
      ⟨s.after (gap crossed n ++ '?' :: ' ' :: body),
        gap true column ++ ':' :: rest⟩ false).Reads tokens := by
    refine reads_mark .value ?_ hrest (Spot.column_after_line _ _) (Nat.le_of_eq (henter _)) rfl
    rw [Blocks.enter_enter hmargin, Blocks.add_add, ← Spot.after_append]
    simpa [gap] using h
  have hscalar : (ofBlocks ((b.enter column .blockMapping).add [.key])
      ⟨s.after (gap crossed n ++ ['?']), gap false 1 ++
        (body ++ ('\n' :: spaces column ++ ':' :: rest))⟩
      true).Reads tokens := by
    refine reads_scalar hbody ?_ (opens_cons rfl (by decide) (by decide)) ?_ ?_
      (Spot.column_after_spaces _ 1) ?_
    · rw [Blocks.add_add, ← Spot.after_append]
      simpa [gap, spaces] using hcolon
    all_goals rw [henter]
    · exact Nat.lt_succ_self column
    · simp [indentation]
    · rw [hkeyColumn]
      exact Nat.le_succ _
  exact reads_mark .key (by simpa [gap, spaces] using hscalar) rfl hcolumn hmargin hallowed

/-- What is put of a key behind a question mark, down to its colon, which stands at the column of
the mapping. -/
theorem exists_putLongKey (hkey : KeyKept s text) (hlong : isSimpleKey .text text = false)
    (hroom : column + indentation < pageWidth) {p : Page}
    (hgap : (p.indentTo column).afterGap = true) :
    ∃ body, BodyOf (column + indentation) body text (decide (Style.of .text text = .plain)) ∧
      (p.indentTo column).Puts ('?' :: ' ' :: (body ++ '\n' :: (spaces column ++ [':'])))
        (p.putKey column .text text) ∧
      Behind column true (p.putKey column .text text) ∧
      (p.putKey column .text text).inMargin = true := by
  have hmark := puts_putMark (c := '?') hgap (by decide)
  obtain ⟨body, hscalar, hbody⟩ := exists_putScalar
    (show 0 < column + indentation by simp [indentation]) hroom hkey.kept ne_nil_of_text true
      ((p.indentTo column).putMark '?')
  have hlead : ((p.indentTo column).putMark '?').lead = 1 := rfl
  rw [hlead] at hscalar
  obtain ⟨key, hkeyPage⟩ : ∃ key, ((p.indentTo column).putMark '?').putScalar true
      (column + indentation) .text text = key := ⟨_, rfl⟩
  have hkeyMargin : key.inMargin = false := hkeyPage ▸ inMargin_putScalar ..
  rw [hkeyPage] at hscalar
  have hline := puts_indentTo_of_word (n := column) (.inl hkeyMargin)
  have hlinePage := indentTo_of_word (n := column) (.inl hkeyMargin)
  have hcolon := puts_putMark (p := key.indentTo column) (c := ':') (by rw [hlinePage]) (by decide)
  have hputKey : p.putKey column .text text = (key.indentTo column).putMark ':' := by
    rw [putKey, hlong, if_neg Bool.false_ne_true, hkeyPage]
  rw [hputKey]
  refine ⟨body, hbody, ?_, ?_, ?_⟩
  · simpa [spaces] using hmark.trans (hscalar.trans (hline.trans hcolon))
  · exact behind_mark (by rw [hlinePage]) (by rw [hlinePage]) (by rw [hlinePage]) true ':'
  · rw [putMark, inMargin_mark, hlinePage]
    rfl

/-- An entry whose key stands behind a question mark. -/
theorem ValueReads.longEntry (h : ValueReads column true v) (hkey : KeyKept s text)
    (hlong : isSimpleKey .text text = false) (hroom : column + indentation < pageWidth) :
    PartReads column .blockMapping (.key :: [scalarToken .text text] ++
      .value :: valueTokens false v)
      fun p => putValue (some column) true v (p.putKey column .text text) := by
  intro p hp
  obtain ⟨crossed, n, hindent, hcolumn, hgap, hmargin, hword, hbegin⟩ := exists_indentTo hp
  obtain ⟨body, hbody, hkeyputs, hbehind, hin⟩ := exists_putLongKey hkey hlong hroom hgap
  obtain ⟨p', chunk, hput, hvalueputs, hout, hstart, hreads⟩ := h _ hbehind
  have hfront := hindent.trans hkeyputs
  refine ⟨p', _, ?_, hfront.trans hvalueputs, hout, fun h => ?_,
    fun h tail => by simpa using hbegin h _, ?_⟩
  · exact hput
  · obtain ⟨rfl, rfl⟩ := hword h
    exact ⟨'?' :: ' ' :: (body ++ ('\n' :: spaces n ++ ':' :: chunk)), by simp [Layout.gap, spaces],
      fun tail => opens_cons rfl (by decide) (by decide)⟩
  · intro b s m rest keyAllowed tokens hs hb hm hrest hallowed hread
    have hturn := (hindent.column s hs).trans hcolumn
    have hmarginEnter : ((b.enter column .blockMapping).add
        [.key, scalarToken .text text, .value]).margin = column + 1 := by
      rw [Blocks.margin_add, Blocks.margin_enter hb]
    have hvalue := hreads _ _ m rest true tokens (hfront.column s hs) hmarginEnter hm hrest
      (fun _ => rfl) (by
        rw [Blocks.add_add, ← Spot.after_append, hin]
        exact hread)
    have hwhole := Layout.reads_longKey hbody (by simpa [spaces, scalarToken] using hvalue)
      (hstart _) hturn hb (allowed_of_gap hword hallowed)
    simpa [spaces] using hwhole

/-! ## Values -/

variable {belowKey : Bool}

/-- A scalar that is read back from its style. -/
structure ScalarKept (s : Scalar) (tag : Tag) (text : List Char) : Prop where
  written : written? s = some (tag, text)
  kept : Kept text
  ne_nil : Style.of tag text = .plain → text ≠ []
  read : Scalar.read (if Style.of tag text = .plain then tag else .text) text = .ok s

theorem valueReads_scalar {tag : Tag} (h : ScalarKept s tag text)
    (hroom : column + indentation < pageWidth)
    (belowKey : Bool) : ValueReads column belowKey (.scalar s) := by
  intro p hp
  obtain ⟨body, hputs, hbody⟩ := exists_putScalar
    (show 0 < column + indentation by simp [indentation]) hroom h.kept h.ne_nil true p
  have hlead : p.lead = 1 := if_neg (by simp [hp.afterGap])
  rw [hlead] at hputs
  refine ⟨_, _, ?_, hputs, inMargin_putScalar .., fun _ => rfl, ?_⟩
  · rw [putValue, h.written]
    rfl
  · intro b s m rest keyAllowed tokens hs hb hm hrest _ hread
    have htokens : valueTokens (belowKey && !p.inMargin) (.scalar ‹Scalar›) =
      [scalarToken tag text] := by
      rw [valueTokens, scalarTokens, h.written]
      rfl
    rw [htokens] at hread
    have hcolumn := hp.column_le
    have hwhole : (Layout.ofBlocks b ⟨s, Layout.gap false 1 ++ (body ++ ('\n' :: spaces m ++ rest))⟩
        keyAllowed).Reads tokens :=
      Layout.reads_scalar hbody hread hrest (by omega) (by simp [hb, indentation])
        (Spot.column_after_spaces s 1) (by omega)
    simpa [Layout.gap] using hwhole

theorem valueReads_brackets {left right : Char} {opening closing : Token} (v : Value)
    (hbrackets : Layout.Brackets left right opening closing)
    (hput : ∀ p, putValue (some column) belowKey v p = some ((p.mark left false).closing [right]))
    (htokens : ∀ loose, valueTokens loose v = [opening, closing]) :
      ValueReads column belowKey v := by
  intro p hp
  have hlead : p.lead = 1 := if_neg (by simp [hp.afterGap])
  have hinline := hbrackets.inline
  obtain ⟨hleft, hright⟩ := inline_cons.mp hinline
  have hputs := (puts_mark hleft p false).closing hright
  rw [hlead] at hputs
  refine ⟨_, _, hput p, hputs, rfl, fun _ => rfl, ?_⟩
  intro b s m rest keyAllowed tokens hs hb hm hrest _ hread
  rw [htokens] at hread
  have hcolumn := hp.column_le
  have hwhole : (Layout.ofBlocks b ⟨s, Layout.gap false 1 ++
    left :: right :: ('\n' :: spaces m ++ rest)⟩
      keyAllowed).Reads tokens :=
    hbrackets.reads (by simpa [Layout.gap] using hread) hrest.first (Spot.column_after_spaces s 1)
      (by omega)
  simpa [Layout.gap] using hwhole

theorem Behind.canTurn {p : Page} (h : Behind column belowKey p) :
    CanTurn p (column + indentation) := by
  cases hmargin : p.inMargin with
  | false => exact .inl hmargin
  | true => exact .inr ⟨hmargin, .inl (by rw [h.margin hmargin]; rfl)⟩

section Part

variable {start : Token} {new : List Token} {put : Page → Option Page} {p : Page}

/-- A block inside of another begins and ends with its own tokens. -/
theorem PartReads.readsOn (h : PartReads (column + indentation) start new put)
    (hp : Behind column belowKey p) (hput : putValue (some column) belowKey v p = put p)
    (htokens : valueTokens (belowKey && !p.inMargin) v = start :: new ++ [.blockEnd]) :
    ReadsOn column belowKey v p := by
  obtain ⟨p', chunk, hp', hputs, hmargin, -, hstart, hreads⟩ := h p hp.canTurn
  refine ⟨p', chunk, hput.trans hp', hputs, hmargin, hstart hp.afterGap, ?_⟩
  intro b s m rest keyAllowed tokens hs hb hm hrest hallowed hread
  rw [htokens] at hread
  refine hreads b s m rest keyAllowed tokens hs (by omega) (by omega) hrest hallowed ?_
  rw [Blocks.enter_of_le (by rw [hb]; simp [indentation])]
  refine Layout.reads_leave ?_ hrest.first (by simp [indentation]; omega)
  simpa [Blocks.add] using hread

/-- The items below a simple key have no block of their own. -/
theorem PartReads.readsOn_loose (h : PartReads column start new put) (hp : Behind column belowKey p)
    (hword : p.inMargin = false) (hput : putValue (some column) belowKey v p = put p)
    (htokens : valueTokens (belowKey && !p.inMargin) v = new) : ReadsOn column belowKey v p := by
  obtain ⟨p', chunk, hp', hputs, hmargin, -, hstart, hreads⟩ := h p (.inl hword)
  refine ⟨p', chunk, hput.trans hp', hputs, hmargin, hstart hp.afterGap, ?_⟩
  intro b s m rest keyAllowed tokens hs hb hm hrest hallowed hread
  rw [htokens] at hread
  refine hreads b s m rest keyAllowed tokens hs (by omega) hm hrest hallowed ?_
  rwa [Blocks.enter_of_lt (by omega)]

end Part

/-! ## Lists and mappings -/

theorem partReads_items {vs : List Value} (h : ∀ v ∈ vs, ValueReads column false v)
    (hne : vs ≠ []) :
    PartReads column .blockSequence (itemTokens vs) (putItems column vs) := by
  induction vs with
  | nil => exact absurd rfl hne
  | cons v rest ih =>
      obtain ⟨hv, hrest⟩ := List.forall_mem_cons.mp h
      have hput : putItems column (v :: rest) = fun p =>
          (putValue (some column) false v ((p.indentTo column).putMark '-')).bind
            (putItems column rest) := by
        funext p
        rw [putItems]
        cases putValue (some column) false v ((p.indentTo column).putMark '-') <;> rfl
      rw [hput, itemTokens]
      cases rest with
      | nil =>
          have hlast : putItems column [] = some := funext fun _ => rfl
          simp only [hlast, Option.bind_fun_some, itemTokens, List.append_nil]
          exact hv.item
      | cons w rest => exact hv.item.append (ih hrest (List.cons_ne_nil w rest))

theorem ValueReads.entry (h : ValueReads column true v) (hkey : KeyKept s text)
    (hroom : column + indentation < pageWidth) :
    PartReads column .blockMapping (.key :: scalarTokens s ++ .value :: valueTokens (isSimple s) v)
      fun p => putValue (some column) true v (p.putKey column .text text) := by
  have htokens : scalarTokens s = [scalarToken .text text] := by
    rw [scalarTokens, hkey.written]
    rfl
  have hsimple : isSimple s = isSimpleKey .text text := by
    rw [isSimple, hkey.written]
    rfl
  rw [htokens, hsimple]
  cases hcase : isSimpleKey .text text with
  | true => exact h.simpleEntry hkey hcase hroom
  | false => exact h.longEntry hkey hcase hroom

theorem partReads_entries {es : List (Scalar × Value)} (hkeys : ∀ e ∈ es, ∃ text, KeyKept e.1 text)
    (h : ∀ e ∈ es, ValueReads column true e.2) (hroom : column + indentation < pageWidth)
    (hne : es ≠ []) : PartReads column .blockMapping (entryTokens es) (putEntries column es) := by
  induction es with
  | nil => exact absurd rfl hne
  | cons e rest ih =>
      obtain ⟨k, v⟩ := e
      obtain ⟨⟨text, hkey⟩, hkeys⟩ := List.forall_mem_cons.mp hkeys
      obtain ⟨hv, hrest⟩ := List.forall_mem_cons.mp h
      have hput : putEntries column ((k, v) :: rest) = fun p =>
          (putValue (some column) true v (p.putKey column .text text)).bind
            (putEntries column rest) := by
        funext p
        rw [putEntries, hkey.written]
        dsimp only
        cases putValue (some column) true v (p.putKey column .text text) <;> rfl
      rw [hput, entryTokens]
      cases rest with
      | nil =>
          have hlast : putEntries column [] = some := funext fun _ => rfl
          simp only [hlast, Option.bind_fun_some, entryTokens, List.append_nil]
          exact hv.entry hkey hroom
      | cons e rest => exact (hv.entry hkey hroom).append (ih hkeys hrest (List.cons_ne_nil e rest))

/-- A list stands behind the mark of an item, or below a key at the column of the key. -/
theorem valueReads_list {depth : Nat} {vs : List Value}
    (h : ∀ v ∈ vs, ∀ column, column + 2 * depth + indentation < pageWidth →
      ValueReads column false v)
    (hroom : column + 2 * (depth + 1) + indentation < pageWidth) (belowKey : Bool) :
    ValueReads column belowKey (.list vs) := by
  have hitems (column : Nat) (hroom : column + 2 * depth + indentation < pageWidth)
    (hne : vs ≠ []) :
      PartReads column .blockSequence (itemTokens vs) (putItems column vs) :=
    partReads_items (fun v hv => h v hv column hroom) hne
  cases vs with
  | nil => exact valueReads_brackets _ .list (fun _ => rfl) fun _ => rfl
  | cons v rest =>
      intro p hp
      cases hmargin : p.inMargin with
      | true =>
          have hput : putValue (some column) belowKey (.list (v :: rest)) p =
              putItems (column + indentation) (v :: rest) p := by
            simp [putValue, listColumn, hmargin, blockColumn]
          have hpart := hitems (column + indentation) (by simp [indentation] at hroom ⊢; omega)
            (List.cons_ne_nil v rest)
          refine hpart.readsOn hp hput ?_
          simp [hmargin, valueTokens]
      | false =>
          have hbelow := hp.word hmargin
          have hput : putValue (some column) belowKey (.list (v :: rest)) p =
              putItems column (v :: rest) p := by
            simp [putValue, listColumn, hmargin, hbelow]
          have hpart := hitems column (by omega) (List.cons_ne_nil v rest)
          refine hpart.readsOn_loose hp hmargin hput ?_
          simp [hmargin, hbelow, valueTokens]

theorem valueReads_mapping {depth : Nat} {es : List (Scalar × Value)}
    (hkeys : ∀ e ∈ es, ∃ text, KeyKept e.1 text)
    (h : ∀ e ∈ es, ∀ column, column + 2 * depth + indentation < pageWidth →
      ValueReads column true e.2)
    (hroom : column + 2 * (depth + 1) + indentation < pageWidth) (belowKey : Bool) :
    ValueReads column belowKey (.mapping es) := by
  cases es with
  | nil => exact valueReads_brackets _ .mapping (fun _ => rfl) fun _ => rfl
  | cons e rest =>
      intro p hp
      have hinner : column + indentation + 2 * depth + indentation < pageWidth := by
        simp [indentation] at hroom ⊢
        omega
      have hpart := partReads_entries hkeys (fun e he => h e he (column + indentation) hinner)
        (by omega) (List.cons_ne_nil e rest)
      exact hpart.readsOn hp rfl rfl

/-- A value that is read back, and how deep it is: its scalars and keys are kept, and its keys
differ. -/
inductive Storable : Nat → Value → Prop
  | scalar {depth : Nat} {s : Scalar} {tag : Tag} {text : List Char} :
      ScalarKept s tag text → Storable depth (.scalar s)
  | list {depth : Nat} {vs : List Value} :
      (∀ v ∈ vs, Storable depth v) → Storable (depth + 1) (.list vs)
  | mapping {depth : Nat} {es : List (Scalar × Value)} : Table.Distinct es →
      (∀ e ∈ es, ∃ text, KeyKept e.1 text) → (∀ e ∈ es, Storable depth e.2) →
      Storable (depth + 1) (.mapping es)

/-- A value that leaves room for its scalars on every line is read back. -/
theorem Storable.valueReads {depth : Nat} (h : Storable depth v) (column : Nat) (belowKey : Bool)
    (hroom : column + 2 * depth + indentation < pageWidth) : ValueReads column belowKey v := by
  induction h generalizing column belowKey with
  | scalar hs => exact valueReads_scalar hs (by omega) belowKey
  | list _ ih => exact valueReads_list (fun v hv column => ih v hv column false) hroom belowKey
  | mapping _ hkeys _ ih =>
      exact valueReads_mapping hkeys (fun e he column => ih e he column true) hroom belowKey

/-! ## Documents -/

theorem tokensOf_of_printed {chunk : List Char} (h : Printed chunk) : Layout.tokensOf chunk =
    Layout.readAll chunk.length (Layout.ofBlocks ⟨[], 0, []⟩ ⟨{}, chunk⟩ true) := by
  have hall : chunk.all Layout.isReadable = true := by
    rw [List.all_eq_true]
    intro c hc
    have hprinted := h c hc
    simp only [isPrinted, Bool.and_eq_true] at hprinted
    exact hprinted.1.1
  have hmark : Layout.withoutMark (.ofText chunk) = ⟨{}, chunk⟩ := by
    have hhead : chunk.head? ≠ some '\ufeff' := by
      intro hhead
      exact ne_mark_of_isPrinted (h _ (List.mem_of_head? hhead)) rfl
    rw [Layout.withoutMark, if_neg (by simpa [Cursor.head?, Cursor.ofText] using hhead)]
    rfl
  rw [Layout.tokensOf, hall, hmark]
  rfl

/-- What is written of a mapping is read as its tokens, and holds nothing but characters that may be
read. -/
theorem exists_tokensOf_render {depth : Nat} {e : Scalar × Value} {rest : List (Scalar × Value)}
    (hkeys : ∀ f ∈ e :: rest, ∃ text, KeyKept f.1 text) (h : ∀ f ∈ e :: rest, Storable depth f.2)
    (hroom : 2 * depth + indentation < pageWidth) :
    ∃ text, render (.mapping (e :: rest)) = .ok text ∧ Printed text.toList ∧
      Layout.tokensOf text.toList = valueTokens false (.mapping (e :: rest)) := by
  have hpart := partReads_entries hkeys (fun f hf => (h f hf).valueReads 0 true (by omega))
    (by simp [indentation, pageWidth]) (List.cons_ne_nil e rest)
  obtain ⟨p, chunk, hput, hputs, hmargin, -, -, hreads⟩ := hpart {} (.inr ⟨rfl, .inr ⟨rfl, rfl⟩⟩)
  have hlast := hputs.trans (puts_indentTo_of_word (n := 0) (.inl hmargin))
  have htext : (p.indentTo 0).text = chunk ++ ['\n'] := hlast.text
  refine ⟨String.ofList (chunk ++ ['\n']), ?_, ?_, ?_⟩
  · have hput : putValue none false (.mapping (e :: rest)) {} = some p := hput
    rw [render, hput]
    exact congrArg (fun text => Except.ok (String.ofList text)) htext
  · rw [String.toList_ofList]
    exact hlast.printed
  · have hread := hreads ⟨[], 0, []⟩ {} 0 [] true (valueTokens false (.mapping (e :: rest))) rfl
      (Nat.zero_le _) (Nat.le_refl _) opens_nil (fun _ => rfl) (by
        have hlastLine :=
          Layout.reads_lastLine ((entryTokens (e :: rest)).reverse ++ [.blockMapping])
          (({} : Spot).after chunk) false
        simpa [Blocks.enter, Blocks.add, valueTokens, spaces] using hlastLine)
    rw [String.toList_ofList]
    exact (tokensOf_of_printed hlast.printed).trans (hread.readAll (Nat.le_refl _))

end Dialogue.Yaml
