import Dialogue.Proofs.Csv.Reading

/-! A field may stand as it is or between quotes, a line may end in two ways, and blank lines may
stand anywhere between records. A reader takes each spelling for the same records, and a text that
is cut off for the records up to there, the last one with fewer and shorter fields. -/

namespace Dialogue.Csv

/-! ## Spellings -/

inductive LineEnd where
  | lineFeed
  | returnAndLineFeed
  deriving DecidableEq

def LineEnd.chars : LineEnd → List Char
  | .lineFeed => ['\n']
  | .returnAndLineFeed => ['\r', '\n']

/-- A line end that is cut off is not there, or whole, or the first half of it is left. -/
theorem LineEnd.prefix_cases {e : LineEnd} {p : List Char} (h : p <+: e.chars) :
    p = [] ∨ p = ['\r'] ∨ p = e.chars := by
  cases e with
  | lineFeed =>
      rcases List.prefix_cons_iff.mp h with rfl | ⟨q, rfl, hq⟩
      · exact .inl rfl
      · rw [List.prefix_nil.mp hq]
        exact .inr (.inr rfl)
  | returnAndLineFeed =>
      rcases List.prefix_cons_iff.mp h with rfl | ⟨q, rfl, hq⟩
      · exact .inl rfl
      · rcases List.prefix_cons_iff.mp hq with rfl | ⟨q', rfl, hq'⟩
        · exact .inr (.inl rfl)
        · rw [List.prefix_nil.mp hq']
          exact .inr (.inr rfl)

/-- The ways to spell a field. It may stand as it is if none of its characters has a meaning of its
own, and between quotes with each quote in it written twice. -/
inductive FieldSpelling (f : List Char) : List Char → Prop
  | bare (h : ∀ c ∈ f, c ≠ ',' ∧ c ≠ '"' ∧ c ≠ '\n' ∧ c ≠ '\r') : FieldSpelling f f
  | quoted : FieldSpelling f ('"' :: doubleQuotes f ++ ['"'])

/-- The ways to spell the fields of a record, with commas between them. -/
inductive RecordSpelling : List (List Char) → List Char → Prop
  | last {f s : List Char} (hf : FieldSpelling f s) : RecordSpelling [f] s
  | more {f s t : List Char} {row : List (List Char)} (hf : FieldSpelling f s)
      (hrow : RecordSpelling row t) : RecordSpelling (f :: row) (s ++ ',' :: t)

/-- The ways to spell records. Each is on a line of its own, the last one with or without a line
end, and there may be blank lines before, between and behind them. An empty field that is alone in
its record needs its quotes, as without them it is a blank line. -/
inductive Spelling : List (List (List Char)) → List Char → Prop
  | nil : Spelling [] []
  | blank {rows : List (List (List Char))} {t : List Char} (e : LineEnd) (h : Spelling rows t) :
      Spelling rows (e.chars ++ t)
  | last {row : List (List Char)} {s : List Char} (hrow : RecordSpelling row s) (hs : s ≠ []) :
      Spelling [row] s
  | cons {row : List (List Char)} {rows : List (List (List Char))} {s t : List Char}
      (hrow : RecordSpelling row s) (hs : s ≠ []) (e : LineEnd) (h : Spelling rows t) :
      Spelling (row :: rows) (s ++ (e.chars ++ t))

theorem RecordSpelling.ne_nil {row : List (List Char)} {s : List Char}
    (h : RecordSpelling row s) : row ≠ [] := by
  cases h <;> simp

/-! ## What a cut leaves -/

/-- What is left of a record that is cut off in one of its fields. -/
inductive CutRecord : List (List Char) → List (List Char) → Prop
  | last {f v : List Char} {row : List (List Char)} (h : v <+: f) : CutRecord (f :: row) [v]
  | more {f : List Char} {row cut : List (List Char)} (h : CutRecord row cut) :
      CutRecord (f :: row) (f :: cut)

/-- What is left of records that are cut off between two of them or in one. -/
inductive Cut : List (List (List Char)) → List (List (List Char)) → Prop
  | nil {rows : List (List (List Char))} : Cut rows []
  | last {row cut : List (List Char)} {rows : List (List (List Char))} (h : CutRecord row cut) :
      Cut (row :: rows) [cut]
  | more {row : List (List Char)} {rows cut : List (List (List Char))} (h : Cut rows cut) :
      Cut (row :: rows) (row :: cut)

theorem CutRecord.ne_nil {row cut : List (List Char)} (h : CutRecord row cut) : cut ≠ [] := by
  cases h <;> simp

theorem prefix_append_cases {α : Type} {p a b : List α} (h : p <+: a ++ b) :
    p <+: a ∨ ∃ q, p = a ++ q ∧ q <+: b := by
  obtain ⟨rest, hrest⟩ := h
  rcases List.append_eq_append_iff.mp hrest with ⟨as, ha, -⟩ | ⟨q, hp, hb⟩
  · exact .inl ⟨as, ha.symm⟩
  · exact .inr ⟨q, hp, rest, hb.symm⟩

/-- A field between quotes that is cut off leaves the front of the field, with or without a quote
behind it. It is the closing one, or the first of two. -/
theorem prefix_doubleQuotes {p f : List Char} (h : p <+: doubleQuotes f ++ ['"']) :
    ∃ v, v <+: f ∧ (p = doubleQuotes v ∨ p = doubleQuotes v ++ ['"']) := by
  induction f generalizing p with
  | nil =>
      rcases List.prefix_cons_iff.mp h with rfl | ⟨q, rfl, hq⟩
      · exact ⟨[], List.prefix_rfl, .inl rfl⟩
      · rw [List.prefix_nil.mp hq]
        exact ⟨[], List.prefix_rfl, .inr rfl⟩
  | cons c f ih =>
      by_cases hc : c = '"'
      · subst hc
        rcases List.prefix_cons_iff.mp h with rfl | ⟨q, rfl, hq⟩
        · exact ⟨[], List.nil_prefix, .inl rfl⟩
        · rcases List.prefix_cons_iff.mp hq with rfl | ⟨q', rfl, hq'⟩
          · exact ⟨[], List.nil_prefix, .inr rfl⟩
          · obtain ⟨v, hv, hspelled⟩ := ih hq'
            refine ⟨'"' :: v, List.cons_prefix_cons.mpr ⟨rfl, hv⟩, ?_⟩
            exact hspelled.imp (fun heq => by rw [heq]; rfl) fun heq => by rw [heq]; rfl
      · have hcons : ∀ v, doubleQuotes (c :: v) = c :: doubleQuotes v := fun v => by
          simp [doubleQuotes, hc]
        rw [hcons, List.cons_append] at h
        rcases List.prefix_cons_iff.mp h with rfl | ⟨q, rfl, hq⟩
        · exact ⟨[], List.nil_prefix, .inl rfl⟩
        · obtain ⟨v, hv, hspelled⟩ := ih hq
          refine ⟨c :: v, List.cons_prefix_cons.mpr ⟨rfl, hv⟩, ?_⟩
          rw [hcons]
          exact hspelled.imp (fun heq => by rw [heq]) fun heq => by rw [heq]; rfl

/-! ## Inside a record -/

/-- A reader at the end of a field, which is not at the start of its record. -/
def Reader.Ends (r : Reader) (v : List Char) (fs : List (List Char))
    (rs : List (List (List Char))) : Prop :=
  r.Stands .bare v.reverse fs rs ∨ r.Stands .closed v.reverse fs rs ∨
    (r.Stands .field [] fs rs ∧ v = [])

/-- A reader in a field, whether the field is over or not. -/
def Reader.Amid (r : Reader) (v : List Char) (fs : List (List Char))
    (rs : List (List (List Char))) : Prop :=
  r.Ends v fs rs ∨ r.Stands .quoted v.reverse fs rs

section Field

variable {r : Reader} {f s v : List Char} {fs : List (List Char)} {rs : List (List (List Char))}

theorem Reader.Ends.holds (h : r.Ends v fs rs) : r.Holds v fs rs :=
  h.imp_right fun h => h.imp_right fun ⟨h, hv⟩ => ⟨.inl h, hv⟩

theorem Reader.Ends.carriageReturn (h : r.Ends v fs rs) :
    (r.step '\r').Stands .returned [] (v :: fs) rs := by
  rcases h with h | h | ⟨h, rfl⟩
  all_goals
    refine h.step '\r' fun r' hr' => ?_
    simpa [Reader.take, Reader.proceed, hr'.mode_eq] using hr'.save .returned

theorem Reader.Stands.carriageReturn (h : r.Stands .record [] [] rs) :
    (r.step '\r').Stands .returned [] [] rs :=
  h.step '\r' fun r' hr' => by simpa [Reader.take, hr'.mode_eq] using hr'.withMode .returned

/-- A record that a carriage return has ended is complete with the line feed behind it. -/
theorem Reader.Stands.lineFeed (h : r.Stands .returned [] fs rs) :
    (r.step '\n').Stands .record [] [] (fs.reverse :: rs) :=
  h.step '\n' fun r' hr' => by simpa [Reader.take, hr'.mode_eq] using hr'.finish

theorem Reader.Stands.close (h : r.Stands .returned [] fs rs) :
    r.close.Stands .record [] [] (fs.reverse :: rs) := by
  simpa [Reader.close, h.mode_eq, h.fault_eq] using h.finish

theorem Reader.Ends.lineEnd (h : r.Ends v fs rs) (e : LineEnd) :
    (e.chars.foldl Reader.step r).Stands .record [] [] ((v :: fs).reverse :: rs) := by
  cases e with
  | lineFeed =>
      rcases h with h | h | ⟨h, rfl⟩
      all_goals
        refine h.step '\n' fun r' hr' => ?_
        simpa [Reader.take, Reader.proceed, hr'.mode_eq] using (hr'.save .record).finish
  | returnAndLineFeed => exact h.carriageReturn.lineFeed

/-- A line end at the start of a record makes an empty one. -/
theorem Reader.Stands.lineEnd (h : r.Stands .record [] [] rs) (e : LineEnd) :
    (e.chars.foldl Reader.step r).Stands .record [] [] ([] :: rs) := by
  cases e with
  | lineFeed =>
      exact h.step '\n' fun r' hr' => by simpa [Reader.take, hr'.mode_eq] using hr'.finish
  | returnAndLineFeed => exact h.carriageReturn.lineFeed

/-- The end of the text ends the record, also in a field whose closing quote is missing. -/
theorem Reader.Amid.close (h : r.Amid v fs rs) :
    r.close.Stands .record [] [] ((v :: fs).reverse :: rs) := by
  rcases h with (h | h | ⟨h, rfl⟩) | h
  all_goals
    simpa [Reader.close, h.mode_eq, h.fault_eq] using (h.save .record).finish

/-- A spelled field is taken for what it is, unless there is nothing of it to be read. -/
theorem Reader.Begins.foldl_spelling (h : r.Begins fs rs) (hf : FieldSpelling f s)
    (hsize : f.length ≤ fieldLimit) :
    (s.foldl Reader.step r).Ends f fs rs ∨ s = [] ∧ f = [] := by
  cases hf with
  | bare hplain =>
      cases f with
      | nil => exact .inr ⟨rfl, rfl⟩
      | cons c cs =>
          obtain ⟨hc, hcs⟩ := List.forall_mem_cons.mp hplain
          have hrest := (h.step_bare c hc).foldl_bare cs (by simp [fieldLimit])
            fun c hc => ⟨(hcs c hc).1, (hcs c hc).2.2⟩
          rcases hrest with ⟨-, hbare⟩ | ⟨hlong, -⟩
          · exact .inl (.inl (by simpa using hbare))
          · simp only [List.length_cons, List.length_nil] at hlong hsize
            omega
  | quoted =>
      rcases h.quote.foldl_quoted f (by decide) with ⟨-, hquoted⟩ | ⟨hlong, -⟩
      · refine .inl (.inr (.inl ?_))
        rw [List.foldl_append, List.foldl_cons]
        rw [List.append_nil] at hquoted
        exact hquoted.step '"' fun r' hr' => by
          simpa [Reader.take, hr'.mode_eq] using hr'.withMode .closed
      · rw [List.length_nil, Nat.zero_add] at hlong
        omega

theorem Reader.Begins.holds_spelling (h : r.Begins fs rs) (hf : FieldSpelling f s)
    (hsize : f.length ≤ fieldLimit) : (s.foldl Reader.step r).Holds f fs rs := by
  rcases h.foldl_spelling hf hsize with hends | ⟨rfl, rfl⟩
  · exact hends.holds
  · exact h.holds

/-- In a record that has begun the field may be empty. -/
theorem Reader.Begins.ends_spelling (h : r.Begins fs rs) (hf : FieldSpelling f s)
    (hsize : f.length ≤ fieldLimit) (hbegun : s ≠ [] ∨ fs ≠ []) :
    (s.foldl Reader.step r).Ends f fs rs := by
  rcases h.foldl_spelling hf hsize with hends | ⟨rfl, rfl⟩
  · exact hends
  · have hfs : fs ≠ [] := by simpa using hbegun
    rcases h with h | ⟨-, hnil⟩
    · exact .inr (.inr ⟨h, rfl⟩)
    · exact absurd hnil hfs

/-- A spelled field that is cut off is taken for the front of it. -/
theorem Reader.Begins.foldl_cut (h : r.Begins fs rs) (hf : FieldSpelling f s)
    (hsize : f.length ≤ fieldLimit) {p : List Char} (hp : p <+: s) (hbegun : p ≠ [] ∨ fs ≠ []) :
    ∃ v, v <+: f ∧ (p.foldl Reader.step r).Amid v fs rs := by
  cases hf with
  | bare hplain =>
      have hplain' : FieldSpelling p p := .bare fun c hc => hplain c (hp.subset hc)
      exact ⟨p, hp, .inl (h.ends_spelling hplain' (Nat.le_trans hp.length_le hsize) hbegun)⟩
  | quoted =>
      rcases List.prefix_cons_iff.mp hp with rfl | ⟨q, rfl, hq⟩
      · have hempty : FieldSpelling [] [] := .bare (by simp)
        exact ⟨[], List.nil_prefix, .inl (h.ends_spelling hempty (by decide) hbegun)⟩
      · obtain ⟨v, hv, hspelled⟩ := prefix_doubleQuotes hq
        have hsize' := Nat.le_trans hv.length_le hsize
        refine ⟨v, hv, ?_⟩
        rcases hspelled with rfl | rfl
        · rcases h.quote.foldl_quoted v (by decide) with ⟨-, hquoted⟩ | ⟨hlong, -⟩
          · exact .inr (by simpa using hquoted)
          · rw [List.length_nil, Nat.zero_add] at hlong
            omega
        · exact .inl (h.ends_spelling .quoted hsize' (.inl (by simp)))

end Field

section Record

variable {r : Reader} {row fs : List (List Char)} {s : List Char} {rs : List (List (List Char))}

theorem Reader.Begins.foldl_record (h : r.Begins fs rs) (hrow : RecordSpelling row s)
    (hsize : ∀ f ∈ row, f.length ≤ fieldLimit) (hbegun : s ≠ [] ∨ fs ≠ []) :
    ∃ v gs, (s.foldl Reader.step r).Ends v gs rs ∧ (v :: gs).reverse = fs.reverse ++ row := by
  induction hrow generalizing r fs with
  | @last f s hf =>
      refine ⟨f, fs, h.ends_spelling hf (hsize f (by simp)) hbegun, ?_⟩
      rw [List.reverse_cons]
  | @more f s t row hf _ ih =>
      obtain ⟨hfirst, hrest⟩ := List.forall_mem_cons.mp hsize
      rw [List.foldl_append, List.foldl_cons]
      have hcomma := (h.holds_spelling hf hfirst).comma
      obtain ⟨v, gs, hends, hgs⟩ := ih (.inl hcomma) hrest (.inr (by simp))
      exact ⟨v, gs, hends, by simpa using hgs⟩

/-- A spelled record that is cut off is read up to there, in one of its fields. -/
theorem Reader.Begins.foldl_cutRecord (h : r.Begins fs rs) (hrow : RecordSpelling row s)
    (hsize : ∀ f ∈ row, f.length ≤ fieldLimit) {p : List Char} (hp : p <+: s)
    (hbegun : p ≠ [] ∨ fs ≠ []) :
    ∃ cut v gs, CutRecord row cut ∧ (p.foldl Reader.step r).Amid v gs rs ∧
      (v :: gs).reverse = fs.reverse ++ cut := by
  induction hrow generalizing r fs p with
  | @last f s hf =>
      obtain ⟨v, hv, hamid⟩ := h.foldl_cut hf (hsize f (by simp)) hp hbegun
      exact ⟨[v], v, fs, .last hv, hamid, by rw [List.reverse_cons]⟩
  | @more f s t row hf _ ih =>
      obtain ⟨hfirst, hrest⟩ := List.forall_mem_cons.mp hsize
      have hfield : p <+: s → ∃ cut v gs, CutRecord (f :: row) cut ∧
          (p.foldl Reader.step r).Amid v gs rs ∧ (v :: gs).reverse = fs.reverse ++ cut := by
        intro hp
        obtain ⟨v, hv, hamid⟩ := h.foldl_cut hf hfirst hp hbegun
        exact ⟨[v], v, fs, .last hv, hamid, by rw [List.reverse_cons]⟩
      rcases prefix_append_cases hp with hp | ⟨q, rfl, hq⟩
      · exact hfield hp
      · rcases List.prefix_cons_iff.mp hq with rfl | ⟨q', rfl, hq'⟩
        · exact hfield (by simp)
        · rw [List.foldl_append, List.foldl_cons]
          have hcomma := (h.holds_spelling hf hfirst).comma
          obtain ⟨cut, v, gs, hcut, hamid, hgs⟩ := ih (.inl hcomma) hrest hq' (.inr (by simp))
          exact ⟨f :: cut, v, gs, .more hcut, hamid, by simpa using hgs⟩

end Record

/-! ## Between records -/

/-- The records of a reading that are not blank lines. -/
def Reading.rows (r : Reading) : List (List (List Char)) :=
  (r.records.map Record.fields).filter fun row => !row.isEmpty

/-- A reader between two lines that has read some records, and blank lines wherever they were. -/
def Reader.HasRead (r : Reader) (rows : List (List (List Char))) : Prop :=
  ∃ rs, r.Stands .record [] [] rs ∧ rs.reverse.filter (fun row => !row.isEmpty) = rows

section Lines

variable {r : Reader} {row : List (List Char)} {rows done : List (List (List Char))}
  {s t p : List Char}

theorem hasRead_initial : ({} : Reader).HasRead [] :=
  ⟨[], stands_initial, rfl⟩

theorem Reader.HasRead.close (h : r.HasRead done) : r.close = r := by
  obtain ⟨rs, hr, -⟩ := h
  simp [Reader.close, hr.mode_eq, hr.fault_eq]

theorem hasRead_blank {rs : List (List (List Char))} (h : r.Stands .record [] [] ([] :: rs))
    (hrs : rs.reverse.filter (fun row => !row.isEmpty) = done) : r.HasRead done :=
  ⟨[] :: rs, h, by simpa using hrs⟩

theorem hasRead_record {rs : List (List (List Char))} (h : r.Stands .record [] [] (row :: rs))
    (hrs : rs.reverse.filter (fun row => !row.isEmpty) = done) (hrow : row ≠ []) :
    r.HasRead (done ++ [row]) := by
  refine ⟨row :: rs, h, ?_⟩
  have hkept : (!row.isEmpty) = true := by simpa using hrow
  rw [List.reverse_cons, List.filter_append, hrs, List.filter_singleton, hkept, cond_true]

theorem Reader.HasRead.blank (h : r.HasRead done) (e : LineEnd) :
    (e.chars.foldl Reader.step r).HasRead done := by
  obtain ⟨rs, hr, hrs⟩ := h
  exact hasRead_blank (hr.lineEnd e) hrs

theorem Reader.HasRead.cutBlank (h : r.HasRead done) {e : LineEnd} (hp : p <+: e.chars) :
    (p.foldl Reader.step r).close.HasRead done := by
  rcases LineEnd.prefix_cases hp with rfl | rfl | rfl
  · rwa [List.foldl_nil, h.close]
  · obtain ⟨rs, hr, hrs⟩ := h
    exact hasRead_blank hr.carriageReturn.close hrs
  · have hblank := h.blank e
    rwa [hblank.close]

section Record

variable (h : r.HasRead done) (hrow : RecordSpelling row s)
  (hsize : ∀ f ∈ row, f.length ≤ fieldLimit)

include h hrow hsize

/-- Behind the last field of a record only its line end is missing. -/
theorem Reader.HasRead.ends (hs : s ≠ []) :
    ∃ v gs rs, (s.foldl Reader.step r).Ends v gs rs ∧ (v :: gs).reverse = row ∧
      rs.reverse.filter (fun row => !row.isEmpty) = done := by
  obtain ⟨rs, hr, hrs⟩ := h
  obtain ⟨v, gs, hends, hgs⟩ := Reader.Begins.foldl_record (.inr ⟨hr, rfl⟩) hrow hsize (.inl hs)
  exact ⟨v, gs, rs, hends, hgs, hrs⟩

theorem Reader.HasRead.record (hs : s ≠ []) (e : LineEnd) :
    ((s ++ e.chars).foldl Reader.step r).HasRead (done ++ [row]) := by
  obtain ⟨v, gs, rs, hends, rfl, hrs⟩ := h.ends hrow hsize hs
  rw [List.foldl_append]
  exact hasRead_record (hends.lineEnd e) hrs hrow.ne_nil

/-- At the end of the text the line end of the last record may be missing, in whole or in part. -/
theorem Reader.HasRead.last (hs : s ≠ []) {e : LineEnd} (hp : p <+: e.chars) :
    ((s ++ p).foldl Reader.step r).close.HasRead (done ++ [row]) := by
  obtain ⟨v, gs, rs, hends, rfl, hrs⟩ := h.ends hrow hsize hs
  rw [List.foldl_append]
  rcases LineEnd.prefix_cases hp with rfl | rfl | rfl
  · exact hasRead_record (Reader.Amid.close (.inl hends)) hrs hrow.ne_nil
  · exact hasRead_record hends.carriageReturn.close hrs hrow.ne_nil
  · have hrecord := hasRead_record (hends.lineEnd e) hrs hrow.ne_nil
    rwa [hrecord.close]

theorem Reader.HasRead.cut (hp : p <+: s) :
    ∃ cut, Cut (row :: rows) cut ∧ (p.foldl Reader.step r).close.HasRead (done ++ cut) := by
  by_cases hne : p = []
  · subst hne
    exact ⟨[], .nil, by rwa [List.foldl_nil, h.close, List.append_nil]⟩
  · obtain ⟨rs, hr, hrs⟩ := h
    obtain ⟨cut, v, gs, hcut, hamid, hgs⟩ :=
      Reader.Begins.foldl_cutRecord (.inr ⟨hr, rfl⟩) hrow hsize hp (.inl hne)
    have hclose := hamid.close
    rw [hgs] at hclose
    exact ⟨[cut], .last hcut, hasRead_record hclose hrs hcut.ne_nil⟩

end Record

/-! ## Whole texts -/

/-- The records of a text, whatever their spelling. -/
theorem Spelling.hasRead (ht : Spelling rows t)
    (hsize : ∀ row ∈ rows, ∀ f ∈ row, f.length ≤ fieldLimit) (h : r.HasRead done) :
    (t.foldl Reader.step r).close.HasRead (done ++ rows) := by
  induction ht generalizing r done with
  | nil => rwa [List.foldl_nil, h.close, List.append_nil]
  | blank e _ ih =>
      rw [List.foldl_append]
      exact ih hsize (h.blank e)
  | @last row s hrow hs =>
      have hlast := h.last hrow (hsize row (by simp)) hs (e := .lineFeed) List.nil_prefix
      rwa [List.append_nil] at hlast
  | @cons row rows s t hrow hs e _ ih =>
      obtain ⟨hfirst, hrest⟩ := List.forall_mem_cons.mp hsize
      have hrecord := ih hrest (h.record hrow hfirst hs e)
      rwa [← List.foldl_append, List.append_assoc, List.append_assoc] at hrecord

/-- A text that is cut off has its records up to there. -/
theorem Spelling.hasRead_cut (ht : Spelling rows t)
    (hsize : ∀ row ∈ rows, ∀ f ∈ row, f.length ≤ fieldLimit) (hp : p <+: t) (h : r.HasRead done) :
    ∃ cut, Cut rows cut ∧ (p.foldl Reader.step r).close.HasRead (done ++ cut) := by
  induction ht generalizing r done p with
  | nil =>
      rw [List.prefix_nil.mp hp]
      exact ⟨[], .nil, by rwa [List.foldl_nil, h.close, List.append_nil]⟩
  | blank e _ ih =>
      rcases prefix_append_cases hp with hp | ⟨q, rfl, hq⟩
      · exact ⟨[], .nil, by simpa using h.cutBlank hp⟩
      · rw [List.foldl_append]
        exact ih hsize hq (h.blank e)
  | @last row s hrow hs => exact h.cut hrow (hsize row (by simp)) hp
  | @cons row rows s t hrow hs e _ ih =>
      obtain ⟨hfirst, hrest⟩ := List.forall_mem_cons.mp hsize
      rcases prefix_append_cases hp with hp | ⟨q, rfl, hq⟩
      · exact h.cut hrow hfirst hp
      · rcases prefix_append_cases hq with hq | ⟨q', rfl, hq'⟩
        · exact ⟨[row], .more .nil, h.last hrow hfirst hs hq⟩
        · obtain ⟨cut, hcut, hread⟩ := ih hrest hq' (h.record hrow hfirst hs e)
          rw [← List.foldl_append, List.append_assoc, List.append_assoc] at hread
          exact ⟨row :: cut, .more hcut, hread⟩

end Lines

theorem rows_of_hasRead {rows : List (List (List Char))} {t : List Char}
    (h : (t.foldl Reader.step {}).close.HasRead rows) :
    (read t).fault = none ∧ (read t).rows = rows := by
  obtain ⟨rs, hr, hrs⟩ := h
  refine ⟨hr.fault_eq, ?_⟩
  rw [Reading.rows, read, List.map_reverse, hr.records_eq, hrs]

/-- A reader takes every spelling of records for these records. -/
theorem read_spelling {rows : List (List (List Char))} {t : List Char} (h : Spelling rows t)
    (hsize : ∀ row ∈ rows, ∀ f ∈ row, f.length ≤ fieldLimit) :
    (read t).fault = none ∧ (read t).rows = rows :=
  rows_of_hasRead (h.hasRead hsize hasRead_initial)

/-- A reader takes a text that is cut off for what is left of its records. It does not refuse
it. -/
theorem read_cut {rows : List (List (List Char))} {t p : List Char} (h : Spelling rows t)
    (hsize : ∀ row ∈ rows, ∀ f ∈ row, f.length ≤ fieldLimit) (hp : p <+: t) :
    (read p).fault = none ∧ Cut rows (read p).rows := by
  obtain ⟨cut, hcut, hread⟩ := h.hasRead_cut hsize hp hasRead_initial
  obtain ⟨hfault, hrows⟩ := rows_of_hasRead hread
  rw [hrows]
  exact ⟨hfault, hcut⟩

/-! ## Written texts -/

theorem fieldSpelling_writeField {f : List Char} (h : Readable f) :
    FieldSpelling f (writeField f) := by
  cases hq : needsQuotes f with
  | true =>
      rw [writeField, hq, if_pos rfl]
      exact .quoted
  | false =>
      rw [writeField, hq, if_neg Bool.false_ne_true]
      have hreturn := ((readable_of_not_needsQuotes hq).mp h).2
      refine .bare fun c hc => ?_
      obtain ⟨hcomma, hquote, hfeed⟩ := needsQuotes_eq_false.mp hq c hc
      exact ⟨hcomma, hquote, hfeed, fun heq => hreturn (heq ▸ hc)⟩

/-- A written record is spelled, with a line feed behind it. -/
theorem exists_spelling_writeRecord (f : List Char) (row : List (List Char))
    (h : ∀ x ∈ f :: row, Readable x) :
    ∃ s, RecordSpelling (f :: row) s ∧ writeRecord (f :: row) = s ++ ['\n'] := by
  induction row generalizing f with
  | nil => exact ⟨_, .last (fieldSpelling_writeField (h f (by simp))), writeRecord_singleton f⟩
  | cons g row ih =>
      obtain ⟨hf, hrest⟩ := List.forall_mem_cons.mp h
      obtain ⟨s, hs, hwrite⟩ := ih g hrest
      refine ⟨_, .more (fieldSpelling_writeField hf) hs, ?_⟩
      rw [writeRecord_cons, hwrite]
      simp

/-- What is written is a spelling, as far as it can be read back. -/
theorem spelling_writeRecords (rows : List (List (List Char)))
    (hrows : ∀ row ∈ rows, 2 ≤ row.length) (h : ∀ row ∈ rows, ∀ f ∈ row, Readable f) :
    Spelling rows (rows.flatMap writeRecord) := by
  induction rows with
  | nil => exact .nil
  | cons row rows ih =>
      obtain ⟨hlength, hlengths⟩ := List.forall_mem_cons.mp hrows
      obtain ⟨hrow, hrest⟩ := List.forall_mem_cons.mp h
      obtain ⟨f, g, row, rfl⟩ := exists_cons_cons hlength
      obtain ⟨s, hs, hwrite⟩ := exists_spelling_writeRecord f (g :: row) hrow
      have hne : s ≠ [] := by
        cases hs
        simp
      rw [List.flatMap_cons, hwrite, List.append_assoc]
      exact .cons hs hne .lineFeed (ih hlengths hrest)

end Dialogue.Csv
