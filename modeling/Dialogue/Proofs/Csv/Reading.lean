import Dialogue.Csv
import Mathlib.Data.List.Forall2

/-! A reader takes each field either as it was written or, when a carriage return stands in it
without quotes or it is too long, not at all or cut off. -/

namespace Dialogue.Csv

/-- A field that comes back as it was written. -/
def Readable (f : List Char) : Prop :=
  f.length ≤ fieldLimit ∧ ('\r' ∈ f → ',' ∈ f ∨ '"' ∈ f ∨ '\n' ∈ f)

instance (f : List Char) : Decidable (Readable f) :=
  inferInstanceAs (Decidable (f.length ≤ fieldLimit ∧ _))

theorem needsQuotes_eq_false {f : List Char} :
    needsQuotes f = false ↔ ∀ c ∈ f, c ≠ ',' ∧ c ≠ '"' ∧ c ≠ '\n' := by
  simp [needsQuotes, and_assoc]

theorem readable_of_needsQuotes {f : List Char} (hq : needsQuotes f = true) :
    Readable f ↔ f.length ≤ fieldLimit := by
  have hmem : ',' ∈ f ∨ '"' ∈ f ∨ '\n' ∈ f := by
    obtain ⟨c, hc, h⟩ := List.any_eq_true.mp hq
    simp only [Bool.or_eq_true, beq_iff_eq] at h
    rcases h with (rfl | rfl) | rfl <;> simp [hc]
  exact ⟨And.left, fun h => ⟨h, fun _ => hmem⟩⟩

theorem readable_of_not_needsQuotes {f : List Char} (hq : needsQuotes f = false) :
    Readable f ↔ f.length ≤ fieldLimit ∧ '\r' ∉ f := by
  have hno : ¬(',' ∈ f ∨ '"' ∈ f ∨ '\n' ∈ f) := by
    rintro (h | h | h) <;> simpa using needsQuotes_eq_false.mp hq _ h
  exact and_congr_right fun _ => imp_iff_not hno

/-! ## Readers that have not refused their text -/

/-- What counts in a reader for the characters to come. Line numbers are left out. -/
structure Reader.Stands (r : Reader) (mode : Mode) (field : List Char)
    (fields : List (List Char)) (records : List (List (List Char))) : Prop where
  mode_eq : r.mode = mode
  field_eq : r.field = field
  size_eq : r.size = field.length
  fields_eq : r.fields = fields
  records_eq : r.records.map Record.fields = records
  fault_eq : r.fault = none

section Stands

variable {r : Reader} {m : Mode} {g : List Char} {fs : List (List Char)}
  {rs : List (List (List Char))}

theorem stands_initial : ({} : Reader).Stands .record [] [] [] :=
  ⟨rfl, rfl, rfl, rfl, rfl, rfl⟩

theorem Reader.Stands.add (h : r.Stands m g fs rs) (c : Char) (m' : Mode)
    (hg : g.length < fieldLimit) : (r.add c m').Stands m' (c :: g) fs rs := by
  have hsize : r.size < fieldLimit := h.size_eq ▸ hg
  simp only [Reader.add, hsize, if_true]
  exact ⟨rfl, by rw [h.field_eq], by simp [h.size_eq], h.fields_eq, h.records_eq, h.fault_eq⟩

theorem Reader.Stands.add_fault (h : r.Stands m g fs rs) (c : Char) (m' : Mode)
    (hg : fieldLimit ≤ g.length) : (r.add c m').fault.isSome := by
  have hsize : ¬r.size < fieldLimit := by rw [h.size_eq]; omega
  simp [Reader.add, hsize]

theorem Reader.Stands.save (h : r.Stands m g fs rs) (m' : Mode) :
    (r.save m').Stands m' [] (g.reverse :: fs) rs :=
  ⟨rfl, rfl, rfl, by simp [Reader.save, h.field_eq, h.fields_eq], h.records_eq, h.fault_eq⟩

theorem Reader.Stands.finish (h : r.Stands m g fs rs) :
    r.finish.Stands .record [] [] (fs.reverse :: rs) :=
  ⟨rfl, rfl, rfl, rfl, by simp [Reader.finish, h.fields_eq, h.records_eq], h.fault_eq⟩

theorem Reader.Stands.withMode (h : r.Stands m g fs rs) (m' : Mode) :
    Reader.Stands { r with mode := m' } m' g fs rs :=
  ⟨rfl, h.field_eq, h.size_eq, h.fields_eq, h.records_eq, h.fault_eq⟩

/-- A step takes its character, and notes lines, which do not count. -/
theorem Reader.Stands.step_eq (h : r.Stands m g fs rs) (c : Char) :
    ∃ r' : Reader, r'.Stands m g fs rs ∧
      r.step c = { r'.take c with atLineStart := decide (c = '\n') } := by
  refine ⟨if r.atLineStart then { r with line := r.line + 1 } else r, ?_, ?_⟩
  · split
    · exact ⟨h.mode_eq, h.field_eq, h.size_eq, h.fields_eq, h.records_eq, h.fault_eq⟩
    · exact h
  · have hfault : ¬r.fault.isSome = true := by simp [h.fault_eq]
    rw [Reader.step, if_neg hfault]

theorem Reader.Stands.step (h : r.Stands m g fs rs) (c : Char) {m' : Mode} {g' : List Char}
    {fs' : List (List Char)} {rs' : List (List (List Char))}
    (htake : ∀ r' : Reader, r'.Stands m g fs rs → (r'.take c).Stands m' g' fs' rs') :
    (r.step c).Stands m' g' fs' rs' := by
  obtain ⟨r', hr', hstep⟩ := h.step_eq c
  have ht := htake r' hr'
  rw [hstep]
  exact ⟨ht.mode_eq, ht.field_eq, ht.size_eq, ht.fields_eq, ht.records_eq, ht.fault_eq⟩

theorem Reader.Stands.step_fault (h : r.Stands m g fs rs) (c : Char)
    (htake : ∀ r' : Reader, r'.Stands m g fs rs → (r'.take c).fault.isSome) :
    (r.step c).fault.isSome := by
  obtain ⟨r', hr', hstep⟩ := h.step_eq c
  rw [hstep]
  exact htake r' hr'

end Stands

theorem foldl_step_of_fault (r : Reader) (cs : List Char) (h : r.fault.isSome) :
    cs.foldl Reader.step r = r := by
  induction cs with
  | nil => rfl
  | cons c cs ih =>
      have hstep : r.step c = r := by rw [Reader.step, if_pos h]
      rw [List.foldl_cons, hstep, ih]

/-! ## Inside a field -/

section Field

variable {r : Reader} {g : List Char} {fs : List (List Char)} {rs : List (List (List Char))}

theorem Reader.Stands.take_bare {c : Char} (h : r.Stands .bare g fs rs)
    (hc : c ≠ ',' ∧ c ≠ '\n' ∧ c ≠ '\r') : r.take c = r.add c .bare := by
  simp [Reader.take, Reader.proceed, h.mode_eq, hc]

/-- Characters without a meaning of their own go on a bare field. -/
theorem Reader.Stands.foldl_bare (cs : List Char) (h : r.Stands .bare g fs rs)
    (hg : g.length ≤ fieldLimit) (hcs : ∀ c ∈ cs, c ≠ ',' ∧ c ≠ '\n' ∧ c ≠ '\r') :
    (g.length + cs.length ≤ fieldLimit ∧
        (cs.foldl Reader.step r).Stands .bare (cs.reverse ++ g) fs rs) ∨
      (fieldLimit < g.length + cs.length ∧ (cs.foldl Reader.step r).fault.isSome) := by
  induction cs generalizing r g with
  | nil => exact .inl ⟨hg, h⟩
  | cons c cs ih =>
      obtain ⟨hc, hcs⟩ := List.forall_mem_cons.mp hcs
      simp only [List.foldl_cons, List.length_cons, List.reverse_cons, List.append_assoc]
      by_cases hlt : g.length < fieldLimit
      · have hstep : (r.step c).Stands .bare (c :: g) fs rs :=
          h.step c fun r' hr' => hr'.take_bare hc ▸ hr'.add c .bare hlt
        simpa [Nat.add_assoc, Nat.add_comm 1] using ih hstep hlt hcs
      · have hstep : (r.step c).fault.isSome :=
          h.step_fault c fun r' hr' => hr'.take_bare hc ▸ hr'.add_fault c .bare (by omega)
        rw [foldl_step_of_fault _ cs hstep]
        exact .inr ⟨by omega, hstep⟩

/-- A quote written twice is one quote of the field, and all else stands for itself. -/
theorem Reader.Stands.foldl_quoted (cs : List Char) (h : r.Stands .quoted g fs rs)
    (hg : g.length ≤ fieldLimit) :
    (g.length + cs.length ≤ fieldLimit ∧
        ((doubleQuotes cs).foldl Reader.step r).Stands .quoted (cs.reverse ++ g) fs rs) ∨
      (fieldLimit < g.length + cs.length ∧
        ((doubleQuotes cs).foldl Reader.step r).fault.isSome) := by
  induction cs generalizing r g with
  | nil => exact .inl ⟨hg, h⟩
  | cons c cs ih =>
      -- The two quotes of a doubled one lead through `closed` and back.
      have hone : ∃ r' : Reader, ∃ m, r'.Stands m g fs rs ∧
          (doubleQuotes (c :: cs)).foldl Reader.step r =
            (doubleQuotes cs).foldl Reader.step (r'.step c) ∧
          ∀ r'' : Reader, r''.Stands m g fs rs → r''.take c = r''.add c .quoted := by
        by_cases hc : c = '"'
        · subst hc
          have hclosed : (r.step '"').Stands .closed g fs rs := h.step '"' fun r' hr' => by
            simpa [Reader.take, hr'.mode_eq] using hr'.withMode .closed
          refine ⟨_, .closed, hclosed, by simp [doubleQuotes], fun r'' hr'' => ?_⟩
          simp [Reader.take, hr''.mode_eq]
        · refine ⟨r, .quoted, h, by simp [doubleQuotes, hc], fun r'' hr'' => ?_⟩
          simp [Reader.take, hr''.mode_eq, hc]
      obtain ⟨r', m, hr', hfold, htake⟩ := hone
      simp only [hfold, List.length_cons, List.reverse_cons, List.append_assoc]
      by_cases hlt : g.length < fieldLimit
      · have hstep : (r'.step c).Stands .quoted (c :: g) fs rs :=
          hr'.step c fun r'' hr'' => htake r'' hr'' ▸ hr''.add c .quoted hlt
        simpa [Nat.add_assoc, Nat.add_comm 1] using ih hstep hlt
      · have hstep : (r'.step c).fault.isSome :=
          hr'.step_fault c fun r'' hr'' => htake r'' hr'' ▸ hr''.add_fault c .quoted (by omega)
        rw [foldl_step_of_fault _ _ hstep]
        exact .inr ⟨by omega, hstep⟩

/-- Behind a carriage return there is nothing to read on the line but carriage returns. -/
theorem Reader.Stands.foldl_returned (cs : List Char) (h : r.Stands .returned g fs rs)
    (hcs : '\n' ∉ cs) :
    (cs.foldl Reader.step r).Stands .returned g fs rs ∨
      (cs.foldl Reader.step r).fault.isSome := by
  induction cs generalizing r with
  | nil => exact .inl h
  | cons c cs ih =>
      have hn : c ≠ '\n' := fun hc => hcs (by simp [hc])
      have hrest : '\n' ∉ cs := fun h => hcs (List.mem_cons_of_mem c h)
      rw [List.foldl_cons]
      by_cases hc : c = '\r'
      · subst hc
        exact ih (h.step '\r' fun r' hr' => by simpa [Reader.take, hr'.mode_eq] using hr') hrest
      · have hstep : (r.step c).fault.isSome :=
          h.step_fault c fun r' hr' => by simp [Reader.take, hr'.mode_eq, hn, hc]
        rw [foldl_step_of_fault _ cs hstep]
        exact .inr hstep

end Field

/-! ## A written field -/

/-- A reader where a field begins. -/
def Reader.Begins (r : Reader) (fs : List (List Char)) (rs : List (List (List Char))) : Prop :=
  r.Stands .field [] fs rs ∨ (r.Stands .record [] fs rs ∧ fs = [])

/-- A reader behind the characters of a field that it takes for `v`. -/
def Reader.Holds (r : Reader) (v : List Char) (fs : List (List Char))
    (rs : List (List (List Char))) : Prop :=
  r.Stands .bare v.reverse fs rs ∨ r.Stands .closed v.reverse fs rs ∨ (r.Begins fs rs ∧ v = [])

section Written

variable {r : Reader} {v : List Char} {fs : List (List Char)} {rs : List (List (List Char))}

theorem Reader.Holds.comma (h : r.Holds v fs rs) :
    (r.step ',').Stands .field [] (v :: fs) rs := by
  rcases h with h | h | ⟨h | ⟨h, rfl⟩, rfl⟩
  all_goals
    refine h.step ',' fun r' hr' => ?_
    simpa [Reader.take, Reader.proceed, Reader.begin, hr'.mode_eq] using hr'.save .field

theorem Reader.Holds.lineFeed (h : r.Holds v fs rs) (hfs : fs ≠ []) :
    (r.step '\n').Stands .record [] [] ((v :: fs).reverse :: rs) := by
  rcases h with h | h | ⟨h | ⟨h, rfl⟩, rfl⟩
  case inr.inr.inr => exact absurd rfl hfs
  all_goals
    refine h.step '\n' fun r' hr' => ?_
    simpa [Reader.take, Reader.proceed, hr'.mode_eq] using (hr'.save .record).finish

/-- A carriage return ends the record, and with it the field unless the record was empty. -/
theorem Reader.Holds.carriageReturn (h : r.Holds v fs rs) :
    ∃ gs, (r.step '\r').Stands .returned [] gs rs ∧ (fs ≠ [] → gs = v :: fs) := by
  rcases h with h | h | ⟨h | ⟨h, rfl⟩, rfl⟩
  case inr.inr.inr =>
    refine ⟨[], h.step '\r' fun r' hr' => ?_, by simp⟩
    simpa [Reader.take, hr'.mode_eq] using hr'.withMode .returned
  all_goals
    refine ⟨_, h.step '\r' fun r' hr' => ?_, fun _ => rfl⟩
    simpa [Reader.take, Reader.proceed, hr'.mode_eq] using hr'.save .returned

theorem Reader.Begins.holds (h : r.Begins fs rs) : r.Holds [] fs rs :=
  .inr (.inr ⟨h, rfl⟩)

/-- The first character of a field, if it has no meaning of its own. -/
theorem Reader.Begins.step_bare (h : r.Begins fs rs) (c : Char)
    (hc : c ≠ ',' ∧ c ≠ '"' ∧ c ≠ '\n' ∧ c ≠ '\r') : (r.step c).Stands .bare [c] fs rs := by
  rcases h with h | ⟨h, rfl⟩
  all_goals
    refine h.step c fun r' hr' => ?_
    simpa [Reader.take, Reader.begin, hr'.mode_eq, hc] using hr'.add c .bare (by decide)

theorem Reader.Begins.quote (h : r.Begins fs rs) : (r.step '"').Stands .quoted [] fs rs := by
  rcases h with h | ⟨h, rfl⟩
  all_goals
    refine h.step '"' fun r' hr' => ?_
    simpa [Reader.take, Reader.begin, hr'.mode_eq] using hr'.withMode .quoted

theorem Reader.Begins.foldl_bare (h : r.Begins fs rs) (cs : List Char)
    (hcs : ∀ c ∈ cs, c ≠ ',' ∧ c ≠ '"' ∧ c ≠ '\n' ∧ c ≠ '\r') :
    (cs.length ≤ fieldLimit ∧ (cs.foldl Reader.step r).Holds cs fs rs) ∨
      (fieldLimit < cs.length ∧ (cs.foldl Reader.step r).fault.isSome) := by
  cases cs with
  | nil => exact .inl ⟨by decide, h.holds⟩
  | cons c cs =>
      obtain ⟨hc, hcs⟩ := List.forall_mem_cons.mp hcs
      have hrest := (h.step_bare c hc).foldl_bare cs (by simp [fieldLimit])
        fun c hc => ⟨(hcs c hc).1, (hcs c hc).2.2⟩
      simp only [List.length_singleton, Nat.add_comm 1] at hrest
      exact hrest.imp (And.imp_right fun hb => .inl (by simpa using hb)) id

theorem Reader.Begins.foldl_quoted (h : r.Begins fs rs) (f : List Char) :
    (f.length ≤ fieldLimit ∧
        (('"' :: doubleQuotes f ++ ['"']).foldl Reader.step r).Holds f fs rs) ∨
      (fieldLimit < f.length ∧
        (('"' :: doubleQuotes f ++ ['"']).foldl Reader.step r).fault.isSome) := by
  have hrest := h.quote.foldl_quoted f (by decide)
  simp only [List.cons_append, List.foldl_cons, List.foldl_append, List.foldl_nil]
  simp only [List.length_nil, Nat.zero_add, List.append_nil] at hrest
  rcases hrest with ⟨hlen, hq⟩ | ⟨hlen, hfault⟩
  · refine .inl ⟨hlen, .inr (.inl ?_)⟩
    exact hq.step '"' fun r' hr' => by simpa [Reader.take, hr'.mode_eq] using hr'.withMode .closed
  · have hstep := foldl_step_of_fault _ ['"'] hfault
    rw [List.foldl_cons, List.foldl_nil] at hstep
    exact .inr ⟨hlen, by rwa [hstep]⟩

/-- A bare field with a carriage return is taken only up to there. -/
theorem Reader.Begins.foldl_carriageReturn (h : r.Begins fs rs) (f : List Char)
    (hq : needsQuotes f = false) (hcr : '\r' ∈ f) :
    (f.foldl Reader.step r).fault.isSome ∨
      ∃ gs, (f.foldl Reader.step r).Stands .returned [] gs rs ∧
        (fs ≠ [] → ∃ v, v ≠ f ∧ gs = v :: fs) := by
  obtain ⟨a, b, rfl, ha⟩ := List.eq_append_cons_of_mem hcr
  have hplain := needsQuotes_eq_false.mp hq
  have hfront : ∀ c ∈ a, c ≠ ',' ∧ c ≠ '"' ∧ c ≠ '\n' ∧ c ≠ '\r' := fun c hc => by
    have hc' := hplain c (by simp [hc])
    exact ⟨hc'.1, hc'.2.1, hc'.2.2, fun hcr => ha (hcr ▸ hc)⟩
  have hback : '\n' ∉ b := fun hn => (hplain '\n' (by simp [hn])).2.2 rfl
  rw [List.foldl_append, List.foldl_cons]
  rcases h.foldl_bare a hfront with ⟨-, hholds⟩ | ⟨-, hfault⟩
  · obtain ⟨gs, hgs, hcut⟩ := hholds.carriageReturn
    refine (hgs.foldl_returned b hback).symm.imp_right fun hret => ⟨gs, hret, fun hfs => ?_⟩
    exact ⟨a, by simp, hcut hfs⟩
  · rw [← List.foldl_cons, foldl_step_of_fault _ _ hfault]
    exact .inl hfault

/-- A written field is taken as it was, or the text is refused, or the record ends in it. -/
theorem Reader.Begins.foldl_writeField (h : r.Begins fs rs) (f : List Char) :
    (Readable f ∧ ((writeField f).foldl Reader.step r).Holds f fs rs) ∨
      (¬Readable f ∧ (((writeField f).foldl Reader.step r).fault.isSome ∨
        ∃ gs, ((writeField f).foldl Reader.step r).Stands .returned [] gs rs ∧
          (fs ≠ [] → ∃ v, v ≠ f ∧ gs = v :: fs))) := by
  cases hq : needsQuotes f with
  | true =>
      simp only [writeField, hq, if_true, readable_of_needsQuotes hq, Nat.not_le]
      exact (h.foldl_quoted f).imp_right (And.imp_right .inl)
  | false =>
      simp only [writeField, hq, Bool.false_eq_true, if_false, readable_of_not_needsQuotes hq]
      by_cases hcr : '\r' ∈ f
      · exact .inr ⟨fun hf => hf.2 hcr, h.foldl_carriageReturn f hq hcr⟩
      · have hplain := needsQuotes_eq_false.mp hq
        have hplain' : ∀ c ∈ f, c ≠ ',' ∧ c ≠ '"' ∧ c ≠ '\n' ∧ c ≠ '\r' := fun c hc =>
          ⟨(hplain c hc).1, (hplain c hc).2.1, (hplain c hc).2.2, fun h => hcr (h ▸ hc)⟩
        rcases h.foldl_bare f hplain' with ⟨hlen, hholds⟩ | ⟨hlen, hfault⟩
        · exact .inl ⟨⟨hlen, hcr⟩, hholds⟩
        · exact .inr ⟨fun hf => absurd hf.1 (Nat.not_le.mpr hlen), .inl hfault⟩

end Written

/-! ## Written records -/

theorem writeRecord_cons (f g : List Char) (rest : List (List Char)) :
    writeRecord (f :: g :: rest) = writeField f ++ [','] ++ writeRecord (g :: rest) := by
  simp [writeRecord, List.intercalate]

theorem writeRecord_singleton (f : List Char) : writeRecord [f] = writeField f ++ ['\n'] := by
  simp [writeRecord, List.intercalate]

theorem exists_cons_cons {row : List (List Char)} (h : 2 ≤ row.length) :
    ∃ f g rest, row = f :: g :: rest := by
  match row, h with
  | f :: g :: rest, _ => exact ⟨f, g, rest, rfl⟩

section Records

variable {r : Reader} {fs : List (List Char)} {rs : List (List (List Char))}

/-- The last field of a record. It may be cut off at a carriage return without being refused. -/
theorem Reader.Begins.foldl_last (h : r.Begins fs rs) (hfs : fs ≠ []) (f : List Char) :
    (¬Readable f ∧ ((writeField f ++ ['\n']).foldl Reader.step r).fault.isSome) ∨
      ∃ v, (v = f ↔ Readable f) ∧
        ((writeField f ++ ['\n']).foldl Reader.step r).Stands .record [] []
          ((v :: fs).reverse :: rs) := by
  rw [List.foldl_append, List.foldl_cons, List.foldl_nil]
  rcases h.foldl_writeField f with ⟨hf, hholds⟩ | ⟨hf, hfault | ⟨gs, hret, hcut⟩⟩
  · exact .inr ⟨f, by simp [hf], hholds.lineFeed hfs⟩
  · have hstep := foldl_step_of_fault _ ['\n'] hfault
    rw [List.foldl_cons, List.foldl_nil] at hstep
    exact .inl ⟨hf, by rwa [hstep]⟩
  · obtain ⟨v, hv, rfl⟩ := hcut hfs
    refine .inr ⟨v, by simp [hv, hf], ?_⟩
    exact hret.step '\n' fun r' hr' => by simpa [Reader.take, hr'.mode_eq] using hr'.finish

/-- A field with another one behind it comes back as it was or is refused. -/
theorem Reader.Begins.foldl_comma (h : r.Begins fs rs) (f : List Char) :
    (Readable f ∧ ((writeField f ++ [',']).foldl Reader.step r).Begins (f :: fs) rs) ∨
      (¬Readable f ∧ ((writeField f ++ [',']).foldl Reader.step r).fault.isSome) := by
  rw [List.foldl_append, List.foldl_cons, List.foldl_nil]
  rcases h.foldl_writeField f with ⟨hf, hholds⟩ | ⟨hf, hfault | ⟨gs, hret, -⟩⟩
  · exact .inl ⟨hf, .inl hholds.comma⟩
  · have hstep := foldl_step_of_fault _ [','] hfault
    rw [List.foldl_cons, List.foldl_nil] at hstep
    exact .inr ⟨hf, by rwa [hstep]⟩
  · exact .inr ⟨hf, hret.step_fault ',' fun r' hr' => by simp [Reader.take, hr'.mode_eq]⟩

theorem Reader.Begins.foldl_writeRecord (h : r.Begins fs rs) (f : List Char)
    (rest : List (List Char)) (hone : fs ≠ [] ∨ rest ≠ []) :
    ((¬∀ x ∈ f :: rest, Readable x) ∧
        ((writeRecord (f :: rest)).foldl Reader.step r).fault.isSome) ∨
      ∃ row, row.length = (f :: rest).length ∧ (row = f :: rest ↔ ∀ x ∈ f :: rest, Readable x) ∧
        ((writeRecord (f :: rest)).foldl Reader.step r).Stands .record [] []
          ((fs.reverse ++ row) :: rs) := by
  induction rest generalizing r f fs with
  | nil =>
      have hfs : fs ≠ [] := by simpa using hone
      rw [writeRecord_singleton]
      rcases h.foldl_last hfs f with ⟨hf, hfault⟩ | ⟨v, hv, hstands⟩
      · exact .inl ⟨by simpa using hf, hfault⟩
      · exact .inr ⟨[v], rfl, by simpa using hv, by simpa using hstands⟩
  | cons g rest ih =>
      rw [writeRecord_cons, List.foldl_append]
      rcases h.foldl_comma f with ⟨hf, hbegins⟩ | ⟨hf, hfault⟩
      · rcases ih hbegins g (.inl (by simp)) with ⟨hrest, hfault⟩ | ⟨row, hlen, hrow, hstands⟩
        · exact .inl ⟨fun hall => hrest fun x hx => hall x (List.mem_cons_of_mem f hx), hfault⟩
        · refine .inr ⟨f :: row, by simp [hlen], ?_, by simpa using hstands⟩
          simp only [List.cons.injEq, true_and, hrow, List.forall_mem_cons (a := f), hf]
      · rw [foldl_step_of_fault _ _ hfault]
        exact .inl ⟨fun hall => hf (hall f (by simp)), hfault⟩

/-- A record is refused for an unreadable field with another one behind it. -/
theorem Reader.Begins.foldl_unreadable (h : r.Begins fs rs) (f : List Char)
    (rest : List (List Char)) (hbad : ∃ x ∈ (f :: rest).dropLast, ¬Readable x) :
    ((writeRecord (f :: rest)).foldl Reader.step r).fault.isSome := by
  induction rest generalizing r f fs with
  | nil =>
      obtain ⟨x, hx, -⟩ := hbad
      simp at hx
  | cons g rest ih =>
      rw [writeRecord_cons, List.foldl_append]
      rcases h.foldl_comma f with ⟨hf, hbegins⟩ | ⟨-, hfault⟩
      · refine ih hbegins g ?_
        obtain ⟨x, hx, hunreadable⟩ := hbad
        rw [List.dropLast_cons_cons, List.mem_cons] at hx
        rcases hx with rfl | hx
        · exact absurd hf hunreadable
        · exact ⟨x, hx, hunreadable⟩
      · rwa [foldl_step_of_fault _ _ hfault]

/-- A record as it was written and a record as it was read. Both have the same number of fields, and
they are equal exactly if all of them are readable. -/
def Reads (written read : List (List Char)) : Prop :=
  read.length = written.length ∧ (read = written ↔ ∀ f ∈ written, Readable f)

theorem Reader.Stands.foldl_writeRecords (h : r.Stands .record [] [] rs)
    (rows : List (List (List Char))) (hrows : ∀ row ∈ rows, 2 ≤ row.length) :
    ((¬∀ row ∈ rows, ∀ f ∈ row, Readable f) ∧
        ((rows.flatMap writeRecord).foldl Reader.step r).fault.isSome) ∨
      ∃ rows', List.Forall₂ Reads rows rows' ∧
        ((rows.flatMap writeRecord).foldl Reader.step r).Stands .record [] []
          (rows'.reverse ++ rs) := by
  induction rows generalizing r rs with
  | nil => exact .inr ⟨[], .nil, by simpa using h⟩
  | cons row rows ih =>
      obtain ⟨hrow, hrest⟩ := List.forall_mem_cons.mp hrows
      obtain ⟨f, g, rest, rfl⟩ := exists_cons_cons hrow
      rw [List.flatMap_cons, List.foldl_append]
      have hbegins : r.Begins [] rs := .inr ⟨h, rfl⟩
      rcases hbegins.foldl_writeRecord f (g :: rest) (.inr (by simp)) with
        ⟨hf, hfault⟩ | ⟨row', hlen, hrow', hstands⟩
      · rw [foldl_step_of_fault _ _ hfault]
        exact .inl ⟨fun hall => hf (hall _ (by simp)), hfault⟩
      · rcases ih hstands hrest with ⟨hbad, hfault⟩ | ⟨rows', hreads, hstands'⟩
        · exact .inl ⟨fun hall => hbad fun x hx => hall x (List.mem_cons_of_mem _ hx), hfault⟩
        · exact .inr ⟨row' :: rows', .cons ⟨hlen, hrow'⟩ hreads, by simpa using hstands'⟩

theorem Reader.Stands.foldl_unreadable (h : r.Stands .record [] [] rs)
    (rows : List (List (List Char))) (hrows : ∀ row ∈ rows, 2 ≤ row.length)
    (hbad : ∃ row ∈ rows, ∃ x ∈ row.dropLast, ¬Readable x) :
    ((rows.flatMap writeRecord).foldl Reader.step r).fault.isSome := by
  induction rows generalizing r rs with
  | nil =>
      obtain ⟨row, hrow, -⟩ := hbad
      cases hrow
  | cons row rows ih =>
      obtain ⟨hrow, hrest⟩ := List.forall_mem_cons.mp hrows
      obtain ⟨f, g, rest, rfl⟩ := exists_cons_cons hrow
      rw [List.flatMap_cons, List.foldl_append]
      have hbegins : r.Begins [] rs := .inr ⟨h, rfl⟩
      by_cases hfirst : ∃ x ∈ (f :: g :: rest).dropLast, ¬Readable x
      · have hfault := hbegins.foldl_unreadable f (g :: rest) hfirst
        rwa [foldl_step_of_fault _ _ hfault]
      · rcases hbegins.foldl_writeRecord f (g :: rest) (.inr (by simp)) with
          ⟨-, hfault⟩ | ⟨row', -, -, hstands⟩
        · rwa [foldl_step_of_fault _ _ hfault]
        · obtain ⟨row, hmem, hrow⟩ := hbad
          rcases List.mem_cons.mp hmem with rfl | hmem
          · exact absurd hrow hfirst
          · exact ih hstands hrest ⟨row, hmem, hrow⟩

end Records

/-- What becomes of a written text: each record is read as one record, or the text is refused,
which only happens if a field is not readable. -/
theorem read_writeRecords (rows : List (List (List Char))) (hrows : ∀ row ∈ rows, 2 ≤ row.length) :
    ((¬∀ row ∈ rows, ∀ f ∈ row, Readable f) ∧
        (read (rows.flatMap writeRecord)).fault.isSome) ∨
      ((read (rows.flatMap writeRecord)).fault = none ∧
        List.Forall₂ Reads rows ((read (rows.flatMap writeRecord)).records.map Record.fields)) := by
  rcases stands_initial.foldl_writeRecords rows hrows with ⟨hall, hfault⟩ | ⟨rows', hreads, h⟩
  · refine .inl ⟨hall, ?_⟩
    simp [read, Reader.close, hfault]
  · refine .inr ?_
    have hclose : ((rows.flatMap writeRecord).foldl Reader.step {}).close =
        (rows.flatMap writeRecord).foldl Reader.step {} := by
      simp [Reader.close, h.fault_eq, h.mode_eq]
    simp only [read, hclose, List.map_reverse, h.records_eq, List.append_nil, List.reverse_reverse]
    exact ⟨h.fault_eq, hreads⟩

/-- A written text with an unreadable field before the last one of its record is refused. -/
theorem fault_of_unreadable (rows : List (List (List Char))) (hrows : ∀ row ∈ rows, 2 ≤ row.length)
    (hbad : ∃ row ∈ rows, ∃ x ∈ row.dropLast, ¬Readable x) :
    (read (rows.flatMap writeRecord)).fault.isSome := by
  have hfault := stands_initial.foldl_unreadable rows hrows hbad
  simp [read, Reader.close, hfault]

end Dialogue.Csv
