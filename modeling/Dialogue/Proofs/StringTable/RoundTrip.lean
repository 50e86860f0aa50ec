import Dialogue.Proofs.Csv.Reading
import Dialogue.StringTable

/-! A written table reads back exactly if every field of it does. -/

namespace Dialogue.StringTable

/-! ## The header -/

def columnNames : List String := Column.all.map Column.name

theorem checkHeader_header : checkHeader header = .ok columnNames := by
  rfl

theorem readable_of_mem_header : ∀ f ∈ header, Csv.Readable f := by
  decide +kernel

/-! ## Entries as records -/

@[simp] theorem length_fields (e : Entry) : e.fields.length = Column.all.length := by
  simp [Entry.fields]

theorem forall_mem_fields (e : Entry) {P : List Char → Prop} :
    (∀ f ∈ e.fields, P f) ↔ ∀ c : Column, P (e.field c).toList := by
  simp only [Entry.fields, List.forall_mem_map]
  exact ⟨fun h c => h c (Column.mem_all c), fun h c _ => h c⟩

theorem fieldUnder_fields (e : Entry) (c : Column) :
    fieldUnder columnNames e.fields c = e.field c := by
  cases c <;>
    simp [fieldUnder, columnNames, Entry.fields, Column.all, Column.name, List.lookup_cons]

theorem entryOf_fields (line : Nat) (e : Entry) :
    entryOf columnNames ⟨line, e.fields⟩ = .ok e := by
  have hlen : e.fields.length = columnNames.length := by simp [columnNames]
  simp only [entryOf, hlen, if_true]
  rw [funext (fieldUnder_fields e), Entry.ofFields_field]

theorem fields_injective {e e' : Entry} (h : e.fields = e'.fields) : e = e' := by
  have hfield : e.field = e'.field := by
    funext c
    rw [← fieldUnder_fields e, ← fieldUnder_fields e', h]
  rw [← Entry.ofFields_field e, hfield, Entry.ofFields_field]

/-- Every record with a field for each column is one of an entry. -/
theorem exists_fields_eq (row : List (List Char)) (h : row.length = Column.all.length) :
    ∃ e : Entry, e.fields = row := by
  match row, h with
  | [language, id, text, file, node, lineNumber, lock, comment], _ =>
      refine ⟨⟨.ofList id, .ofList language, .ofList text, .ofList file, .ofList node,
        .ofList lineNumber, .ofList lock, .ofList comment⟩, ?_⟩
      simp [Entry.fields, Column.all, Entry.field]

/-! ## A written table and what is read -/

theorem encodeChars_eq (es : List Entry) :
    encodeChars es = (header :: es.map Entry.fields).flatMap Csv.writeRecord := by
  rw [encodeChars, List.flatMap_cons, List.flatMap_map]

theorem two_le_length_of_mem {es : List Entry} :
    ∀ row ∈ header :: es.map Entry.fields, 2 ≤ row.length := by
  simp only [List.forall_mem_cons, List.forall_mem_map, length_fields]
  exact ⟨by decide, fun _ _ => by decide⟩

theorem mapM_entryOf (records : List Csv.Record) (es : List Entry)
    (h : records.map Csv.Record.fields = es.map Entry.fields) :
    records.mapM (entryOf columnNames) = .ok es := by
  induction es generalizing records with
  | nil =>
      have hnil : records = [] := by simpa using h
      subst hnil
      rfl
  | cons e es ih =>
      obtain ⟨⟨line, fields⟩, records, rfl, hfields, hrest⟩ := List.map_eq_cons_iff.mp h
      simp only at hfields
      rw [List.mapM_cons, hfields, entryOf_fields, ih records hrest]
      rfl

theorem ofReading_of_fault (reading : Csv.Reading) (es : List Entry)
    (h : reading.fault.isSome) : ofReading reading ≠ .ok es := by
  obtain ⟨f, hf⟩ := Option.isSome_iff_exists.mp h
  intro hok
  simp only [ofReading, hf] at hok
  split at hok
  · simp at hok
  · split at hok
    · simp at hok
    · split at hok <;> simp at hok

/-- A text whose records are a header and those of entries is a table of these entries. -/
theorem ofReading_of_fields (reading : Csv.Reading) (es : List Entry)
    (hfault : reading.fault = none)
    (h : reading.records.map Csv.Record.fields = header :: es.map Entry.fields) :
    ofReading reading = .ok es := by
  have hkeep : reading.records.filter (fun r => !r.fields.isEmpty) = reading.records := by
    refine List.filter_eq_self.mpr fun r hr => ?_
    have hmem : r.fields ∈ header :: es.map Entry.fields := h ▸ List.mem_map_of_mem hr
    rcases List.mem_cons.mp hmem with heq | hmem
    · rw [heq]
      rfl
    · obtain ⟨e, -, he⟩ := List.mem_map.mp hmem
      rw [← he]
      rfl
  obtain ⟨first, rest, hcons, hfirst, hrest⟩ := List.map_eq_cons_iff.mp h
  rw [hcons] at hkeep
  simp only [ofReading, hcons, hkeep, hfirst, checkHeader_header, mapM_entryOf rest es hrest,
    hfault]

/-- All records come back as they were exactly if every field is readable. -/
theorem reads_eq_iff {rows rows' : List (List (List Char))}
    (h : List.Forall₂ Csv.Reads rows rows') :
    rows' = rows ↔ ∀ row ∈ rows, ∀ f ∈ row, Csv.Readable f := by
  induction h with
  | nil => simp
  | cons hrow _ ih => simp only [List.cons.injEq, hrow.2, ih, List.forall_mem_cons]

/-- What is read for the records of entries are records of entries. -/
theorem exists_entries_of_reads {es : List Entry} {rows : List (List (List Char))}
    (h : List.Forall₂ Csv.Reads (es.map Entry.fields) rows) :
    ∃ es' : List Entry, rows = es'.map Entry.fields := by
  induction es generalizing rows with
  | nil =>
      cases h with
      | nil => exact ⟨[], rfl⟩
  | cons e es ih =>
      cases h with
      | cons hrow hrest =>
          obtain ⟨e', he'⟩ := exists_fields_eq _ (hrow.1.trans (length_fields e))
          obtain ⟨es', rfl⟩ := ih hrest
          exact ⟨e' :: es', by rw [List.map_cons, he']⟩

theorem map_fields_injective : Function.Injective (List.map Entry.fields) :=
  List.map_injective_iff.mpr fun _ _ => fields_injective

theorem forall_mem_map_fields (es : List Entry) :
    (∀ row ∈ es.map Entry.fields, ∀ f ∈ row, Csv.Readable f) ↔
      ∀ e ∈ es, ∀ c : Column, Csv.Readable (e.field c).toList := by
  simp only [List.forall_mem_map, forall_mem_fields]

/-- A written table is no table if a field is unreadable that is not in the last column. -/
theorem decode_encode_of_unreadable {es : List Entry}
    (h : ∃ e ∈ es, ∃ c : Column, c ≠ .comment ∧ ¬Csv.Readable (e.field c).toList) :
    ∃ f, decode (encode es) = .error f := by
  obtain ⟨e, he, c, hc, hbad⟩ := h
  have hfault : (Csv.read (encodeChars es)).fault.isSome := by
    rw [encodeChars_eq]
    refine Csv.fault_of_unreadable _ two_le_length_of_mem
      ⟨e.fields, ?_, (e.field c).toList, ?_, hbad⟩
    · exact List.mem_cons_of_mem _ (List.mem_map_of_mem he)
    · cases c <;> simp [Entry.fields, Column.all] at hc ⊢
  cases hdecode : decode (encode es) with
  | error f => exact ⟨f, rfl⟩
  | ok es' =>
      rw [decode, encode, String.toList_ofList] at hdecode
      exact absurd hdecode (ofReading_of_fault _ es' hfault)

/-- What reading a written table comes to: as many entries, and the same ones exactly if every
field of every entry is readable; or a fault if one is not. -/
theorem decode_encode_cases (es : List Entry) :
    (∃ es', decode (encode es) = .ok es' ∧
        (es' = es ↔ ∀ e ∈ es, ∀ c : Column, Csv.Readable (e.field c).toList)) ∨
      ((∀ es', decode (encode es) ≠ .ok es') ∧
        ¬∀ e ∈ es, ∀ c : Column, Csv.Readable (e.field c).toList) := by
  rw [decode, encode, String.toList_ofList, decodeChars, encodeChars_eq]
  rcases Csv.read_writeRecords _ two_le_length_of_mem with ⟨hbad, hfault⟩ | ⟨hfault, hreads⟩
  · refine .inr ⟨fun es' => ofReading_of_fault _ es' hfault, fun hall => hbad ?_⟩
    exact List.forall_mem_cons.mpr ⟨readable_of_mem_header, (forall_mem_map_fields es).mpr hall⟩
  · refine .inl ?_
    obtain ⟨row, rows, hrow, hrows, hcons⟩ := List.forall₂_cons_left_iff.mp hreads
    obtain ⟨es', rfl⟩ := exists_entries_of_reads hrows
    rw [hrow.2.mpr readable_of_mem_header] at hcons
    refine ⟨es', ofReading_of_fields _ es' hfault hcons, ?_⟩
    rw [← map_fields_injective.eq_iff, reads_eq_iff hrows, forall_mem_map_fields]

theorem decode_encode (es : List Entry)
    (h : ∀ e ∈ es, ∀ c : Column, Csv.Readable (e.field c).toList) :
    decode (encode es) = .ok es := by
  rcases decode_encode_cases es with ⟨es', hok, heq⟩ | ⟨-, hbad⟩
  · rw [hok, heq.mpr h]
  · exact absurd h hbad

/-- A table reads back as it was written exactly if no field of it is too long, and none has a
carriage return without a comma, a quote or a line feed to put it between quotes. -/
theorem decode_encode_eq_ok_iff (es : List Entry) :
    decode (encode es) = .ok es ↔ ∀ e ∈ es, ∀ c : Column, Csv.Readable (e.field c).toList := by
  refine ⟨fun h => ?_, decode_encode es⟩
  rcases decode_encode_cases es with ⟨es', hok, heq⟩ | ⟨hfault, -⟩
  · rw [h] at hok
    exact heq.mp (Except.ok.inj hok).symm
  · exact absurd h (hfault es)

/-- In the last column a bare carriage return is lost without a fault. -/
example :
    decode (encode [{ id := "line:1", language := "en", text := "Hi", comment := "old\r" }]) =
      .ok [{ id := "line:1", language := "en", text := "Hi", comment := "old" }] := by
  decide +kernel

end Dialogue.StringTable
