import Dialogue.Proofs.Csv.Spelling
import Dialogue.StringTable

/-! The entries of a table depend on its header and rows alone, and of these on the columns that
every table has. How fields are quoted, how lines end, where blank lines stand, in which order the
columns come and which other columns there are makes no difference. -/

namespace Dialogue.StringTable

/-! ## Headers and rows -/

/-- The names in a header, without blanks around them. -/
def namesOf (header : List (List Char)) : List String :=
  header.map fun f => String.ofList (Text.strip f)

/-- What makes a table of a header and rows: every column is there, no two names are the same, and
each row has a field for each name. -/
structure IsTable (header : List (List Char)) (rows : List (List (List Char))) : Prop where
  columns : ∀ c : Column, c.name ∈ namesOf header
  distinct : (namesOf header).Nodup
  width : ∀ row ∈ rows, row.length = header.length

instance (header : List (List Char)) (rows : List (List (List Char))) :
    Decidable (IsTable header rows) :=
  decidable_of_iff ((∀ c ∈ Column.all, c.name ∈ namesOf header) ∧ (namesOf header).Nodup ∧
      ∀ row ∈ rows, row.length = header.length)
    ⟨fun h => ⟨fun c => h.1 c c.mem_all, h.2.1, h.2.2⟩,
      fun h => ⟨fun c _ => h.columns c, h.distinct, h.width⟩⟩

/-- The entry of a row: each column has the field that stands where its name is in the header. -/
def entryUnder (names : List String) (row : List (List Char)) : Entry :=
  .ofFields fun c => String.ofList (row.getD (names.idxOf c.name) [])

/-- The entries of the rows under a header, in their order, unless these make no table. -/
def entries? (header : List (List Char)) (rows : List (List (List Char))) : Option (List Entry) :=
  if IsTable header rows then some (rows.map (entryUnder (namesOf header))) else none

/-- The entries of the records of a text, the first of which is the header. -/
def entriesOf? : List (List (List Char)) → Option (List Entry)
  | [] => none
  | header :: rows => entries? header rows

theorem lookup_zip (names : List String) (row : List (List Char)) {name : String}
    (h : name ∈ names) : (names.zip row).lookup name = row[names.idxOf name]? := by
  induction names generalizing row with
  | nil => cases h
  | cons n names ih =>
      cases row with
      | nil => rfl
      | cons f row =>
          rw [List.zip_cons_cons, List.lookup_cons]
          by_cases hn : name = n
          · subst hn
            simp
          · have hmem : name ∈ names := (List.mem_cons.mp h).resolve_left hn
            rw [beq_false_of_ne hn, List.idxOf_cons_ne _ (Ne.symm hn), List.getElem?_cons_succ]
            exact ih row hmem

theorem fieldUnder_eq {names : List String} (row : List (List Char)) {c : Column}
    (h : c.name ∈ names) :
    fieldUnder names row c = String.ofList (row.getD (names.idxOf c.name) []) := by
  rw [fieldUnder, lookup_zip names row h, List.getD_eq_getElem?_getD]
  cases row[names.idxOf c.name]? <;> rfl

theorem checkHeader_eq_ok {header : List (List Char)} {names : List String} :
    checkHeader header = .ok names ↔
      names = namesOf header ∧ (∀ c : Column, c.name ∈ namesOf header) ∧
        (namesOf header).Nodup := by
  have hmissing :
      (Column.all.map Column.name).filter (fun name => !(namesOf header).contains name) = [] ↔
        ∀ c : Column, c.name ∈ namesOf header := by
    simp only [List.filter_eq_nil_iff, List.forall_mem_map, Bool.not_eq_true', Bool.not_eq_false,
      List.contains_iff_mem]
    exact ⟨fun h c => h c c.mem_all, fun h c _ => h c⟩
  rw [checkHeader]
  change (if (Column.all.map Column.name).filter (fun name => !(namesOf header).contains name) ≠ []
    then _ else if (namesOf header).Nodup then Except.ok (namesOf header) else _) = _ ↔ _
  by_cases hcolumns : ∀ c : Column, c.name ∈ namesOf header
  · rw [if_neg (not_not.mpr (hmissing.mpr hcolumns))]
    by_cases hdistinct : (namesOf header).Nodup
    · simp [hcolumns, hdistinct, eq_comm]
    · simp [hdistinct]
  · rw [if_pos (hmissing.not.mpr hcolumns)]
    simp [hcolumns]

/-! ## Readings -/

section Rows

variable {names : List String} {records : List Csv.Record}

theorem entryOf_of_width (hcolumns : ∀ c : Column, c.name ∈ names) {record : Csv.Record}
    (hwidth : record.fields.length = names.length) :
    entryOf names record = .ok (entryUnder names record.fields) := by
  have hfields : fieldUnder names record.fields =
      fun c => String.ofList (record.fields.getD (names.idxOf c.name) []) :=
    funext fun c => fieldUnder_eq record.fields (hcolumns c)
  rw [entryOf, if_pos hwidth, hfields, entryUnder]

theorem mapM_entryOf_of_width (hcolumns : ∀ c : Column, c.name ∈ names)
    (hwidth : ∀ record ∈ records, record.fields.length = names.length) :
    records.mapM (entryOf names) =
      .ok (records.map fun record => entryUnder names record.fields) := by
  induction records with
  | nil => rfl
  | cons record records ih =>
      obtain ⟨hfirst, hrest⟩ := List.forall_mem_cons.mp hwidth
      rw [List.mapM_cons, entryOf_of_width hcolumns hfirst, ih hrest]
      rfl

/-- One record of another width is enough to refuse them all. -/
theorem exists_mapM_entryOf_error
    (hwidth : ¬∀ record ∈ records, record.fields.length = names.length) :
    ∃ f, records.mapM (entryOf names) = .error f := by
  induction records with
  | nil => exact absurd (by simp) hwidth
  | cons record records ih =>
      rw [List.mapM_cons]
      cases hfirst : entryOf names record with
      | error f => exact ⟨f, rfl⟩
      | ok e =>
          have hrest : ¬∀ record ∈ records, record.fields.length = names.length := by
            refine fun hall => hwidth (List.forall_mem_cons.mpr ⟨?_, hall⟩)
            rw [entryOf] at hfirst
            split at hfirst
            · assumption
            · cases hfirst
          obtain ⟨f, hf⟩ := ih hrest
          rw [hf]
          exact ⟨f, rfl⟩

end Rows

/-- The entries of a text that can be read are those of its records, blank lines left out. -/
theorem toOption_ofReading {reading : Csv.Reading} (hfault : reading.fault = none) :
    (ofReading reading).toOption = entriesOf? reading.rows := by
  have hrows : reading.rows =
      (reading.records.filter fun r => !r.fields.isEmpty).map Csv.Record.fields := by
    rw [Csv.Reading.rows, List.filter_map]
    rfl
  rw [hrows, ofReading, hfault]
  cases reading.records.filter fun r => !r.fields.isEmpty with
  | nil => rfl
  | cons first rest =>
      simp only [List.map_cons]
      cases hheader : checkHeader first.fields with
      | error e =>
          have hno : ¬IsTable first.fields (rest.map Csv.Record.fields) := fun h => by
            rw [checkHeader_eq_ok.mpr ⟨rfl, h.columns, h.distinct⟩] at hheader
            cases hheader
          rw [entriesOf?, entries?, if_neg hno]
          rfl
      | ok names =>
          obtain ⟨rfl, hcolumns, hdistinct⟩ := checkHeader_eq_ok.mp hheader
          have hlength : (namesOf first.fields).length = first.fields.length := by simp [namesOf]
          have hwidth : (∀ row ∈ rest.map Csv.Record.fields, row.length = first.fields.length) ↔
              ∀ record ∈ rest, record.fields.length = (namesOf first.fields).length := by
            rw [List.forall_mem_map, hlength]
          have htable : IsTable first.fields (rest.map Csv.Record.fields) ↔
              ∀ record ∈ rest, record.fields.length = (namesOf first.fields).length :=
            ⟨fun h => hwidth.mp h.width, fun h => ⟨hcolumns, hdistinct, hwidth.mpr h⟩⟩
          by_cases hall : ∀ record ∈ rest, record.fields.length = (namesOf first.fields).length
          · rw [entriesOf?, entries?, if_pos (htable.mpr hall), List.map_map]
            simp only [mapM_entryOf_of_width hcolumns hall]
            rfl
          · obtain ⟨f, hf⟩ := exists_mapM_entryOf_error hall
            rw [entriesOf?, entries?, if_neg (htable.not.mpr hall)]
            simp only [hf]
            rfl

/-! ## Spellings -/

/-- Tables that agree in the columns that every table has, whatever other columns there are and in
which order they stand. -/
structure SameColumns (header : List (List Char)) (rows : List (List (List Char)))
    (header' : List (List Char)) (rows' : List (List (List Char))) : Prop where
  columns : ∀ c : Column, c.name ∈ namesOf header ↔ c.name ∈ namesOf header'
  distinct : (namesOf header).Nodup ↔ (namesOf header').Nodup
  width : (∀ row ∈ rows, row.length = header.length) ↔ ∀ row ∈ rows', row.length = header'.length
  fields : (namesOf header).Nodup → List.Forall₂ (fun row row' => ∀ c : Column,
    row[(namesOf header).idxOf c.name]? = row'[(namesOf header').idxOf c.name]?) rows rows'

theorem SameColumns.entries?_eq {header header' : List (List Char)}
    {rows rows' : List (List (List Char))} (h : SameColumns header rows header' rows') :
    entries? header' rows' = entries? header rows := by
  have htable : IsTable header' rows' ↔ IsTable header rows :=
    ⟨fun t => ⟨fun c => (h.columns c).mpr (t.columns c), h.distinct.mpr t.distinct,
        h.width.mpr t.width⟩,
      fun t => ⟨fun c => (h.columns c).mp (t.columns c), h.distinct.mp t.distinct,
        h.width.mp t.width⟩⟩
  by_cases t : IsTable header rows
  case neg => rw [entries?, entries?, if_neg t, if_neg (htable.not.mpr t)]
  case pos =>
    have hentries : rows.map (entryUnder (namesOf header)) =
        rows'.map (entryUnder (namesOf header')) := by
      rw [← List.forall₂_eq_eq_eq, List.forall₂_map_left_iff, List.forall₂_map_right_iff]
      refine (h.fields t.distinct).imp fun row row' hrow => ?_
      simp only [entryUnder, List.getD_eq_getElem?_getD, hrow]
    rw [entries?, entries?, if_pos t, if_pos (htable.mpr t), hentries]

theorem toOption_decode {header : List (List Char)} {rows : List (List (List Char))} {text : String}
    (h : Csv.Spelling (header :: rows) text.toList)
    (hsize : ∀ row ∈ header :: rows, ∀ f ∈ row, f.length ≤ Csv.fieldLimit) :
    (decode text).toOption = entries? header rows := by
  obtain ⟨hfault, hrows⟩ := Csv.read_spelling h hsize
  rw [decode, decodeChars, toOption_ofReading hfault, hrows, entriesOf?]

/-- However a table is spelled, it is read as a whole or not at all, and for the same entries as
each other table with the same columns. -/
theorem decode_of_spelling {header : List (List Char)} {rows : List (List (List Char))}
    {text : String} (h : Csv.Spelling (header :: rows) text.toList)
    (hsize : ∀ row ∈ header :: rows, ∀ f ∈ row, f.length ≤ Csv.fieldLimit) :
    (decode text).toOption = entries? header rows ∧
      ∀ (header' : List (List Char)) (rows' : List (List (List Char))) (text' : String),
        Csv.Spelling (header' :: rows') text'.toList →
          (∀ row ∈ header' :: rows', ∀ f ∈ row, f.length ≤ Csv.fieldLimit) →
            SameColumns header rows header' rows' →
              (decode text').toOption = (decode text).toOption := by
  refine ⟨toOption_decode h hsize, fun header' rows' text' h' hsize' hsame => ?_⟩
  rw [toOption_decode h hsize, toOption_decode h' hsize', hsame.entries?_eq]

def germanRows : List (List (List Char)) :=
  [["de".toList, "line:1".toList, "Sag \"Hallo\"".toList, [], [], [], [], []]]

/-- The columns in another order, one of them with blanks around its name, and one more. -/
def rearrangedHeader : List (List Char) :=
  ["seen".toList, " id ".toList, "text".toList, "language".toList, "file".toList, "node".toList,
    "lineNumber".toList, "lock".toList, "comment".toList]

def rearrangedRows : List (List (List Char)) :=
  [["a\nb".toList, "line:1".toList, "Sag \"Hallo\"".toList, "de".toList, [], [], [], [], []]]

def germanText : String :=
  "language,id,text,file,node,lineNumber,lock,comment\nde,line:1,\"Sag \"\"Hallo\"\"\",,,,,\n"

def rearrangedText : String :=
  "\r\nseen, id ,text,language,file,node,\"lineNumber\",lock,comment\r\n\n" ++
    "\"a\nb\",line:1,\"Sag \"\"Hallo\"\"\",de,,,,,"

theorem spelling_germanText : Csv.Spelling (header :: germanRows) germanText.toList := by
  have hrows : germanText.toList = (header :: germanRows).flatMap Csv.writeRecord := by
    decide +kernel
  rw [hrows]
  exact Csv.spelling_writeRecords _ (by decide) (by decide +kernel)

theorem spelling_rearrangedText :
    Csv.Spelling (rearrangedHeader :: rearrangedRows) rearrangedText.toList := by
  have hheader : Csv.RecordSpelling rearrangedHeader
      "seen, id ,text,language,file,node,\"lineNumber\",lock,comment".toList :=
    .more (.bare (by simp)) (.more (.bare (by simp)) (.more (.bare (by simp))
      (.more (.bare (by simp)) (.more (.bare (by simp)) (.more (.bare (by simp))
        (.more .quoted (.more (.bare (by simp)) (.last (.bare (by simp))))))))))
  have hrow : Csv.RecordSpelling
      ["a\nb".toList, "line:1".toList, "Sag \"Hallo\"".toList, "de".toList, [], [], [], [], []]
      "\"a\nb\",line:1,\"Sag \"\"Hallo\"\"\",de,,,,,".toList :=
    .more .quoted (.more (.bare (by simp)) (.more .quoted (.more (.bare (by simp))
      (.more (.bare (by simp)) (.more (.bare (by simp)) (.more (.bare (by simp))
        (.more (.bare (by simp)) (.last (.bare (by simp))))))))))
  exact .blank .returnAndLineFeed (.cons hheader (by decide) .returnAndLineFeed
    (.blank .lineFeed (.last hrow (by decide))))

theorem decode_rearrangedText :
    (decode germanText).toOption =
        some [{ id := "line:1", language := "de", text := "Sag \"Hallo\"" }] ∧
      (decode rearrangedText).toOption = (decode germanText).toOption := by
  have h := decode_of_spelling spelling_germanText (by decide)
  refine ⟨h.1.trans (by decide +kernel), ?_⟩
  refine h.2 rearrangedHeader rearrangedRows rearrangedText spelling_rearrangedText (by decide) ?_
  exact ⟨fun c => by cases c <;> decide, by decide, by decide, fun _ =>
    .cons (fun c => by cases c <;> decide) .nil⟩

end Dialogue.StringTable
