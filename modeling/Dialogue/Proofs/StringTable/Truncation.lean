import Dialogue.Proofs.StringTable.RoundTrip
import Dialogue.Proofs.StringTable.Spelling

/-! A table that was not written to its end is no table, or has the first of its entries. As the
comment is the last column, only the comment of the last entry can be cut off in a row that has its
width. -/

namespace Dialogue.StringTable

/-- What is left of entries that are cut off. The last one may have lost the end of its comment. -/
inductive CutOff : List Entry → List Entry → Prop
  | nil {es : List Entry} : CutOff es []
  | last {e : Entry} {es : List Entry} {comment : String}
      (h : comment.toList <+: e.comment.toList) : CutOff (e :: es) [{ e with comment := comment }]
  | more {e : Entry} {es es' : List Entry} (h : CutOff es es') : CutOff (e :: es) (e :: es')

theorem entryUnder_fields (e : Entry) : entryUnder columnNames e.fields = e := by
  have hcolumns (c : Column) : c.name ∈ columnNames := List.mem_map_of_mem c.mem_all
  have hwidth : e.fields.length = columnNames.length := by simp [columnNames]
  have hentry : entryOf columnNames ⟨0, e.fields⟩ = .ok (entryUnder columnNames e.fields) :=
    entryOf_of_width hcolumns hwidth
  rw [entryOf_fields] at hentry
  exact (Except.ok.inj hentry).symm

/-- A record that is cut off and has its width has lost no more than the end of its last field. -/
theorem exists_of_cutRecord {row cut : List (List Char)} (h : Csv.CutRecord row cut)
    (hwidth : cut.length = row.length) :
    ∃ front f v, row = front ++ [f] ∧ cut = front ++ [v] ∧ v <+: f := by
  induction h with
  | @last f v row hv =>
      obtain rfl : row = [] := by simpa using hwidth.symm
      exact ⟨[], f, v, rfl, rfl, hv⟩
  | @more g row cut _ ih =>
      obtain ⟨front, f, v, rfl, rfl, hv⟩ := ih (by simpa using hwidth)
      exact ⟨g :: front, f, v, rfl, rfl, hv⟩

theorem exists_comment_of_cutRecord {e : Entry} {cut : List (List Char)}
    (h : Csv.CutRecord e.fields cut) (hwidth : cut.length = e.fields.length) :
    ∃ comment : String, comment.toList <+: e.comment.toList ∧
      cut = { e with comment := comment }.fields := by
  obtain ⟨front, f, v, hrow, rfl, hv⟩ := exists_of_cutRecord h hwidth
  have hfields (comment : String) : { e with comment := comment }.fields =
      (Column.all.dropLast.map fun c => (e.field c).toList) ++ [comment.toList] := rfl
  have hsplit := (hfields e.comment).symm.trans hrow
  obtain ⟨hfront, hlast⟩ := List.append_inj' hsplit rfl
  refine ⟨String.ofList v, ?_, ?_⟩
  · rw [String.toList_ofList, List.cons.inj hlast |>.1]
    exact hv
  · rw [hfields, hfront, String.toList_ofList]

/-- Rows of their width that are left of the rows of entries are those of what is left of the
entries. -/
theorem cutOff_of_cut {es : List Entry} {cut : List (List (List Char))}
    (h : Csv.Cut (es.map Entry.fields) cut) (hwidth : ∀ row ∈ cut, row.length = header.length) :
    CutOff es (cut.map (entryUnder columnNames)) := by
  induction es generalizing cut with
  | nil =>
      cases h with
      | nil => exact .nil
  | cons e es ih =>
      cases h with
      | nil => exact .nil
      | last hrow =>
          have hlength := (hwidth _ List.mem_cons_self).trans (length_fields e).symm
          obtain ⟨comment, hcomment, rfl⟩ := exists_comment_of_cutRecord hrow hlength
          rw [List.map_singleton, entryUnder_fields]
          exact .last hcomment
      | more hrest =>
          rw [List.map_cons, entryUnder_fields]
          exact .more (ih hrest (List.forall_mem_cons.mp hwidth).2)

/-- What is read of a table that was cut off is what is left of its entries. -/
theorem cutOff_of_entriesOf? {es es' : List Entry} {cut : List (List (List Char))}
    (h : Csv.Cut (header :: es.map Entry.fields) cut) (hread : entriesOf? cut = some es') :
    CutOff es es' := by
  cases h with
  | nil => cases hread
  | last _ =>
      rw [entriesOf?, entries?] at hread
      split at hread
      · exact Option.some.inj hread ▸ .nil
      · cases hread
  | more hrest =>
      rw [entriesOf?, entries?] at hread
      split at hread
      case isTrue htable => exact Option.some.inj hread ▸ cutOff_of_cut hrest htable.width
      case isFalse => cases hread

/-- A table that reads back and is cut off anywhere is no table any more, or has the first of its
entries, with their ids, languages, texts and locks. -/
theorem decode_of_prefix_encode {es : List Entry} (h : decode (encode es) = .ok es) {p : String}
    (hp : p.toList <+: (encode es).toList) :
    (∃ f, decode p = .error f) ∨ ∃ es', decode p = .ok es' ∧ CutOff es es' := by
  have hreadable : ∀ row ∈ header :: es.map Entry.fields, ∀ f ∈ row, Csv.Readable f := by
    rcases decode_encode_cases es with ⟨es', hok, heq⟩ | ⟨hfault, -⟩
    · have hall := heq.mp (Except.ok.inj (hok.symm.trans h))
      exact List.forall_mem_cons.mpr ⟨readable_of_mem_header, (forall_mem_map_fields es).mpr hall⟩
    · exact absurd h (hfault es)
  have hspelling := Csv.spelling_writeRecords _ two_le_length_of_mem hreadable
  rw [encode, String.toList_ofList, encodeChars_eq] at hp
  obtain ⟨hfault, hcut⟩ := Csv.read_cut hspelling (fun row hrow f hf => (hreadable row hrow f hf).1)
    hp
  have hread : (decode p).toOption = entriesOf? (Csv.read p.toList).rows :=
    toOption_ofReading hfault
  cases hdecode : decode p with
  | error f => exact .inl ⟨f, rfl⟩
  | ok es' =>
      rw [hdecode] at hread
      exact .inr ⟨es', rfl, cutOff_of_entriesOf? hcut hread.symm⟩

/-- A table of two entries. The comment of the second holds a quote. -/
def remarks : List Entry :=
  [{ id := "line:1", language := "de", text := "Hallo, Welt" },
    { id := "line:2", language := "de", text := "Ja", comment := "Say \"yes\"" }]

/-- The table of `remarks`, cut off between the two halves of a doubled quote. -/
def remarksCutOff : String :=
  "language,id,text,file,node,lineNumber,lock,comment\n" ++
    "de,line:1,\"Hallo, Welt\",,,,,\nde,line:2,Ja,,,,,\"Say \""

theorem decode_remarksCutOff :
    decode remarksCutOff =
        .ok [{ id := "line:1", language := "de", text := "Hallo, Welt" },
          { id := "line:2", language := "de", text := "Ja", comment := "Say " }] ∧
      ((∃ f, decode remarksCutOff = .error f) ∨
        ∃ es', decode remarksCutOff = .ok es' ∧ CutOff remarks es') :=
  ⟨by decide +kernel, decode_of_prefix_encode (by decide +kernel) (by decide +kernel)⟩

end Dialogue.StringTable
