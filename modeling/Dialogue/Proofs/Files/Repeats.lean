import Dialogue.Proofs.Files.Writes

/-! One text may be written at many paths, and at some of them more than once. In memory and in a
directory tree a text that has been stored is stored again without a difference, and one that has
been refused is refused again. -/

namespace Dialogue

namespace FileSystem

/-- The files when a text has been written at any paths. -/
abbrev Spread (text : String) (encoding : Value) (fs fs' : FileSystem) : Prop :=
  fs.WrittenAt (fun _ => True) text encoding fs'

/-- From now on a text is stored at a path without a difference. -/
def Holds (fs : FileSystem) (path text : String) (encoding : Value) : Prop :=
  ∀ {fs'}, fs.Spread text encoding fs' → fs'.writeText path text encoding = (.ok (), fs')

/-- From now on a text is refused at a path. -/
def Bars (fs : FileSystem) (path text : String) (encoding : Value) : Prop :=
  ∀ {fs'}, fs.Spread text encoding fs' → ∃ e, (fs'.writeText path text encoding).1 = .error e

/-- A file system that answers in the same way when a text is written again, wherever else the text
has been written in between: what has been stored is stored without a difference, and what has been
refused is refused. -/
structure Repeats (fs : FileSystem) (text : String) (encoding : Value) : Prop where
  holds : ∀ {fs'}, fs.Spread text encoding fs' → ∀ path,
    (fs'.writeText path text encoding).1 = .ok () →
    (fs'.writeText path text encoding).2.Holds path text encoding
  bars : ∀ {fs'}, fs.Spread text encoding fs' → ∀ path e,
    (fs'.writeText path text encoding).1 = .error e →
    (fs'.writeText path text encoding).2.Bars path text encoding

section Spread

variable {P : String → Prop} {text : String} {encoding : Value} {fs fs' fs'' : FileSystem}

theorem WrittenAt.trans (h : fs.WrittenAt P text encoding fs')
    (h' : fs'.WrittenAt P text encoding fs'') : fs.WrittenAt P text encoding fs'' := by
  induction h' with
  | refl => exact h
  | write _ hP ih => exact ih.write hP

theorem Spread.step (fs : FileSystem) (path text : String) (encoding : Value) :
    fs.Spread text encoding (fs.writeText path text encoding).2 :=
  WrittenAt.write .refl trivial

theorem Holds.spread {path : String} (h : fs.Holds path text encoding)
    (hspread : fs.Spread text encoding fs') : fs'.Holds path text encoding :=
  fun hspread' => h (hspread.trans hspread')

theorem Bars.spread {path : String} (h : fs.Bars path text encoding)
    (hspread : fs.Spread text encoding fs') : fs'.Bars path text encoding :=
  fun hspread' => h (hspread.trans hspread')

theorem Repeats.spread (h : fs.Repeats text encoding) (hspread : fs.Spread text encoding fs') :
    fs'.Repeats text encoding where
  holds hspread' := h.holds (hspread.trans hspread')
  bars hspread' := h.bars (hspread.trans hspread')

/-- Where a text is refused everywhere, nothing is ever stored. -/
theorem repeats_of_error (h : ∀ {fs'}, fs.Spread text encoding fs' → ∀ path,
    ∃ e, (fs'.writeText path text encoding).1 = .error e) : fs.Repeats text encoding where
  holds hspread path htaken := by
    obtain ⟨e, he⟩ := h hspread path
    rw [htaken] at he
    cases he
  bars {fs'} hspread path _ _ := fun hspread' =>
    h (hspread.trans ((Spread.step fs' path text encoding).trans hspread')) path

end Spread

end FileSystem

/-! ## Files in memory -/

namespace MemoryFiles

theorem put_of_find? {m : MemoryFiles} {path : String} {file : StoredFile}
    (h : m.find? path = some file) : m.put path file = m := by
  have hinsert : ∀ files : List (String × StoredFile), files.lookup path = some file →
      put.insert path file files = files := by
    intro files hlookup
    induction files with
    | nil => cases hlookup
    | cons e files ih =>
        obtain ⟨p, f⟩ := e
        rw [put.insert]
        by_cases hp : p = path
        · rw [if_pos hp]
          rw [List.lookup_cons, beq_iff_eq.mpr hp.symm] at hlookup
          rw [Option.some.inj hlookup]
        · rw [if_neg hp]
          rw [List.lookup_cons, beq_eq_false_iff_ne.mpr (Ne.symm hp)] at hlookup
          rw [ih hlookup]
  rw [put, hinsert m.files h]

end MemoryFiles

namespace FileSystem

section Memory

variable {m m' : MemoryFiles} {text : String} {encoding : Value} {content : Bytes}

/-- In memory a text of certain bytes is stored wherever it is not refused. -/
def StoredInMemory (text : String) (encoding : Value) (content : Bytes) : Prop :=
  ∀ (m : MemoryFiles) path, (memory m).writeText path text encoding =
    match m.refusal? path with
    | some refusal => (.error (.file (.medium refusal)), .memory m)
    | none => (.ok (), .memory (m.put path (.bytes content)))

theorem memory_cases (text : String) (encoding : Value) :
    (∃ e, ∀ (m : MemoryFiles) path, m.refusal? path = none →
      (memory m).writeText path text encoding = (.error e, .memory m)) ∨
    ∃ content, StoredInMemory text encoding content := by
  cases hencoding : encodingOf encoding with
  | error e =>
      refine .inl ⟨e, fun m path hpath => ?_⟩
      simp only [writeText, hpath, hencoding]
  | ok e =>
      cases hcontent : e.encode text.toList with
      | error f =>
          refine .inl ⟨.encoding f, fun m path hpath => ?_⟩
          simp only [writeText, hpath, hencoding, hcontent]
      | ok content =>
          refine .inr ⟨content, fun m path => ?_⟩
          cases hpath : m.refusal? path <;> simp only [writeText, hpath, hencoding, hcontent]

/-- The bytes of a text stay at a path while the text is written at any paths. -/
theorem StoredInMemory.find?_spread (h : StoredInMemory text encoding content) {path : String}
    {fs : FileSystem}
    (hpath : m.find? path = some (.bytes content)) (hspread : (memory m).Spread text encoding fs) :
    ∃ m' : MemoryFiles, fs = .memory m' ∧ m'.find? path = some (.bytes content) := by
  induction hspread with
  | refl => exact ⟨m, rfl, hpath⟩
  | @write fs' _ other _ ih =>
      obtain ⟨m', rfl, hm'⟩ := ih
      rw [h m' other]
      cases m'.refusal? other with
      | some refusal => exact ⟨m', rfl, hm'⟩
      | none =>
          refine ⟨_, rfl, ?_⟩
          rw [MemoryFiles.find?_put, hm']
          split <;> rfl

/-- A text that has been stored is found as it is when it is stored again. -/
theorem StoredInMemory.holds (h : StoredInMemory text encoding content) {path : String}
    (hpath : m.refusal? path = none) :
    (memory (m.put path (.bytes content))).Holds path text encoding := by
  intro fs hspread
  have hfound : (m.put path (.bytes content)).find? path = some (.bytes content) := by
    rw [MemoryFiles.find?_put, if_pos rfl]
  obtain ⟨m', rfl, hm'⟩ := h.find?_spread hfound hspread
  obtain ⟨_, hsame, hrefusal⟩ := later_memory hspread.later
  cases hsame
  have hopen : m'.refusal? path = none := by
    rw [hrefusal, MemoryFiles.refusal?_put hpath, hpath]
  rw [h m' path, hopen]
  dsimp only
  rw [MemoryFiles.put_of_find? hm']

theorem StoredInMemory.bars (h : StoredInMemory text encoding content) {path : String}
    {refusal : String} (hpath : m.refusal? path = some refusal) :
    (memory m).Bars path text encoding := by
  intro fs hspread
  obtain ⟨m', rfl, hrefusal⟩ := later_memory hspread.later
  rw [h m' path, hrefusal, hpath]
  exact ⟨_, rfl⟩

/-- Files in memory answer in the same way again. -/
theorem repeats_memory (m : MemoryFiles) (text : String) (encoding : Value) :
    (memory m).Repeats text encoding := by
  rcases memory_cases text encoding with ⟨e, he⟩ | ⟨content, hcontent⟩
  · refine repeats_of_error fun hspread path => ?_
    obtain ⟨m', rfl, -⟩ := later_memory hspread.later
    cases hpath : m'.refusal? path with
    | some refusal => exact ⟨.file (.medium refusal), by simp only [writeText, hpath]⟩
    | none => exact ⟨e, by rw [he m' path hpath]⟩
  · constructor
    case holds =>
      intro fs hspread path htaken
      obtain ⟨m', rfl, -⟩ := later_memory hspread.later
      rw [hcontent m' path] at htaken ⊢
      cases hpath : m'.refusal? path with
      | some refusal =>
          rw [hpath] at htaken
          cases htaken
      | none => exact hcontent.holds hpath
    case bars =>
      intro fs hspread path e hrefused
      obtain ⟨m', rfl, -⟩ := later_memory hspread.later
      rw [hcontent m' path] at hrefused ⊢
      cases hpath : m'.refusal? path with
      | some refusal => exact hcontent.bars hpath
      | none =>
          rw [hpath] at hrefused
          cases hrefused

end Memory

end FileSystem

/-! ## Directory trees -/

namespace DirectoryTree

theorem file?_put_self (t : DirectoryTree) (place : List Path.Name) (content : Bytes) :
    (t.put place content).file? place = some content := by
  have hlookup : ∀ files : List (List Path.Name × Bytes),
      (put.insert place content files).lookup place = some content := by
    intro files
    induction files with
    | nil => simp [put.insert]
    | cons e files ih =>
        obtain ⟨p, c⟩ := e
        rw [put.insert]
        split
        · rename_i hp
          simp [hp]
        · rename_i hp
          rw [List.lookup_cons, beq_eq_false_iff_ne.mpr (Ne.symm hp), ih]
  exact hlookup t.files

theorem put_of_file? {t : DirectoryTree} {place : List Path.Name} {content : Bytes}
    (h : t.file? place = some content) : t.put place content = t := by
  have hinsert : ∀ files : List (List Path.Name × Bytes), files.lookup place = some content →
      put.insert place content files = files := by
    intro files hlookup
    induction files with
    | nil => cases hlookup
    | cons e files ih =>
        obtain ⟨p, c⟩ := e
        rw [put.insert]
        by_cases hp : p = place
        · rw [if_pos hp]
          rw [List.lookup_cons, beq_iff_eq.mpr hp.symm] at hlookup
          rw [Option.some.inj hlookup]
        · rw [if_neg hp]
          rw [List.lookup_cons, beq_eq_false_iff_ne.mpr (Ne.symm hp)] at hlookup
          rw [ih hlookup]
  rw [put, hinsert t.files h]

/-- Where a file can be written depends on the directories alone. -/
theorem writable_congr {t t' : DirectoryTree} (h : t'.directories = t.directories) {path : String}
    {place : List Path.Name} (hplace : t.writable path = .ok place) :
      t'.writable path = .ok place := by
  rw [writable, locate_congr h (writable_eq_ok hplace)]

end DirectoryTree

namespace FileSystem

section Directory

variable {t : DirectoryTree} {text : String} {encoding : Value} {content : Bytes}

/-- In a tree a text of certain bytes is stored wherever a file can be written. -/
def StoredInTree (text : String) (encoding : Value) (content : Bytes) : Prop :=
  ∀ (t : DirectoryTree) path, (directory t).writeText path text encoding =
    match t.writable path with
    | .error e => (.error e, .directory t)
    | .ok place => (.ok (), .directory (t.put place content))

theorem directory_cases (text : String) (encoding : Value) :
    (∀ (t : DirectoryTree) path, ∃ e, ((directory t).writeText path text encoding).1 = .error e) ∨
    ∃ content, StoredInTree text encoding content := by
  cases hopen : openEncoding encoding with
  | error e => exact .inl fun t path => ⟨e, by simp only [writeText, hopen]⟩
  | ok encoding' =>
      cases encoding' with
      | error e =>
          refine .inl fun t path => ?_
          cases hpath : t.writable path with
          | error e' => exact ⟨e', by simp only [writeText, hopen, hpath]⟩
          | ok place => exact ⟨e, by simp only [writeText, hopen, hpath]⟩
      | ok e =>
          cases hcontent : e.encode text.toList with
          | error f =>
              refine .inl fun t path => ?_
              cases hpath : t.writable path with
              | error e' => exact ⟨e', by simp only [writeText, hopen, hpath]⟩
              | ok place => exact ⟨.encoding f, by simp only [writeText, hopen, hpath, hcontent]⟩
          | ok content =>
              refine .inr ⟨content, fun t path => ?_⟩
              cases hpath : t.writable path <;> simp only [writeText, hopen, hpath, hcontent]

theorem StoredInTree.file?_spread (h : StoredInTree text encoding content) {place : List Path.Name}
    {fs : FileSystem} (hplace : t.file? place = some content)
    (hspread : (directory t).Spread text encoding fs) :
    ∃ t' : DirectoryTree, fs = .directory t' ∧ t'.file? place = some content := by
  induction hspread with
  | refl => exact ⟨t, rfl, hplace⟩
  | @write fs' _ other _ ih =>
      obtain ⟨t', rfl, ht'⟩ := ih
      rw [h t' other]
      cases t'.writable other with
      | error e => exact ⟨t', rfl, ht'⟩
      | ok place' =>
          refine ⟨_, rfl, ?_⟩
          by_cases hsame : place = place'
          · rw [hsame, DirectoryTree.file?_put_self]
          · rw [DirectoryTree.file?_put _ _ _ hsame, ht']

theorem StoredInTree.holds (h : StoredInTree text encoding content) {path : String}
    {place : List Path.Name} (hpath : t.writable path = .ok place) :
    (directory (t.put place content)).Holds path text encoding := by
  intro fs hspread
  obtain ⟨t', rfl, ht'⟩ := h.file?_spread (t.file?_put_self place content) hspread
  obtain ⟨_, hsame, hdirectories⟩ := later_directory hspread.later
  cases hsame
  have hwritable : t'.writable path = .ok place :=
    DirectoryTree.writable_congr (t := t) hdirectories hpath
  rw [h t' path, hwritable]
  dsimp only
  rw [DirectoryTree.put_of_file? ht']

theorem StoredInTree.bars (h : StoredInTree text encoding content) {path : String} {e : Fault}
    (hpath : t.writable path = .error e) : (directory t).Bars path text encoding := by
  intro fs hspread
  obtain ⟨t', rfl, hdirectories⟩ := later_directory hspread.later
  rw [h t' path]
  cases hpath' : t'.writable path with
  | error e' => exact ⟨e', rfl⟩
  | ok place =>
      rw [DirectoryTree.writable_congr hdirectories.symm hpath'] at hpath
      cases hpath

/-- A directory tree answers in the same way again. -/
theorem repeats_directory (t : DirectoryTree) (text : String) (encoding : Value) :
    (directory t).Repeats text encoding := by
  rcases directory_cases text encoding with hrefused | ⟨content, hcontent⟩
  · refine repeats_of_error fun hspread path => ?_
    obtain ⟨t', rfl, -⟩ := later_directory hspread.later
    exact hrefused t' path
  · constructor
    case holds =>
      intro fs hspread path htaken
      obtain ⟨t', rfl, -⟩ := later_directory hspread.later
      rw [hcontent t' path] at htaken ⊢
      cases hpath : t'.writable path with
      | error e =>
          rw [hpath] at htaken
          cases htaken
      | ok place => exact hcontent.holds hpath
    case bars =>
      intro fs hspread path e hrefused
      obtain ⟨t', rfl, -⟩ := later_directory hspread.later
      rw [hcontent t' path] at hrefused ⊢
      cases hpath : t'.writable path with
      | error e' => exact hcontent.bars hpath
      | ok place =>
          rw [hpath] at hrefused
          cases hrefused

end Directory

end FileSystem

end Dialogue
