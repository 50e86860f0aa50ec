import Dialogue.Proofs.Files.Laws

/-! What is left of the files when a text has been written at some paths and nowhere else: all that
these writes leave alone, in memory and in a directory tree. -/

namespace Dialogue

namespace FileSystem

/-- The files after a text has been written at paths of `P`, and nowhere else. -/
inductive WrittenAt (P : String → Prop) (text : String) (encoding : Value) (fs : FileSystem) :
    FileSystem → Prop
  | refl : WrittenAt P text encoding fs fs
  | write {fs' : FileSystem} (h : WrittenAt P text encoding fs fs') {path : String} (hP : P path) :
      WrittenAt P text encoding fs (fs'.writeText path text encoding).2

/-- Whatever is written at a path, now or later, leaves alone what is seen at another one. -/
def LeavesAlone (fs : FileSystem) (path : String) (other : Value) : Prop :=
  ∀ {fs'}, fs.Later fs' → ∀ text encoding, SameAt other fs' (fs'.writeText path text encoding).2

/-- A file system in which different paths are different files, and a text that is refused is not
stored. -/
structure Strict (fs : FileSystem) : Prop where
  apart : ∀ {fs'}, fs.Later fs' → ∀ path text encoding other, other ≠ .text path →
    SameAt other fs' (fs'.writeText path text encoding).2
  refused : ∀ {fs'}, fs.Later fs' → ∀ path text encoding e,
    (fs'.writeText path text encoding).1 = .error e →
    (fs'.writeText path text encoding).2 = fs'

theorem Orderly.strict {fs : FileSystem} (h : fs.Orderly) : fs.Strict :=
  ⟨h.apart, h.refused⟩

theorem later_volume {v : Volume} {fs : FileSystem} (h : (volume v).Later fs) :
    ∃ store, fs = .volume { v with store } := by
  induction h with
  | refl => exact ⟨v.store, rfl⟩
  | write _ path text encoding ih =>
      obtain ⟨store, rfl⟩ := ih
      exact ⟨(v.writeText store path text encoding).2, rfl⟩

/-- A volume is strict if its answers at a path do not depend on what is written at others. -/
theorem strict_volume {v : Volume}
    (hexists : ∀ store path text encoding other, other ≠ path →
      v.existsAt (v.writeText store path text encoding).2 other = v.existsAt store other)
    (hread : ∀ store path text encoding other, other ≠ path →
      v.readText (v.writeText store path text encoding).2 other = v.readText store other)
    (hrefused : ∀ store path text encoding e,
      (v.writeText store path text encoding).1 = .error e →
        (v.writeText store path text encoding).2 = store) : (volume v).Strict where
  apart hlater path text encoding other hother := by
    obtain ⟨store, rfl⟩ := later_volume hlater
    constructor
    · simp only [existsAt, writeText]
      split
      · next p => rw [hexists store path text encoding p fun hp => hother (by rw [hp])]
      · rfl
    · intro encoding'
      simp only [readText, writeText]
      split
      · next p => rw [hread store path text encoding p fun hp => hother (by rw [hp])]
      · rfl
  refused hlater path text encoding e he := by
    obtain ⟨store, rfl⟩ := later_volume hlater
    exact congrArg (fun store => volume { v with store }) (hrefused store path text encoding e he)

/-- A path shows in later files what a text leaves there that has been written and taken. -/
def Shows (fs : FileSystem) (path text : String) (encoding : Value) (fs' : FileSystem) : Prop :=
  ∃ before, fs.Later before ∧ (before.writeText path text encoding).1 = .ok () ∧
    SameAt (.text path) (before.writeText path text encoding).2 fs'

section Written

variable {P : String → Prop} {text : String} {encoding : Value} {fs fs' : FileSystem}

theorem WrittenAt.later (h : fs.WrittenAt P text encoding fs') : fs.Later fs' := by
  induction h with
  | refl => exact .refl
  | write _ _ ih => exact ih.write _ _ _

theorem WrittenAt.mono {Q : String → Prop} (h : fs.WrittenAt P text encoding fs')
    (hPQ : ∀ path, P path → Q path) : fs.WrittenAt Q text encoding fs' := by
  induction h with
  | refl => exact .refl
  | write _ hP ih => exact ih.write (hPQ _ hP)

theorem WrittenAt.sameAt (h : fs.WrittenAt P text encoding fs') {other : Value}
    (hother : ∀ path, P path → fs.LeavesAlone path other) : SameAt other fs fs' := by
  induction h with
  | refl => exact .refl _ _
  | write hwritten hP ih => exact ih.trans (hother _ hP hwritten.later text encoding)

/-- In an orderly file system a path holds what it held, or the text that has been written. -/
theorem WrittenAt.sameAt_or (h : fs.WrittenAt P text encoding fs') (horderly : fs.Orderly)
    (path : String) :
    SameAt (.text path) fs fs' ∨ SameAt (.text path) (fs.writeText path text encoding).2 fs' := by
  induction h with
  | refl => exact .inl (.refl _ _)
  | @write fs' hwritten written _ ih =>
      have hlater := hwritten.later
      by_cases hpath : written = path
      · subst hpath
        cases hresult : (fs.writeText written text encoding).1 with
        | ok _ => exact .inr (horderly.lasting hlater written text encoding hresult)
        | error e =>
            rw [horderly.refused hlater written text encoding e
              (by rw [horderly.steady hlater, hresult])]
            exact ih
      · have hapart := horderly.apart hlater written text encoding (.text path) (by
          simpa using Ne.symm hpath)
        exact ih.imp (fun hsame => hsame.trans hapart) fun hsame => hsame.trans hapart

/-- In a strict file system a path shows what it showed, or what a text leaves there that has been
written and taken. -/
theorem WrittenAt.sameAt_or_shows (h : fs.WrittenAt P text encoding fs') (hstrict : fs.Strict)
    (path : String) :
    SameAt (.text path) fs fs' ∨ P path ∧ fs.Shows path text encoding fs' := by
  induction h with
  | refl => exact .inl (.refl _ _)
  | @write fs' hwritten written hP ih =>
      have hlater := hwritten.later
      by_cases hpath : written = path
      · subst hpath
        cases hresult : (fs'.writeText written text encoding).1 with
        | ok _ => exact .inr ⟨hP, fs', hlater, hresult, .refl _ _⟩
        | error e =>
            rw [hstrict.refused hlater written text encoding e hresult]
            exact ih
      · have hapart := hstrict.apart hlater written text encoding (.text path) (by
          simpa using Ne.symm hpath)
        rcases ih with hsame | ⟨hP', before, hbefore, htaken, hshown⟩
        · exact .inl (hsame.trans hapart)
        · exact .inr ⟨hP', before, hbefore, htaken, hshown.trans hapart⟩

/-- In memory a path has the file that it had, or the bytes of the text that has been written. -/
theorem WrittenAt.find?_memory {m m' : MemoryFiles}
    (h : (memory m).WrittenAt P text encoding (.memory m')) (path : String) :
    m'.find? path = m.find? path ∨ P path ∧ ∃ e content, encodingOf encoding = .ok e ∧
      e.encode text.toList = .ok content ∧ m'.find? path = some (.bytes content) := by
  generalize hfiles : memory m' = fs' at h
  induction h generalizing m' with
  | refl =>
      cases hfiles
      exact .inl rfl
  | @write fs' hwritten written hP ih =>
      obtain ⟨m₁, rfl, -⟩ := later_memory hwritten.later
      rw [writeText] at hfiles
      split at hfiles
      · cases hfiles
        exact ih rfl
      · split at hfiles
        · cases hfiles
          exact ih rfl
        · rename_i e hencoding
          split at hfiles
          · cases hfiles
            exact ih rfl
          · rename_i content hcontent
            cases hfiles
            rw [MemoryFiles.find?_put]
            by_cases hpath : path = written
            · rw [if_pos hpath]
              exact .inr ⟨hpath ▸ hP, e, content, hencoding, hcontent, rfl⟩
            · rw [if_neg hpath]
              exact ih rfl

theorem Orderly.leavesAlone (h : fs.Orderly) {path : String} {other : Value}
    (hother : other ≠ .text path) : fs.LeavesAlone path other :=
  fun hlater text encoding => h.apart hlater path text encoding other hother

end Written

end FileSystem

/-! ## Directory trees -/

namespace DirectoryTree

variable {t t' : DirectoryTree}

theorem file?_put (t : DirectoryTree) (place : List Path.Name) (content : Bytes)
    {other : List Path.Name} (h : other ≠ place) :
    (t.put place content).file? other = t.file? other := by
  have hlookup : ∀ files : List (List Path.Name × Bytes),
      (put.insert place content files).lookup other = files.lookup other := by
    intro files
    induction files with
    | nil => simp [put.insert, List.lookup_cons, beq_false_of_ne h]
    | cons e files ih =>
        obtain ⟨p, c⟩ := e
        rw [put.insert]
        split
        · rename_i hp
          simp [List.lookup_cons, hp, beq_false_of_ne h]
        · rw [List.lookup_cons, List.lookup_cons, ih]
  exact hlookup t.files

/-- Where a path leads to depends on the directories alone. -/
theorem walk_congr (h : t'.directories = t.directories) {path : Value} {place : List Path.Name}
    {names : List Path.Name} {target : Target} (hwalk : t.walk path place names = .ok target) :
    t'.walk path place names = .ok target := by
  have hdirectory : ∀ place, t'.isDirectory place = t.isDirectory place := fun place => by
    rw [isDirectory, h, isDirectory]
  induction names generalizing place with
  | nil => exact hwalk
  | cons name rest ih =>
      simp only [walk, hdirectory] at hwalk ⊢
      by_cases hidle : Path.isIdle name = true
      · rw [if_pos hidle] at hwalk ⊢
        exact ih hwalk
      by_cases hup : name = ['.', '.']
      · rw [if_neg hidle, if_pos hup] at hwalk ⊢
        exact ih hwalk
      by_cases hlong : nameLimit < byteLength name
      · rw [if_neg hidle, if_neg hup, if_pos hlong] at hwalk
        cases hwalk
      rw [if_neg hidle, if_neg hup, if_neg hlong] at hwalk ⊢
      by_cases hlast : (rest.all fun n => n = []) = true
      · rw [if_pos hlast] at hwalk ⊢
        exact hwalk
      rw [if_neg hlast] at hwalk ⊢
      by_cases hnext : t.isDirectory (place ++ [name]) = true
      · rw [if_pos hnext] at hwalk ⊢
        exact ih hwalk
      · rw [if_neg hnext] at hwalk
        split at hwalk <;> cases hwalk

theorem locate_congr (h : t'.directories = t.directories) {path : String} {target : Target}
    (hlocate : t.locate path = .ok target) : t'.locate path = .ok target := by
  simp only [locate] at hlocate ⊢
  split
  · rw [if_pos ‹_›] at hlocate
    cases hlocate
  · rw [if_neg ‹_›] at hlocate
    split
    · rw [if_pos ‹_›] at hlocate
      cases hlocate
    · rw [if_neg ‹_›] at hlocate
      split
      · rw [if_pos ‹_›] at hlocate
        cases hlocate
      · rw [if_neg ‹_›] at hlocate
        cases hwalk : t.walk (.text path) [] (Path.fromRoot path.toList) with
        | error e =>
            rw [hwalk] at hlocate
            cases hlocate
        | ok target' =>
            rw [hwalk] at hlocate
            rw [walk_congr h hwalk]
            exact hlocate

theorem writable_eq_ok {path : String} {place : List Path.Name}
    (h : t.writable path = .ok place) : t.locate path = .ok (.entry place false) := by
  rw [writable] at h
  split at h
  · cases h
  · cases h
  · cases h
  · rw [← Except.ok.inj h]
    assumption

end DirectoryTree

namespace FileSystem

variable {t : DirectoryTree} {fs : FileSystem}

/-- Writing a text to a tree changes the file that its path leads to, and no other. -/
theorem writeText_directory_cases (t : DirectoryTree) (path text : String) (encoding : Value) :
    ((directory t).writeText path text encoding).2 = .directory t ∨
      ∃ place content, t.locate path = .ok (.entry place false) ∧
        ((directory t).writeText path text encoding).2 = .directory (t.put place content) := by
  rw [writeText]
  split
  · exact .inl rfl
  · split
    · exact .inl rfl
    · rename_i place hplace
      have hlocate := DirectoryTree.writable_eq_ok hplace
      split
      · exact .inr ⟨place, [], hlocate, rfl⟩
      · split
        · exact .inr ⟨place, [], hlocate, rfl⟩
        · exact .inr ⟨place, _, hlocate, rfl⟩

/-- No directory is made and none is lost when texts are written to a tree. -/
theorem later_directory (h : (directory t).Later fs) :
    ∃ t' : DirectoryTree, fs = .directory t' ∧ t'.directories = t.directories := by
  induction h with
  | refl => exact ⟨t, rfl, rfl⟩
  | write _ path text encoding ih =>
      obtain ⟨t', rfl, hdirectories⟩ := ih
      rcases writeText_directory_cases t' path text encoding with hsame | ⟨place, content, -, hput⟩
      · exact ⟨t', hsame, hdirectories⟩
      · exact ⟨t'.put place content, hput, hdirectories⟩

/-- A file in a tree is left alone by what is written at paths that do not lead to it. -/
theorem leavesAlone_directory {path other : String} {place : List Path.Name}
    (hplace : t.locate other = .ok (.entry place false))
    (hother : t.locate path ≠ .ok (.entry place false)) :
    (directory t).LeavesAlone path (.text other) := by
  intro fs' hlater text encoding
  obtain ⟨t', rfl, hdirectories⟩ := later_directory hlater
  rcases writeText_directory_cases t' path text encoding with
    hsame | ⟨target, content, htarget, hput⟩
  · rw [hsame]
    exact .refl _ _
  · rw [hput]
    have hne : place ≠ target := by
      rintro rfl
      exact hother (DirectoryTree.locate_congr hdirectories.symm htarget)
    have hbefore := DirectoryTree.locate_congr hdirectories hplace
    have hkept : (t'.put target content).directories = t'.directories := rfl
    have hafter := DirectoryTree.locate_congr hkept hbefore
    have hfile := t'.file?_put target content hne
    constructor
    · simp only [existsAt, DirectoryTree.isFile, hbefore, hafter, hfile]
    · intro encoding
      simp only [readText, DirectoryTree.read, hbefore, hafter, hfile]

end FileSystem

end Dialogue
