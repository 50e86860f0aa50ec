import Dialogue.Proofs.Project.Saved
import Mathlib.Data.List.Nodup
import Mathlib.Data.List.Perm.Subperm

/-! A project is saved by a new file next to its target, which is then renamed. Wherever that fails,
all is as it was; otherwise the target holds the text of the project, and no other place of the tree
has changed. -/

namespace Dialogue

namespace DirectoryTree

/-! ## Fresh names -/

/-- The names that are tried for a new file, one for each number. -/
def candidate (ending : Path.Name) (n : Nat) : Path.Name :=
  let digits := (toString n).toList
  ".tmp-".toList ++ List.replicate (8 - digits.length) '0' ++ digits ++ ending

theorem candidate_injective (ending : Path.Name) : Function.Injective (candidate ending) := by
  intro m n h
  have hdigits : ∀ n : Nat, Decimal.digitsValue (List.replicate (8 - (toString n).toList.length) '0'
      ++ (toString n).toList) = n := by
    intro n
    have hn : (toString n).toList = Nat.toDigits 10 n := by simp
    rw [Decimal.digitsValue_append, Decimal.digitsValue_replicate, hn,
      Decimal.digitsValue_toDigits]
    simp
  have hnumbers := List.append_cancel_right h
  rw [List.append_assoc, List.append_assoc, List.append_cancel_left_eq] at hnumbers
  rw [← hdigits m, hnumbers, hdigits n]

variable {t t' : DirectoryTree} {place source : List Path.Name} {path : String} {content : Bytes}

theorem mem_of_file? (h : (t.file? place).isSome = true) : place ∈ t.files.map (·.1) := by
  obtain ⟨e, he, hplace⟩ := List.lookup_isSome_iff.mp h
  rw [beq_iff_eq.mp hplace]
  exact List.mem_map_of_mem he

/-- Of more places than there are files, one is free. -/
theorem exists_file?_eq_none {places : Nat → List Path.Name} (h : Function.Injective places) :
    ∃ n ∈ List.range (t.files.length + 1), (t.file? (places n)).isNone = true := by
  by_contra hnone
  have hsubset : (List.range (t.files.length + 1)).map places ⊆ t.files.map (·.1) := by
    intro place hplace
    obtain ⟨n, hn, rfl⟩ := List.mem_map.mp hplace
    apply mem_of_file?
    by_contra hfree
    exact hnone ⟨n, hn, by simpa using hfree⟩
  have hlength := (List.subperm_of_subset (List.nodup_range.map h) hsubset).length_le
  simp at hlength

theorem freshName_eq (t : DirectoryTree) (directory : List Path.Name) (ending : Path.Name) :
    t.freshName directory ending =
      candidate ending (((List.range (t.files.length + 1)).find? fun n =>
        (t.file? (directory ++ [candidate ending n])).isNone).getD 0) := rfl

theorem file?_freshName (t : DirectoryTree) (directory : List Path.Name) (ending : Path.Name) :
    t.file? (directory ++ [t.freshName directory ending]) = none := by
  have hinjective : Function.Injective fun n => directory ++ [candidate ending n] := by
    intro m n h
    exact candidate_injective ending (by simpa using h)
  have hfound := List.find?_isSome.mpr (t.exists_file?_eq_none hinjective)
  obtain ⟨n, hn⟩ := Option.isSome_iff_exists.mp hfound
  rw [freshName_eq, hn]
  simpa using List.find?_some hn

/-! ## New files -/

theorem ne_of_file?_eq_none (h : t.file? place = none) {e : List Path.Name × Bytes}
    (he : e ∈ t.files) : e.1 ≠ place := by
  rintro rfl
  simpa using List.lookup_eq_none_iff.mp h e he

/-- A new file that is removed leaves nothing behind. -/
theorem erase_put (h : t.file? place = none) (content : Bytes) :
    (t.put place content).erase place = t := by
  have hinsert : ∀ files : List (List Path.Name × Bytes), (∀ e ∈ files, e.1 ≠ place) →
      (put.insert place content files).filter (fun e => e.1 ≠ place) = files := by
    intro files hother
    induction files with
    | nil => simp [put.insert]
    | cons e files ih =>
        obtain ⟨he, hfiles⟩ := List.forall_mem_cons.mp hother
        simpa [put.insert, he] using ih hfiles
  have hfiles := hinsert t.files fun e he => ne_of_file?_eq_none h he
  rw [erase, put]
  dsimp only
  rw [hfiles]

/-- A new file that is renamed is gone from its own place. -/
theorem rename_put (h : t.file? source = none)
    (hrename : (t.put source content).rename source path = .ok t') :
    ∃ place, t.locate path = .ok (.entry place false) ∧ t' = t.put place content := by
  rw [rename, file?_put_self, erase_put h] at hrename
  split at hrename
  · cases hrename
  · cases hrename
  · cases hrename
  · next place hlocate =>
      have hkept : t.directories = (t.put source content).directories := rfl
      exact ⟨place, locate_congr hkept hlocate, (Except.ok.inj hrename).symm⟩

theorem replace_cases (t : DirectoryTree) (path : String) (content : Bytes)
    (trouble : Option (SaveStep × FileFault)) :
    (∃ e, t.replace path content trouble = (.error e, t)) ∨
      trouble = none ∧ ∃ place, t.locate path = .ok (.entry place false) ∧
        t.replace path content trouble = (.ok (), t.put place content) := by
  have hfresh := t.file?_freshName (Path.normalNames (Path.fromRoot path.toList)).dropLast
    (Path.baseName path.toList)
  unfold replace
  dsimp only
  split
  · exact .inl ⟨_, rfl⟩
  split
  · exact .inl ⟨_, rfl⟩
  split
  · exact .inl ⟨_, rfl⟩
  split
  · exact .inl ⟨_, rfl⟩
  · exact .inl ⟨_, by rw [erase_put hfresh]⟩
  · exact .inl ⟨_, by rw [erase_put hfresh]⟩
  split
  · next hrename =>
      obtain ⟨place, hlocate, rfl⟩ := rename_put hfresh hrename
      exact .inr ⟨rfl, place, hlocate, rfl⟩
  · exact .inl ⟨_, by rw [erase_put hfresh]⟩

end DirectoryTree

theorem FileSystem.replace_cases (fs : FileSystem) (path : String) (content : Bytes)
    (trouble : Option (SaveStep × FileFault)) :
    (∃ e, fs.replace path content trouble = (.error e, fs)) ∨
      trouble = none ∧ ∃ t place, fs = .directory t ∧ t.locate path = .ok (.entry place false) ∧
        fs.replace path content trouble = (.ok (), .directory (t.put place content)) := by
  cases fs with
  | memory m => exact .inl ⟨_, rfl⟩
  | volume v => exact .inl ⟨_, rfl⟩
  | directory t =>
      rcases t.replace_cases path content trouble with ⟨e, h⟩ | ⟨htrouble, place, hlocate, h⟩
      · exact .inl ⟨e, by rw [replace, h]⟩
      · exact .inr ⟨htrouble, t, place, rfl, hlocate, by rw [replace, h]⟩

/-! ## Saved projects -/

/-- A world in which a project has been saved. Its target holds its text, in a tree that is the same
everywhere else, and the project has the target for its path. -/
structure SavedAt (w : World) (id : ProjectId) (path : Value) (file text : String)
    (t t' : DirectoryTree) (place : List Path.Name) (w' : World) : Prop where
  target : saveTarget (w.project id) path = .ok (.text file)
  yaml : w.projectYaml (w.project id) = .ok text
  before : w.files = .directory t
  located : t.locate file = .ok (.entry place false)
  content : t'.file? place = some (Text.Utf8.encode text.toList)
  read : t'.read file = .ok (Text.Utf8.encode text.toList)
  others : ∀ other, other ≠ place → t'.file? other = t.file? other
  directories : t'.directories = t.directories
  after : w' = { w with files := .directory t' }.setProject id
    { w.project id with path := .text file }
  path : (w'.project id).path = .text file

section Saving

variable {w w' : World} {id : ProjectId} {path : Value} {trouble : Option (SaveStep × FileFault)}

theorem savedAt_put {file text : String} {t : DirectoryTree} {place : List Path.Name}
    (htarget : saveTarget (w.project id) path = .ok (.text file))
    (hyaml : w.projectYaml (w.project id) = .ok text) (hbefore : w.files = .directory t)
    (hlocated : t.locate file = .ok (.entry place false)) :
    SavedAt w id path file text t (t.put place (Text.Utf8.encode text.toList)) place
      ({ w with files := .directory (t.put place (Text.Utf8.encode text.toList)) }.setProject id
        { w.project id with path := .text file }) := by
  have hself := t.file?_put_self place (Text.Utf8.encode text.toList)
  have hkept : (t.put place (Text.Utf8.encode text.toList)).directories = t.directories := rfl
  have hproject : id < w.projects.size := by
    refine Nat.lt_of_not_le fun hle => ?_
    rw [w.project_of_size_le hle] at hyaml
    cases hyaml
  constructor
  case target => exact htarget
  case yaml => exact hyaml
  case before => exact hbefore
  case located => exact hlocated
  case content => exact hself
  case read => exact DirectoryTree.read_of_locate (DirectoryTree.locate_congr hkept hlocated) hself
  case others => exact fun other hother => t.file?_put place _ hother
  case directories => rfl
  case after => rfl
  case path => exact congrArg Project.path (World.project_setProject_self _ hproject _)

/-- A project is saved, or nothing at all has happened. -/
theorem exec_saveProject_cases (w : World) (id : ProjectId) (path : Value)
    (trouble : Option (SaveStep × FileFault)) :
    (∃ e, Action.exec (saveProject id path trouble) w = (.error e, w)) ∨
      trouble = none ∧ ∃ file text t t' place w',
        Action.exec (saveProject id path trouble) w = (.ok (.text file), w') ∧
        SavedAt w id path file text t t' place w' := by
  rw [saveProject, Action.exec_bind_of_ok (Action.exec_get w)]
  dsimp only
  cases htarget : saveTarget (w.project id) path with
  | error e => exact .inl ⟨e, rfl⟩
  | ok target =>
      rw [Action.exec_bind_of_ok (Action.exec_ofExcept ..)]
      cases hdraft : Draft.ofProject w (w.project id) with
      | error e => exact .inl ⟨e, rfl⟩
      | ok d =>
          rw [Action.exec_bind_of_ok (Action.exec_ofExcept ..)]
          cases htext : d.toYaml with
          | error e => exact .inl ⟨e, rfl⟩
          | ok text =>
              rw [Action.exec_bind_of_ok (Action.exec_ofExcept ..)]
              split
              case h_2 => exact .inl ⟨_, rfl⟩
              case h_1 file =>
                have hyaml : w.projectYaml (w.project id) = .ok text :=
                  bind_eq_ok.mpr ⟨d, hdraft, htext⟩
                rcases w.files.replace_cases file (Text.Utf8.encode text.toList) trouble with
                  ⟨e, hreplace⟩ | ⟨rfl, t, place, hbefore, hlocated, hreplace⟩
                · rw [hreplace]
                  exact .inl ⟨e, rfl⟩
                · rw [hreplace]
                  exact .inr ⟨rfl, file, text, t, _, place, _, rfl,
                    savedAt_put htarget hyaml hbefore hlocated⟩

end Saving

/-- Saving a project is done as a whole or not at all, whatever of it fails. -/
theorem saveProject_atomic (w : World) (id : ProjectId) (path : Value)
    (trouble : Option (SaveStep × FileFault)) :
    (∀ e w', Action.exec (saveProject id path trouble) w = (.error e, w') → w' = w) ∧
    (∀ target w', Action.exec (saveProject id path trouble) w = (.ok target, w') →
      ∃ file text t t' place, target = .text file ∧ SavedAt w id path file text t t' place w') ∧
    (trouble.isSome = true →
      ∃ e, Action.exec (saveProject id path trouble) w = (.error e, w)) := by
  rcases exec_saveProject_cases w id path trouble with
    ⟨e, h⟩ | ⟨rfl, file, text, t, t', place, w', h, hsaved⟩
  · rw [h]
    refine ⟨fun e' w' heq => (Prod.mk.inj heq).2.symm, fun target w' heq => ?_, fun _ => ⟨e, rfl⟩⟩
    cases heq
  · rw [h]
    refine ⟨fun e w'' heq => ?_, fun target w'' heq => ?_, fun htrouble => ?_⟩
    · cases heq
    · obtain ⟨htarget, rfl⟩ := Prod.mk.inj heq
      exact ⟨file, text, t, t', place, (Except.ok.inj htarget).symm, hsaved⟩
    · cases htrouble

/-- The project is saved at its path, unless a step fails. -/
theorem saveProject_filed :
    (∃ file text t t' place w',
      Action.exec (saveProject 0 .null none) World.filed = (.ok (.text file), w') ∧
        SavedAt World.filed 0 .null file text t t' place w') ∧
    ∀ step f, ∃ e, Action.exec (saveProject 0 .null (some (step, f))) World.filed =
      (.error e, World.filed) := by
  refine ⟨?_, fun step f => (saveProject_atomic World.filed 0 .null (some (step, f))).2.2 rfl⟩
  have hsaved : (Action.exec (saveProject 0 .null none) World.filed).1.toOption.isSome = true := by
    decide +kernel
  rcases hexec : Action.exec (saveProject 0 .null none) World.filed with ⟨e | target, w'⟩
  · rw [hexec] at hsaved
    cases hsaved
  · obtain ⟨file, text, t, t', place, rfl, hat⟩ :=
      (saveProject_atomic World.filed 0 .null none).2.1 target w' hexec
    exact ⟨file, text, t, t', place, w', rfl, hat⟩

end Dialogue
