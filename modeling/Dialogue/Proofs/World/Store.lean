import Dialogue.Proofs.World.Execution

/-! What a write does to the projects and localizations of a world, and when two worlds agree in all
that builds are about. -/

namespace Dialogue.World

/-! ## Writes -/

section Writes

variable (w : World)

@[simp] theorem localizations_setProject (id : ProjectId) (p : Project) :
    (w.setProject id p).localizations = w.localizations := rfl

@[simp] theorem projects_setLocalization (id : LocalizationId) (l : Localization) :
    (w.setLocalization id l).projects = w.projects := rfl

@[simp] theorem size_setProject (id : ProjectId) (p : Project) :
    (w.setProject id p).projects.size = w.projects.size :=
  Array.size_setIfInBounds

@[simp] theorem size_setLocalization (id : LocalizationId) (l : Localization) :
    (w.setLocalization id l).localizations.size = w.localizations.size :=
  Array.size_setIfInBounds

@[simp] theorem size_addLocalization (l : Localization) :
    (w.addLocalization l).localizations.size = w.localizations.size + 1 :=
  Array.size_push l

theorem project_setProject_self {id : ProjectId} (h : id < w.projects.size) (p : Project) :
    (w.setProject id p).project id = p := by
  simp [project, setProject, h]

theorem project_setProject_of_ne {id k : ProjectId} (h : k ≠ id) (p : Project) :
    (w.setProject id p).project k = w.project k := by
  simp [project, setProject, Array.getD_getElem?, Array.getElem?_setIfInBounds_ne h.symm]

theorem localization_setLocalization_self {id : LocalizationId} (h : id < w.localizations.size)
    (l : Localization) : (w.setLocalization id l).localization id = l := by
  simp [localization, setLocalization, h]

theorem localization_setLocalization_of_ne {id k : LocalizationId} (h : k ≠ id)
    (l : Localization) : (w.setLocalization id l).localization k = w.localization k := by
  simp [localization, setLocalization, Array.getElem?_setIfInBounds_ne h.symm]

theorem localization_addLocalization_of_lt {k : LocalizationId} (h : k < w.localizations.size)
    (l : Localization) : (w.addLocalization l).localization k = w.localization k := by
  simp [localization, addLocalization, Array.getElem?_push, Nat.ne_of_lt h]

theorem localization_addLocalization_size (l : Localization) :
    (w.addLocalization l).localization w.localizations.size = l := by
  simp [localization, addLocalization]

theorem project_of_size_le {k : ProjectId} (h : w.projects.size ≤ k) : w.project k = {} := by
  simp [project, Array.getElem?_eq_none h]

theorem localization_of_size_le {k : LocalizationId} (h : w.localizations.size ≤ k) :
    w.localization k = {} := by
  simp [localization, Array.getElem?_eq_none h]

end Writes

/-! ## Agreement -/

/-- Agreement in all that builds are about. The log, warnings and calls of the compiler may
differ. -/
structure SameStore (w w' : World) : Prop where
  localizations : w'.localizations = w.localizations
  projects : w'.projects = w.projects
  files : w'.files = w.files
  events : w'.journal.events = w.journal.events

namespace SameStore

variable {w w' w'' : World}

theorem refl (w : World) : w.SameStore w :=
  ⟨rfl, rfl, rfl, rfl⟩

theorem trans (h : w.SameStore w') (h' : w'.SameStore w'') : w.SameStore w'' :=
  ⟨h'.localizations.trans h.localizations, h'.projects.trans h.projects, h'.files.trans h.files,
    h'.events.trans h.events⟩

theorem localization (h : w.SameStore w') (k : LocalizationId) :
    w'.localization k = w.localization k := by
  rw [World.localization, h.localizations, World.localization]

theorem project (h : w.SameStore w') (k : ProjectId) : w'.project k = w.project k := by
  rw [World.project, h.projects, World.project]

theorem setProject (h : w.SameStore w') (id : ProjectId) (p : Project) :
    (w.setProject id p).SameStore (w'.setProject id p) :=
  ⟨h.localizations, by simp [World.setProject, h.projects], h.files, h.events⟩

theorem logged (w : World) (level : LogLevel) (message : String) :
    w.SameStore (w.logged level message) :=
  ⟨rfl, rfl, rfl, rfl⟩

end SameStore

theorem setProject_project (w : World) (id : ProjectId) : w.setProject id (w.project id) = w := by
  have hprojects : w.projects.setIfInBounds id (w.project id) = w.projects := by
    apply Array.ext
    · simp
    · intro i hi hi'
      rw [Array.getElem_setIfInBounds]
      split
      · subst id
        simp [project, hi']
      · rfl
  rw [setProject, hprojects]

theorem setLocalization_setProject (w : World) (id : ProjectId) (p : Project) (k : LocalizationId)
    (l : Localization) :
    (w.setProject id p).setLocalization k l = (w.setLocalization k l).setProject id p := rfl

theorem setProject_setProject (w : World) (id : ProjectId) (p q : Project) :
    (w.setProject id p).setProject id q = w.setProject id q := by
  simp [setProject]

end Dialogue.World

namespace Dialogue.Localization

theorem foldl_storeText (entries : List (Scalar × Value)) (l : Localization) :
    entries.foldl (fun l e => l.storeText e.1 e.2) l =
      { l with texts := entries.foldl (fun t e => Table.put t e.1 e.2) l.texts } := by
  induction entries generalizing l with
  | nil => rfl
  | cons e entries ih =>
      rw [List.foldl_cons, ih, storeText, List.foldl_cons]

/-- Agreement in language, path, flags, texts and assets. Runtime texts and listeners may differ. -/
structure Alike (l l' : Localization) : Prop where
  localeCode : l'.localeCode = l.localeCode
  stringFile : l'.stringFile = l.stringFile
  containsAssets : l'.containsAssets = l.containsAssets
  addressableAssets : l'.addressableAssets = l.addressableAssets
  texts : l'.texts = l.texts
  assets : l'.assets = l.assets

namespace Alike

variable {l l' l'' : Localization}

theorem refl (l : Localization) : l.Alike l :=
  ⟨rfl, rfl, rfl, rfl, rfl, rfl⟩

theorem trans (h : l.Alike l') (h' : l'.Alike l'') : l.Alike l'' :=
  ⟨h'.localeCode.trans h.localeCode, h'.stringFile.trans h.stringFile,
    h'.containsAssets.trans h.containsAssets, h'.addressableAssets.trans h.addressableAssets,
    h'.texts.trans h.texts, h'.assets.trans h.assets⟩

/-- What is persisted of localizations that agree is the same. -/
theorem toValue (h : l.Alike l') : l'.toValue = l.toValue := by
  rw [Localization.toValue, h.localeCode, h.stringFile, h.containsAssets, h.addressableAssets,
    h.texts, Localization.toValue]

end Alike

end Dialogue.Localization

namespace Dialogue.Action

/-- A property of worlds on which the log, warnings and calls of the compiler have no bearing. -/
def IgnoresLog (I : World → Prop) : Prop :=
  ∀ (w : World) (change : Journal → Journal), (∀ j, (change j).events = j.events) → I w →
    I { w with journal := change w.journal }

theorem ignoresLog_sameStore (w : World) : IgnoresLog w.SameStore :=
  fun _ _ h hw => ⟨hw.localizations, hw.projects, hw.files, (h _).trans hw.events⟩

theorem ignoresLog_true : IgnoresLog fun _ => True :=
  fun _ _ _ _ => trivial

section Log

variable {I : World → Prop}

theorem Keeps.updateJournal (hI : IgnoresLog I) {change : Journal → Journal}
    (h : ∀ j, (change j).events = j.events) : Keeps I (updateJournal change) :=
  fun w hw => hI w change h hw

theorem Keeps.log (hI : IgnoresLog I) (level : LogLevel) (message : String) :
    Keeps I (log level message) :=
  Keeps.updateJournal hI fun _ => rfl

end Log

end Dialogue.Action
