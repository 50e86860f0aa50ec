import Dialogue.Proofs.Project.Document
import Dialogue.Proofs.World.Execution

/-! A draft is added as a project of its own: its localizations and its base stand behind all that
there were, and nothing that was there changes. What is persisted of the new project is what the
draft holds. -/

namespace Dialogue

theorem World.foldl_addLocalization (ls : List Localization) (w : World) :
    ls.foldl World.addLocalization w =
      { w with localizations := w.localizations ++ ls.toArray } := by
  induction ls generalizing w with
  | nil => simp
  | cons l ls ih =>
      rw [List.foldl_cons, ih]
      simp [World.addLocalization]

namespace Draft

/-- The localization that is added for the base, if it is none of the list. -/
def ownBase (d : Draft) : Option Localization :=
  match d.base with
  | .listed _ => none
  | .own l => some l
  | .absent => some { localeCode := d.project.baseLanguage }

/-- The number that the base gets behind a certain number of localizations. -/
def baseNumber (d : Draft) (first : Nat) : LocalizationId :=
  match d.base with
  | .listed place => first + place
  | _ => first + d.localizations.length

def installedProject (d : Draft) (first : Nat) : Project :=
  { d.project with
    base := some (d.baseNumber first)
    localizations := (List.range d.localizations.length).map (first + ·) }

def installed (d : Draft) (w : World) : World :=
  { w with
    localizations := w.localizations ++ (d.localizations ++ d.ownBase.toList).toArray
    projects := w.projects.push (d.installedProject w.localizations.size) }

variable {d : Draft} {w : World}

theorem exec_install (d : Draft) (w : World) :
    Action.exec d.install w = (.ok w.projects.size, d.installed w) := by
  unfold install
  rw [Action.exec_bind_of_ok (Action.exec_get w), Action.exec_bind_of_ok (Action.exec_modify ..),
    World.foldl_addLocalization]
  cases hbase : d.base with
  | listed place =>
      rw [Action.exec_bind_of_ok (Action.exec_pure ..)]
      simp [Action.newProject, Action.exec_bind, Action.exec_map, Except.map, installed,
        installedProject, baseNumber, ownBase, hbase]
  | own l =>
      rw [Action.exec_bind_of_ok (Action.exec_map ..)]
      simp [Action.newProject, Action.exec_bind, Action.exec_map, Except.map, installed,
        installedProject, baseNumber, ownBase,
        hbase, World.addLocalization]
  | absent =>
      rw [Action.exec_bind_of_ok (Action.exec_pure ..)]
      simp [Action.newProject, Action.exec_bind, Action.exec_map, Except.map, installed,
        installedProject, baseNumber, ownBase,
        hbase, World.addLocalization]

/-! ## What was there -/

theorem project_installed (d : Draft) (w : World) :
    (d.installed w).project w.projects.size = d.installedProject w.localizations.size := by
  simp [World.project, installed]

/-! ## What is new -/

theorem localization_installed {i : Nat} (h : i < d.localizations.length) :
    (d.installed w).localization (w.localizations.size + i) = d.localizations[i] := by
  have happend : (d.localizations ++ d.ownBase.toList)[i]? = some d.localizations[i] := by
    rw [List.getElem?_append_left h, List.getElem?_eq_getElem h]
  simp [World.localization, installed, Array.getElem?_append, happend]

theorem map_localization_installed (d : Draft) (w : World) :
    (d.installedProject w.localizations.size).localizations.map (d.installed w).localization =
      d.localizations := by
  refine List.ext_getElem (by simp [installedProject]) fun i hi hi' => ?_
  simp [installedProject, localization_installed hi']

theorem localization_ownBase {l : Localization} (h : d.ownBase = some l) :
    (d.installed w).localization (w.localizations.size + d.localizations.length) = l := by
  simp [World.localization, installed, h]

theorem idxOf?_installedProject (d : Draft) (first n : Nat) :
    (d.installedProject first).localizations.idxOf? (first + n) =
      if n < d.localizations.length then some n else none := by
  split
  · rename_i h
    have hlength : n < (d.installedProject first).localizations.length := by
      simpa [installedProject] using h
    refine List.idxOf?_eq_some_iff.mpr ⟨hlength, by simp [installedProject], fun j hj => ?_⟩
    simp only [installedProject, List.getElem_map, List.getElem_range]
    omega
  · rename_i h
    refine List.idxOf?_eq_none_iff.mpr fun hmem => ?_
    simp only [installedProject, List.mem_map, List.mem_range] at hmem
    obtain ⟨i, hi, heq⟩ := hmem
    omega

/-- What is persisted of the project that was added for a draft. -/
theorem ofProject_installed (hpresent : d.base ≠ .absent)
    (hplace : ∀ place, d.base = .listed place → place < d.localizations.length) (w : World) :
    ofProject (d.installed w) (d.installedProject w.localizations.size) =
      .ok { d with project := d.installedProject w.localizations.size } := by
  have hbase : (d.installedProject w.localizations.size).base =
      some (d.baseNumber w.localizations.size) := rfl
  rw [ofProject, hbase]
  dsimp only
  rw [map_localization_installed]
  cases hbase : d.base with
  | listed place =>
      have hnumber : d.baseNumber w.localizations.size = w.localizations.size + place := by
        rw [baseNumber, hbase]
      rw [hnumber, idxOf?_installedProject, if_pos (hplace place hbase)]
  | own l =>
      have hnumber : d.baseNumber w.localizations.size =
          w.localizations.size + d.localizations.length := by
        rw [baseNumber, hbase]
      rw [hnumber, idxOf?_installedProject, if_neg (Nat.lt_irrefl _),
        localization_ownBase (by rw [ownBase, hbase])]
  | absent => exact absurd hbase hpresent

end Draft

end Dialogue
