import Dialogue.Proofs.Build.Publish
import Dialogue.Proofs.Localization.Telling

/-! However a build ends, it either leaves what its base holds as it is, or it empties the base and
persists lines in it one by one. -/

namespace Dialogue

/-- What a localization holds, and who listens to it. -/
def Localization.contents (l : Localization) : Localization :=
  { texts := l.texts, assets := l.assets, runtime := l.runtime, listeners := l.listeners }

theorem Localization.contents_replay (l : Localization) (h : List Deed) :
    (replay l h).contents = replay l.contents h := by
  induction h generalizing l with
  | nil => rfl
  | cons d h ih =>
      rw [replay, List.foldl_cons, ← replay, ih]
      cases d <;> rfl

/-- Worlds between which deeds have been done to a localization. Its language and the path of its
table may differ, and so may all other localizations, but no project has got another base. -/
structure World.Came (id : LocalizationId) (h : List Deed) (w v : World) : Prop where
  size : w.localizations.size ≤ v.localizations.size
  contents : (v.localization id).contents = replay (w.localization id).contents h
  events : v.journal.events = w.journal.events ++ (told h).map fun l => (l, id)
  base : ∀ k, (v.project k).base = (w.project k).base

namespace World.Came

variable {id : LocalizationId} {h h' : List Deed} {w v u : World}

theorem refl (id : LocalizationId) (w : World) : w.Came id [] w :=
  ⟨Nat.le_refl _, rfl, by simp [told], fun _ => rfl⟩

theorem trans (hv : w.Came id h v) (hu : v.Came id h' u) : w.Came id (h ++ h') u where
  size := Nat.le_trans hv.size hu.size
  contents := by rw [hu.contents, hv.contents, replay_append]
  events := by rw [hu.events, hv.events, told, told, told, List.filterMap_append]; simp
  base k := (hu.base k).trans (hv.base k)

theorem after_nil (hv : w.Came id [] v) (hu : v.Came id h u) : w.Came id h u :=
  hv.trans hu

theorem before_nil (hv : w.Came id h v) (hu : v.Came id [] u) : w.Came id h u := by
  simpa using hv.trans hu

/-- The listeners are the same if nothing has been done. -/
theorem listeners (hv : w.Came id [] v) :
    (v.localization id).listeners = (w.localization id).listeners := by
  have hsame := congrArg Localization.listeners hv.contents
  exact hsame

theorem after (hid : id < w.localizations.size) (h : List Deed) : w.Came id h (w.after id h) where
  size := Nat.le_of_eq (w.size_after id h).symm
  contents := by rw [localization_after hid, Localization.contents_replay]
  events := rfl
  base _ := rfl

end World.Came

/-- Nothing is done by a write that concerns neither texts, assets nor listeners. -/
theorem World.Came.of_recorded {id k : LocalizationId} {w v : World} (h : w.Recorded k v) :
    w.Came id [] v where
  size := Nat.le_of_eq h.size.symm
  contents := by
    by_cases hk : id = k
    · rw [hk, h.self.rest]
      rfl
    · rw [h.other id hk]
      rfl
  events := by simp [h.events, told]
  base j := by rw [World.project, World.project, h.projects]

/-- A compiler that leaves a localization as it is when it is called. -/
def Compiler.Spares (compiler : Compiler) (id : LocalizationId) : Prop :=
  ∀ (job : Job) (w : World), id < w.localizations.size → w.Came id [] ((compiler job).exec w).2

theorem Compiler.Spares.keeps {compiler : Compiler} {id : LocalizationId} {w : World}
    (h : compiler.Spares id) (hid : id < w.localizations.size) (job : Job) :
    (compiler job).Keeps (w.Came id []) :=
  fun v hv => hv.trans (h job v (Nat.lt_of_lt_of_le hid hv.size))

theorem Compiler.spares_returning (c : Compilation) (id : LocalizationId) :
    (Compiler.returning c).Spares id :=
  fun _ w _ => .refl id w

namespace Build

open Dialogue.Action (IgnoresLog)

theorem ignoresLog_came (id : LocalizationId) (w : World) : IgnoresLog (w.Came id []) :=
  fun _ _ hevents h => ⟨h.size, h.contents, (hevents _).trans h.events, h.base⟩

/-! ## Slots -/

section Slots

variable {id : LocalizationId} {w : World}

theorem came_skip (report : BuildReport) (code : Value) (message : String) :
    w.Came id [] ((skip report code message).exec w).2 :=
  .of_recorded (k := id) (.of_sameStore (.logged w _ _))

theorem base_setProject (w : World) {k : ProjectId} {p : Project} (hp : p.base = (w.project k).base)
    (j : ProjectId) : ((w.setProject k p).project j).base = (w.project j).base := by
  by_cases hj : j = k
  · subst hj
    by_cases hsize : j < w.projects.size
    · rw [w.project_setProject_self hsize, hp]
    · rw [World.setProject, Array.setIfInBounds_eq_of_size_le (Nat.le_of_not_lt hsize)]
  · rw [w.project_setProject_of_ne hj]

theorem came_replaced (hid : id < w.localizations.size) (c : Context) (slot : Nat)
    (l : Localization) : w.Came id [] (replaced c slot l w) where
  size := by simp [replaced]
  contents := by rw [localization_replaced_of_lt c slot _ hid]; rfl
  events := by simp [told]; rfl
  base := base_setProject (w.addLocalization l) rfl

/-- A slot of a language that has a table of its own. -/
theorem came_syncSlot_of_foreign (hid : id < w.localizations.size) (c : Context)
    {k : LocalizationId} (slot : Nat) (report : BuildReport)
    (hcode : (w.localization k).localeCode.truthy = true)
    (hforeign : (w.localization k).localeCode.same c.project.baseLanguage = false) :
    w.Came id [] ((syncSlot c slot k report).exec w).2 := by
  have hannounced : w.Came id [] (announced k w) := .of_recorded (recorded_announced k w)
  rw [exec_syncSlot_of_foreign c slot k report hcode hforeign]
  rcases hload : (loadTable c.config c.project k c.entries).exec (announced k w)
    with ⟨fault | rows, u⟩
  all_goals
    have hu : w.Came id [] u := hannounced.trans (.of_recorded
      (loadTable_spec c.config c.project c.entries (w := announced k w)
        (lt_size_of_truthy hcode) hload).1)
  · dsimp only
    split
    · exact hu.trans (came_skip _ _ _)
    · exact hu
  · exact hu.trans (came_replaced (Nat.lt_of_lt_of_le hid hu.size) c slot _)

theorem came_syncSlot_of_ne (hid : id < w.localizations.size) {c : Context} {k : LocalizationId}
    (hk : k ≠ c.base) (slot : Nat) (report : BuildReport) :
    w.Came id [] ((syncSlot c slot k report).exec w).2 := by
  cases hcode : (w.localization k).localeCode.truthy with
  | false =>
      rw [exec_syncSlot_of_noCode c slot k report hcode]
      exact came_skip _ _ _
  | true =>
      cases hlanguage : (w.localization k).localeCode.same c.project.baseLanguage with
      | true =>
          have hannounced : w.Came id [] (announced k w) := .of_recorded (recorded_announced k w)
          rw [exec_syncSlot_of_duplicate c slot k report hcode hlanguage hk]
          exact hannounced.trans (came_skip _ _ _)
      | false => exact came_syncSlot_of_foreign hid c slot report hcode hlanguage

/-- What a build may do to its base: nothing, or it empties the base and persists lines. -/
def Reload (listeners : List Listener) (h : List Deed) : Prop :=
  h = [] ∨ ∃ lines, h = .clear :: persisting listeners lines

theorem textsOf_eq_keyed (entries : List StringTable.Entry) :
    textsOf entries = keyed (entries.map fun e => (e.id, .text e.text)) := by
  rw [textsOf, keyed, List.map_map]
  rfl

/-- Emptying a localization and persisting lines, as a list of deeds. -/
theorem exec_reload {α : Type} (hid : id < w.localizations.size) (lines : List (String × Value))
    (x : α) :
    (Action.exec (do
      Action.updateLocalization id Localization.clear
      Action.persistTexts id (keyed lines)
      return x) w).2 = w.after id (.clear :: persisting (w.localization id).listeners lines) := by
  let cleared := w.after id [.clear]
  have hcleared : w.setLocalization id (w.localization id).clear = cleared :=
    (w.after_singleton id .clear rfl).symm
  have hlisteners : (cleared.localization id).listeners = (w.localization id).listeners := by
    rw [World.localization_after hid, listeners_replay]
    rfl
  have hpersist := Action.exec_persistTexts (w := cleared) (by simpa [cleared] using hid) lines
  rw [hlisteners, World.after_after hid] at hpersist
  rw [Action.exec_bind_of_ok (Action.exec_updateLocalization _ _ _), hcleared, Action.exec_bind,
    hpersist]
  cases (if lines.isEmpty then .ok () else alarm (w.localization id).listeners : Except Fault Unit)
    <;> rfl

theorem came_syncSlot_of_base {c : Context} (hid : c.base < w.localizations.size) (slot : Nat)
    (report : BuildReport) :
    ∃ h, Reload (w.localization c.base).listeners h ∧
      w.Came c.base h ((syncSlot c slot c.base report).exec w).2 := by
  cases hcode : (w.localization c.base).localeCode.truthy with
  | false =>
      rw [exec_syncSlot_of_noCode c slot c.base report hcode]
      exact ⟨[], .inl rfl, came_skip _ _ _⟩
  | true =>
      cases hlanguage : (w.localization c.base).localeCode.same c.project.baseLanguage with
      | false => exact ⟨[], .inl rfl, came_syncSlot_of_foreign hid c slot report hcode hlanguage⟩
      | true =>
          have hbegun : c.base < (announced c.base w).localizations.size := hid
          rw [exec_syncSlot_of_base c slot c.base report hcode hlanguage rfl, textsOf_eq_keyed,
            exec_reload hbegun]
          exact ⟨_, .inr ⟨_, rfl⟩,
            (World.Came.of_recorded (recorded_announced c.base w)).after_nil (.after hbegun _)⟩

/-- The slots of a list that does not have the base. -/
theorem came_syncSlots_of_not_mem {c : Context} {ids : List LocalizationId}
    (hid : id < w.localizations.size) (hids : c.base ∉ ids) (slot : Nat) (report : BuildReport) :
    w.Came id [] ((syncSlots c report slot ids).exec w).2 := by
  induction ids generalizing w slot report with
  | nil => exact .refl id w
  | cons k rest ih =>
      obtain ⟨hk, hrest⟩ := not_or.mp (mt List.mem_cons.mpr hids)
      have hslot := came_syncSlot_of_ne hid (Ne.symm hk) slot report
      rw [syncSlots, Action.exec_bind]
      rcases hexec : (syncSlot c slot k report).exec w with ⟨e | report', u⟩
      · rwa [hexec] at hslot
      · rw [hexec] at hslot
        exact hslot.trans (ih (Nat.lt_of_lt_of_le hid hslot.size) hrest _ _)

/-- The slots of a list that has the base at most once. -/
theorem came_syncSlots {c : Context} {ids : List LocalizationId}
    (hid : c.base < w.localizations.size) (hids : ids.count c.base ≤ 1) (slot : Nat)
    (report : BuildReport) :
    ∃ h, Reload (w.localization c.base).listeners h ∧
      w.Came c.base h ((syncSlots c report slot ids).exec w).2 := by
  induction ids generalizing w slot report with
  | nil => exact ⟨[], .inl rfl, .refl _ w⟩
  | cons k rest ih =>
      rw [syncSlots, Action.exec_bind]
      by_cases hk : k = c.base
      · have hrest : c.base ∉ rest := by
          rw [hk, List.count_cons_self] at hids
          exact List.count_eq_zero.mp (by omega)
        rw [hk]
        obtain ⟨h, hreload, hslot⟩ := came_syncSlot_of_base hid slot report
        refine ⟨h, hreload, ?_⟩
        rcases hexec : (syncSlot c slot c.base report).exec w with ⟨e | report', u⟩
        · rwa [hexec] at hslot
        · rw [hexec] at hslot
          exact hslot.before_nil
            (came_syncSlots_of_not_mem (Nat.lt_of_lt_of_le hid hslot.size) hrest _ _)
      · have hslot := came_syncSlot_of_ne hid hk slot report
        rcases hexec : (syncSlot c slot k report).exec w with ⟨e | report', u⟩
        · rw [hexec] at hslot
          exact ⟨[], .inl rfl, hslot⟩
        · rw [hexec] at hslot
          rw [List.count_cons_of_ne hk] at hids
          obtain ⟨h, hreload, hrest⟩ :=
            ih (Nat.lt_of_lt_of_le hid hslot.size) hids (slot + 1) report'
          exact ⟨h, by rwa [← hslot.listeners], hslot.after_nil hrest⟩

end Slots

/-! ## Builds -/

section Builds

variable {id : LocalizationId} {w : World}

theorem came_setProject (w : World) {k : ProjectId} {p : Project}
    (hp : p.base = (w.project k).base) : w.Came id [] (w.setProject k p) where
  size := Nat.le_refl _
  contents := rfl
  events := by simp [told]; rfl
  base := base_setProject w hp

theorem came_registered (hid : id < w.localizations.size) (k : ProjectId) (blob : Bytes) :
    w.Came id [] (registered k id blob w) where
  size := Nat.le_of_eq size_registered.symm
  contents := by rw [localization_registered_self hid]; rfl
  events := by simp [told]; rfl
  base := base_setProject (w.setLocalization id _) rfl

theorem came_publish (hid : id < w.localizations.size) {k : ProjectId}
    (hbase : (w.project k).base = some id) (config : Config) (c : Compilation) (blob : Bytes) :
    ∃ h, Reload (w.localization id).listeners h ∧
      w.Came id h ((publish config k c blob).exec w).2 := by
  have hregistered : w.Came id [] (registered k id blob w) := came_registered hid k blob
  rw [exec_publish hbase]
  cases baseEntries (w.project k).baseLanguage config c.lines with
  | error e => exact ⟨[], .inl rfl, hregistered⟩
  | ok entries =>
      have honce := Nat.le_of_eq (count_registerBase id (w.project k).localizations)
      obtain ⟨h, hreload, hslots⟩ := came_syncSlots
        (c := context config k id blob entries w) (Nat.lt_of_lt_of_le hid hregistered.size)
          honce 0 {}
      exact ⟨h, by rwa [← hregistered.listeners], hregistered.after_nil hslots⟩

theorem came_run {compiler : Compiler} (hcompiler : compiler.Spares id)
    (hid : id < w.localizations.size) {k : ProjectId} (hbase : (w.project k).base = some id)
    (config : Config) :
    ∃ h, Reload (w.localization id).listeners h ∧
      w.Came id h ((run compiler config k).exec w).2 := by
  have hcompile := (harmless_compile (ignoresLog_came id w) (hcompiler.keeps hid) config
    (w.project k) w (.refl id w)).1
  rw [exec_run]
  rcases hstage : Stage.exec (compile compiler config (w.project k)) w with ⟨e | r | ⟨c, blob⟩, u⟩
  · rw [hstage] at hcompile
    exact ⟨[], .inl rfl, hcompile⟩
  · rw [hstage] at hcompile
    exact ⟨[], .inl rfl, hcompile⟩
  · rw [hstage] at hcompile
    obtain ⟨h, hreload, hpublish⟩ := came_publish (Nat.lt_of_lt_of_le hid hcompile.size)
      ((hcompile.base k).trans hbase) config c blob
    exact ⟨h, by rwa [← hcompile.listeners], hcompile.after_nil hpublish⟩

/-- However a build ends, its base has been left as it is, or has been emptied and lines have been
persisted in it. -/
theorem came_build {compiler : Compiler} (hcompiler : compiler.Spares id)
    (hid : id < w.localizations.size) {k : ProjectId} (hbase : (w.project k).base = some id)
    (config : Config) :
    ∃ h, Reload (w.localization id).listeners h ∧
      w.Came id h ((build compiler config (some k)).exec w).2 := by
  cases hadmitted : precondition (w.project k) with
  | error e =>
      rw [exec_build_of_error compiler config hadmitted]
      exact ⟨[], .inl rfl, .of_recorded (k := id) (.of_sameStore (.logged w _ _))⟩
  | ok _ =>
      cases hbuilding : (w.project k).building with
      | true =>
          rw [exec_build_of_building compiler config hadmitted hbuilding]
          exact ⟨[], .inl rfl, .refl id w⟩
      | false =>
          have hmarked : w.Came id [] (w.setBuilding k true) := came_setProject w rfl
          rw [exec_build_of_admitted compiler config hadmitted hbuilding]
          obtain ⟨h, hreload, hrun⟩ := came_run hcompiler
            (Nat.lt_of_lt_of_le hid hmarked.size) ((hmarked.base k).trans hbase) config
          exact ⟨h, by rwa [← hmarked.listeners],
            (hmarked.after_nil hrun).before_nil (came_setProject _ rfl)⟩

end Builds

end Build

end Dialogue
