import Dialogue.Proofs.Build.Request
import Dialogue.Proofs.Build.Slot

/-! The slots of a list are brought up to date one after the other. What is done in one slot is left
alone in all others, so that what is seen at the end can be read off each slot by itself. -/

namespace Dialogue.Build

/-- What bringing some slots up to date leaves as it is: those of `ids`, from `slot` on. The mark of
a project that is being built is not among it. -/
structure Frame (c : Context) (slot : Nat) (ids : List LocalizationId) (w v : World) : Prop where
  projects : v.projects.size = w.projects.size
  project : v.project c.projectId = { w.project c.projectId with
    localizations := (v.project c.projectId).localizations
    building := (v.project c.projectId).building }
  length : (v.project c.projectId).localizations.length =
    (w.project c.projectId).localizations.length
  slots : ∀ j, j < slot ∨ slot + ids.length ≤ j →
    (v.project c.projectId).localizations[j]? = (w.project c.projectId).localizations[j]?
  size : w.localizations.size ≤ v.localizations.size
  untouched : ∀ k, k < w.localizations.size → k ∉ ids → v.localization k = w.localization k
  recorded : ∀ k, k < w.localizations.size → k ≠ c.base →
    (w.localization k).Recorded (v.localization k)
  localeCode : ∀ k, k < w.localizations.size →
    (v.localization k).localeCode = (w.localization k).localeCode
  events : c.base ∉ ids → v.journal.events = w.journal.events

namespace Frame

variable {c : Context} {slot slot' : Nat} {id : LocalizationId} {ids ids' : List LocalizationId}
  {w v u : World}

theorem refl (c : Context) (slot : Nat) (ids : List LocalizationId) (w : World) :
    Frame c slot ids w w where
  projects := rfl
  project := rfl
  length := rfl
  slots _ _ := rfl
  size := Nat.le_refl _
  untouched _ _ _ := rfl
  recorded _ _ _ := .refl _
  localeCode _ _ := rfl
  events _ := rfl

theorem trans (h : Frame c slot ids w v) (h' : Frame c slot ids v u) : Frame c slot ids w u where
  projects := h'.projects.trans h.projects
  project := by rw [h'.project, h.project]
  length := h'.length.trans h.length
  slots j hj := (h'.slots j hj).trans (h.slots j hj)
  size := Nat.le_trans h.size h'.size
  untouched k hk hids :=
    (h'.untouched k (Nat.lt_of_lt_of_le hk h.size) hids).trans (h.untouched k hk hids)
  recorded k hk hbase :=
    (h.recorded k hk hbase).trans (h'.recorded k (Nat.lt_of_lt_of_le hk h.size) hbase)
  localeCode k hk :=
    (h'.localeCode k (Nat.lt_of_lt_of_le hk h.size)).trans (h.localeCode k hk)
  events hids := (h'.events hids).trans (h.events hids)

theorem recorded_of_not_mem {k : LocalizationId} (h : Frame c slot ids w v)
    (hk : k < w.localizations.size) (hids : k = c.base → k ∉ ids) :
    (w.localization k).Recorded (v.localization k) := by
  by_cases hbase : k = c.base
  · rw [h.untouched k hk (hids hbase)]
    exact .refl _
  · exact h.recorded k hk hbase

/-- More slots may be brought up to date than are. -/
theorem mono (h : Frame c slot ids w v) (hids : ids ⊆ ids') (hslot : slot' ≤ slot)
    (hlength : slot + ids.length ≤ slot' + ids'.length) : Frame c slot' ids' w v where
  projects := h.projects
  project := h.project
  length := h.length
  slots j hj := h.slots j (by omega)
  size := h.size
  untouched k hk hk' := h.untouched k hk fun hmem => hk' (hids hmem)
  recorded := h.recorded
  localeCode := h.localeCode
  events hbase := h.events fun hmem => hbase (hids hmem)

theorem cons (h : Frame c slot [id] w v) (h' : Frame c (slot + 1) ids v u) :
    Frame c slot (id :: ids) w u :=
  (h.mono (by simp) (by omega) (by simp)).trans
    (h'.mono (by simp) (by omega) (by simp; omega))

theorem of_recorded (h : w.Recorded id v) : Frame c slot [id] w v where
  projects := by rw [h.projects]
  project := by rw [World.project, h.projects, World.project]
  length := by rw [World.project, h.projects, World.project]
  slots j _ := by rw [World.project, h.projects, World.project]
  size := Nat.le_of_eq h.size.symm
  untouched k _ hk := h.other k (by simpa using hk)
  recorded k _ _ := by
    by_cases hk : k = id
    · subst hk
      exact h.self
    · rw [h.other k hk]
      exact .refl _
  localeCode k _ := by
    by_cases hk : k = id
    · subst hk
      exact h.self.localeCode
    · rw [h.other k hk]
  events _ := h.events

theorem of_persisted {lines : List (Scalar × Value)} (hid : id < w.localizations.size)
    (hbase : id = c.base)
    (h : (w.setLocalization id (w.localization id).clear).Persisted id lines v) :
    Frame c slot [id] w v where
  projects := by rw [h.projects, World.projects_setLocalization]
  project := by rw [World.project, h.projects]; rfl
  length := by rw [World.project, h.projects]; rfl
  slots j _ := by rw [World.project, h.projects]; rfl
  size := Nat.le_of_eq (by rw [h.size, w.size_setLocalization])
  untouched k _ hk := by
    have hk : k ≠ id := by simpa using hk
    rw [h.other k hk, w.localization_setLocalization_of_ne hk]
  recorded k _ hk := by
    have hk : k ≠ id := by rwa [hbase]
    rw [h.other k hk, w.localization_setLocalization_of_ne hk]
    exact .refl _
  localeCode k _ := by
    by_cases hk : k = id
    · subst hk
      rw [h.self, w.localization_setLocalization_self hid, Localization.clear]
    · rw [h.other k hk, w.localization_setLocalization_of_ne hk]
  events hids := by simp [hbase] at hids

theorem replaced (hp : c.projectId < w.projects.size) (l : Localization) :
    Frame c slot [id] w (replaced c slot l w) where
  projects := size_projects_replaced c slot l
  project := by rw [project_replaced c slot l hp]
  length := by rw [project_replaced c slot l hp, List.length_set]
  slots j hj := by
    rw [List.length_singleton] at hj
    rw [project_replaced c slot l hp, List.getElem?_set_ne (by omega)]
  size := by
    rw [size_replaced]
    omega
  untouched k hk _ := localization_replaced_of_lt c slot l hk
  recorded k hk _ := by
    rw [localization_replaced_of_lt c slot l hk]
    exact .refl _
  localeCode k hk := by rw [localization_replaced_of_lt c slot l hk]
  events _ := rfl

theorem setBuilding (c : Context) (slot : Nat) (ids : List LocalizationId) (w : World) (b : Bool) :
    Frame c slot ids w (w.setBuilding c.projectId b) := by
  obtain ⟨b', hproject⟩ := w.project_setBuilding_eq c.projectId b c.projectId
  constructor
  case projects => exact w.size_setProject _ _
  case project => rw [hproject]
  case length => rw [hproject]
  case slots => exact fun j _ => by rw [hproject]
  case size => exact Nat.le_refl _
  case untouched => exact fun _ _ _ => rfl
  case recorded => exact fun k _ _ => .refl _
  case localeCode => exact fun _ _ => rfl
  case events => exact fun _ => rfl

end Frame

theorem Synced.frame {c : Context} {slot : Nat} {id : LocalizationId} {w v : World} {o : Outcome}
    (h : Synced c slot id w o v) (hp : c.projectId < w.projects.size) : Frame c slot [id] w v := by
  cases h with
  | skipped _ kept => exact .of_recorded kept
  | loaded isBase code _ persisted _ =>
      exact .of_persisted (lt_size_of_truthy code) isBase persisted
  | rebuilt _ _ recorded _ =>
      exact (Frame.of_recorded recorded).trans (.replaced (by rwa [recorded.projects]) _)

/-! ## Runs over a list -/

def worldAt (c : Context) (report : BuildReport) (slot : Nat) (ids : List LocalizationId)
    (w : World) (i : Nat) : World :=
  ((syncSlots c report slot (ids.take i)).exec w).2

def noteAll (report : BuildReport) (outcomes : List (Value × Outcome)) : BuildReport :=
  outcomes.foldl (fun r e => e.2.note e.1 r) report

/-- One slot within a run from `w` to `w'`: it is brought up to date between `u` and `v`. -/
structure Passage (c : Context) (slot : Nat) (ids : List LocalizationId) (w w' : World) (i : Nat)
    (id : LocalizationId) (o : Outcome) (u v : World) : Prop where
  before : Frame c slot (ids.take i) w u
  step : Synced c (slot + i) id u o v
  after : Frame c (slot + i + 1) (ids.drop (i + 1)) v w'

section Run

variable {c : Context} {slot : Nat} {id : LocalizationId} {ids : List LocalizationId}
  {report report' : BuildReport} {w w' v u : World} {o : Outcome}

theorem worldAt_zero : worldAt c report slot ids w 0 = w := rfl

theorem worldAt_succ (h : (syncSlot c slot id report).exec w = (.ok report', v)) (i : Nat) :
    worldAt c report slot (id :: ids) w (i + 1) = worldAt c report' (slot + 1) ids v i := by
  rw [worldAt, List.take_succ_cons, syncSlots, Action.exec_bind_of_ok h, worldAt]

theorem Passage.cons {i : Nat} {k : LocalizationId} {o' : Outcome} {u' v' : World}
    (h : Frame c slot [id] w v) (hrest : Passage c (slot + 1) ids v w' i k o' u' v') :
    Passage c slot (id :: ids) w w' (i + 1) k o' u' v' where
  before := by
    rw [List.take_succ_cons]
    exact h.cons hrest.before
  step := by
    rw [show slot + (i + 1) = slot + 1 + i by omega]
    exact hrest.step
  after := by
    rw [show slot + (i + 1) + 1 = slot + 1 + i + 1 by omega, List.drop_succ_cons]
    exact hrest.after

theorem Passage.setBuilding {i : Nat} (h : Passage c slot ids w w' i id o u v) (b : Bool) :
    Passage c slot ids w (w'.setBuilding c.projectId b) i id o u v where
  before := h.before
  step := h.step
  after := h.after.trans (.setBuilding _ _ _ _ b)

theorem codes_eq_of_frame {ks : List LocalizationId} (h : Frame c slot ids w v)
    (hks : ∀ k ∈ ks, k < w.localizations.size) :
    (ks.map fun k => (v.localization k).localeCode) =
      ks.map fun k => (w.localization k).localeCode :=
  List.map_congr_left fun k hk => h.localeCode k (hks k hk)

/-- A run that does not end the build brings all slots up to date, each in a passage of its own, and
its report notes the skips in the order of the list. -/
theorem syncSlots_eq_ok (hids : ∀ k ∈ ids, k < w.localizations.size)
    (hp : c.projectId < w.projects.size)
    (h : (syncSlots c report slot ids).exec w = (.ok report', w')) :
    Frame c slot ids w w' ∧ ∃ outcomes : List Outcome, outcomes.length = ids.length ∧
      report' = noteAll report ((ids.map fun k => (w.localization k).localeCode).zip outcomes) ∧
      ∀ i id o, ids[i]? = some id → outcomes[i]? = some o →
        Passage c slot ids w w' i id o (worldAt c report slot ids w i)
          (worldAt c report slot ids w (i + 1)) := by
  induction ids generalizing slot report w with
  | nil =>
      cases h
      exact ⟨.refl _ _ _ _, [], rfl, rfl, by simp⟩
  | cons id ids ih =>
      obtain ⟨report₁, v, hslot, hrest⟩ := Action.exec_bind_eq_ok.mp h
      obtain ⟨o, hsynced, hreport₁⟩ := syncSlot_eq_ok hslot
      have hframe := hsynced.frame hp
      -- New localizations have later numbers, so the rest of the list stays in range.
      have hids' : ∀ k ∈ ids, k < w.localizations.size := fun k hk => hids k (by simp [hk])
      obtain ⟨hafter, outcomes, hlength, hreport, hpassages⟩ :=
        ih (fun k hk => Nat.lt_of_lt_of_le (hids' k hk) hframe.size) (by rwa [hframe.projects])
          hrest
      refine ⟨hframe.cons hafter, o :: outcomes, by simp [hlength], ?_, ?_⟩
      · rw [hreport, codes_eq_of_frame hframe hids', hreport₁]
        rfl
      · intro i k o' hk ho'
        cases i with
        | zero =>
            obtain rfl : id = k := by simpa using hk
            obtain rfl : o = o' := by simpa using ho'
            rw [worldAt_succ hslot, worldAt_zero, worldAt_zero]
            exact ⟨.refl _ _ _ _, hsynced, hafter⟩
        | succ i =>
            rw [worldAt_succ hslot, worldAt_succ hslot]
            exact (hpassages i k o' (by simpa using hk) (by simpa using ho')).cons hframe

theorem worldAt_length (h : (syncSlots c report slot ids).exec w = (.ok report', w')) :
    worldAt c report slot ids w ids.length = w' := by
  rw [worldAt, List.take_length, h]

/-- Each slot of a run that does not end the build is brought up to date in the world in which the
slots before have left it. -/
theorem exec_slot_of_run (h : (syncSlots c report slot ids).exec w = (.ok report', w')) {i : Nat}
    (hi : ids[i]? = some id) :
    ∃ r r', (syncSlot c (slot + i) id r).exec (worldAt c report slot ids w i) =
      (.ok r', worldAt c report slot ids w (i + 1)) := by
  induction ids generalizing slot report w i with
  | nil => simp at hi
  | cons k ids ih =>
      obtain ⟨report₁, v, hslot, hrest⟩ := Action.exec_bind_eq_ok.mp h
      rw [worldAt_succ hslot]
      cases i with
      | zero =>
          obtain rfl : k = id := by simpa using hi
          exact ⟨report, report₁, hslot⟩
      | succ i =>
          rw [worldAt_succ hslot, show slot + (i + 1) = slot + 1 + i by omega]
          exact ih hrest (by simpa using hi)

/-- What holds at the beginning of a run and is kept by every slot holds all along. -/
theorem invariant_worldAt {I : World → Prop} (hw : I w)
    (hstep : ∀ {i id u v r r'}, ids[i]? = some id → I u →
      (syncSlot c (slot + i) id r).exec u = (.ok r', v) → I v)
    (h : (syncSlots c report slot ids).exec w = (.ok report', w')) {i : Nat}
    (hi : i ≤ ids.length) : I (worldAt c report slot ids w i) := by
  induction i with
  | zero => exact hw
  | succ i ih =>
      have hget := List.getElem?_eq_getElem (l := ids) hi
      obtain ⟨r, r', hslot⟩ := exec_slot_of_run h hget
      exact hstep hget (ih (by omega)) hslot

/-- A run ends the build only with a fault of a slot, in a world that the slots before may leave. -/
theorem endsIn_syncSlots {I : World → Prop} {P : Fault → Prop} (hw : I w)
    (hstep : ∀ {i id u} r, ids[i]? = some id → I u →
      Action.EndsIn I P (syncSlot c (slot + i) id r) u) :
    Action.EndsIn I P (syncSlots c report slot ids) w := by
  induction ids generalizing slot report w with
  | nil => exact hw
  | cons k ids ih =>
      refine (hstep (i := 0) report rfl hw).bind fun report₁ v hv => ih hv fun {i _ _} r hi hu => ?_
      rw [show slot + 1 + i = slot + (i + 1) by omega]
      exact hstep r (by simpa using hi) hu

/-! ## Reports -/

theorem status_syncSlots (h : (syncSlots c report slot ids).exec w = (.ok report', w')) :
    report'.status = report.status := by
  induction ids generalizing slot report w with
  | nil =>
      cases h
      rfl
  | cons id ids ih =>
      obtain ⟨report₁, v, hslot, hrest⟩ := Action.exec_bind_eq_ok.mp h
      obtain ⟨o, -, hreport₁⟩ := syncSlot_eq_ok hslot
      rw [ih hrest, hreport₁]
      cases o <;> rfl

/-- The codes of all skipped languages are noted, in their order and with repetitions. -/
theorem skipped_noteAll (outcomes : List (Value × Outcome)) (report : BuildReport) :
    (noteAll report outcomes).skipped =
      report.skipped ++ (outcomes.filter fun e => e.2.message?.isSome).map (·.1) := by
  induction outcomes generalizing report with
  | nil => simp [noteAll]
  | cons e outcomes ih =>
      obtain ⟨code, o⟩ := e
      change (noteAll (o.note code report) outcomes).skipped = _
      rw [ih]
      cases o <;> simp [Outcome.note, Outcome.message?, BuildReport.skip]

/-- The languages are noted by the codes that they have at the beginning. -/
theorem skipped_zip (code : LocalizationId → Value) (outcomes : List Outcome) :
    (noteAll {} ((ids.map code).zip outcomes)).skipped =
      ((ids.zip outcomes).filter fun e => e.2.message?.isSome).map fun e => code e.1 := by
  rw [skipped_noteAll, List.zip_map_left, List.filter_map, List.map_map]
  rfl

theorem warnings_noteAll (outcomes : List (Value × Outcome)) (report : BuildReport)
    (messages : List String) (h : report.warnings = messages.eraseDups) :
    (noteAll report outcomes).warnings =
      (messages ++ outcomes.filterMap fun e => e.2.message?).eraseDups := by
  induction outcomes generalizing report messages with
  | nil => simpa [noteAll] using h
  | cons e outcomes ih =>
      obtain ⟨code, o⟩ := e
      change (noteAll (o.note code report) outcomes).warnings = _
      cases o with
      | loaded => exact ih report messages h
      | rebuilt rows => exact ih report messages h
      | skipped message =>
          have hskip : (report.skip code message).warnings =
              (messages ++ [message]).eraseDups := by
            rw [BuildReport.skip, h, List.eraseDups_append]
            by_cases hmem : message ∈ messages <;>
              simp [hmem, List.removeAll, List.eraseDups_cons]
          rw [Outcome.note, ih _ _ hskip]
          simp [Outcome.message?]

theorem warnings_zip (codes : List Value) (outcomes : List Outcome)
    (h : outcomes.length ≤ codes.length) :
    (noteAll {} (codes.zip outcomes)).warnings =
      (outcomes.filterMap Outcome.message?).eraseDups := by
  have hsnd : (codes.zip outcomes).filterMap (fun e => e.2.message?) =
      outcomes.filterMap Outcome.message? := by
    conv => right; rw [← List.map_snd_zip h, List.filterMap_map]
    rfl
  rw [warnings_noteAll _ _ [] rfl, hsnd, List.nil_append]

end Run

end Dialogue.Build
