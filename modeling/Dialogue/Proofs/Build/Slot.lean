import Dialogue.Proofs.Build.Loading
import Dialogue.Proofs.World.Listeners

/-! What becomes of the localization in one slot of a project's list: it is loaded from the
compiler's lines, or rebuilt from its table, or skipped. All else stays as it is. -/

namespace Dialogue.Build

inductive Outcome where
  | loaded
  | rebuilt (rows : List StringTable.Entry)
  | skipped (message : String)

namespace Outcome

def message? : Outcome → Option String
  | .skipped message => some message
  | _ => none

def note (code : Value) (report : BuildReport) : Outcome → BuildReport
  | .skipped message => report.skip code message
  | _ => report

end Outcome

variable (c : Context) (slot : Nat) (id : LocalizationId)

def announced (w : World) : World :=
  w.logged .info ("Generating string file for language " ++ (w.localization id).localeCode.display)

def replaced (l : Localization) (w : World) : World :=
  (w.addLocalization l).setProject c.projectId { w.project c.projectId with
    localizations := (w.project c.projectId).localizations.set slot w.localizations.size }

/-- Why a language is skipped, and the message that says so. -/
inductive SkipReason (w : World) : String → Prop
  | noCode (code : (w.localization id).localeCode.truthy = false) :
      SkipReason w (noCodeMessage c.project)
  | duplicate (code : (w.localization id).localeCode.truthy = true)
      (same : (w.localization id).localeCode.same c.project.baseLanguage = true)
      (other : id ≠ c.base) :
      SkipReason w (duplicateMessage c.project (w.localization id).localeCode)
  | unread (code : (w.localization id).localeCode.truthy = true)
      (foreign : (w.localization id).localeCode.same c.project.baseLanguage = false)
      {fault : Fault} {message : String}
      (load : ((loadTable c.config c.project id c.entries).exec (announced id w)).1 = .error fault)
      (skips : skipMessage? c.project (w.localization id).localeCode fault = some message) :
      SkipReason w message

/-- A slot that is brought up to date, with its outcome and the world that is left. -/
inductive Synced (w : World) : Outcome → World → Prop
  | skipped {message : String} {v : World} (reason : SkipReason c id w message)
      (kept : w.Recorded id v) : Synced w (.skipped message) v
  | loaded {v : World} (isBase : id = c.base)
      (code : (w.localization id).localeCode.truthy = true)
      (same : (w.localization id).localeCode.same c.project.baseLanguage = true)
      (persisted : (w.setLocalization id (w.localization id).clear).Persisted id
        (textsOf c.entries) v)
      (heard : (∀ l ∈ (w.localization id).listeners, l.reaction = .nothing) →
        (v.localization id).runtime = [] ∧ v.journal.events = w.journal.events ++
          (textsOf c.entries).flatMap fun _ => (w.localization id).listeners.map fun l => (l, id)) :
      Synced w .loaded v
  | rebuilt {rows : List StringTable.Entry} {u : World}
      (code : (w.localization id).localeCode.truthy = true)
      (foreign : (w.localization id).localeCode.same c.project.baseLanguage = false)
      (recorded : w.Recorded id u)
      (load : recordedRows c.config id u = .ok rows) :
      Synced w (.rebuilt rows) (replaced c slot (rebuilt (u.localization id) rows) u)

/-! ## New localizations in place of old ones -/

section Replaced

variable (l : Localization) {w : World}

theorem project_replaced (hp : c.projectId < w.projects.size) :
    (replaced c slot l w).project c.projectId = { w.project c.projectId with
      localizations := (w.project c.projectId).localizations.set slot w.localizations.size } :=
  World.project_setProject_self _ hp _

@[simp] theorem size_projects_replaced : (replaced c slot l w).projects.size = w.projects.size :=
  World.size_setProject _ _ _

@[simp] theorem size_replaced :
    (replaced c slot l w).localizations.size = w.localizations.size + 1 :=
  w.size_addLocalization l

theorem localization_replaced_new :
    (replaced c slot l w).localization w.localizations.size = l :=
  w.localization_addLocalization_size l

theorem localization_replaced_of_lt {k : LocalizationId} (hk : k < w.localizations.size) :
    (replaced c slot l w).localization k = w.localization k :=
  w.localization_addLocalization_of_lt hk l

theorem recordedRows_replaced (config : Config) {k : LocalizationId}
    (hk : k < w.localizations.size) :
    recordedRows config k (replaced c slot l w) = recordedRows config k w := by
  rw [recordedRows, localization_replaced_of_lt c slot l hk]
  rfl

end Replaced

/-! ## The step -/

section Cases

variable (report : BuildReport) {w : World}

theorem exec_syncSlot_of_noCode (hcode : (w.localization id).localeCode.truthy = false) :
    (syncSlot c slot id report).exec w =
      (skip report (w.localization id).localeCode (noCodeMessage c.project)).exec w := by
  rw [syncSlot, Action.exec_bind_of_ok (Action.exec_localization w id)]
  simp only [hcode, Bool.not_false, if_true]

section Announced

variable (hcode : (w.localization id).localeCode.truthy = true)

include hcode

/-- From here on the world differs from the first one by a line of the log. -/
theorem exec_syncSlot_of_duplicate
    (hsame : (w.localization id).localeCode.same c.project.baseLanguage = true)
    (hother : id ≠ c.base) :
    (syncSlot c slot id report).exec w =
      (skip report (w.localization id).localeCode
        (duplicateMessage c.project (w.localization id).localeCode)).exec (announced id w) := by
  rw [syncSlot, Action.exec_bind_of_ok (Action.exec_localization w id)]
  simp only [hcode, Bool.not_true, Bool.false_eq_true, if_false]
  rw [Action.exec_bind_of_ok (Action.exec_log _ _ _)]
  simp only [hsame, if_true, if_pos hother]
  rfl

theorem exec_syncSlot_of_base
    (hsame : (w.localization id).localeCode.same c.project.baseLanguage = true)
    (hbase : id = c.base) :
    (syncSlot c slot id report).exec w = Action.exec (do
      Action.updateLocalization id Localization.clear
      Action.persistTexts id (textsOf c.entries)
      return report) (announced id w) := by
  rw [syncSlot, Action.exec_bind_of_ok (Action.exec_localization w id)]
  simp only [hcode, Bool.not_true, Bool.false_eq_true, if_false]
  rw [Action.exec_bind_of_ok (Action.exec_log _ _ _)]
  simp only [hsame, if_true]
  rw [if_neg fun hne => hne hbase]
  rfl

theorem exec_syncSlot_of_foreign
    (hforeign : (w.localization id).localeCode.same c.project.baseLanguage = false) :
    (syncSlot c slot id report).exec w =
      match (loadTable c.config c.project id c.entries).exec (announced id w) with
      | (.error fault, u) =>
        match skipMessage? c.project (w.localization id).localeCode fault with
        | some message => (skip report (w.localization id).localeCode message).exec u
        | none => (.error fault, u)
      | (.ok rows, u) => (.ok report, replaced c slot (rebuilt (u.localization id) rows) u) := by
  rw [syncSlot, Action.exec_bind_of_ok (Action.exec_localization w id)]
  simp only [hcode, Bool.not_true, Bool.false_eq_true, if_false]
  rw [Action.exec_bind_of_ok (Action.exec_log _ _ _)]
  change Action.exec _ (announced id w) = _
  simp only [hforeign, Bool.false_eq_true, if_false]
  rw [Action.exec_bind_of_ok (Action.exec_attempt _ _)]
  rcases (loadTable c.config c.project id c.entries).exec (announced id w) with ⟨fault | rows, u⟩
  · dsimp only
    cases skipMessage? c.project (w.localization id).localeCode fault <;> rfl
  · rfl

end Announced

end Cases

section Step

variable {c slot id} {w v : World} {report report' : BuildReport}

theorem skip_eq_ok {code : Value} {message : String}
    (h : (skip report code message).exec w = (.ok report', v)) :
    report' = report.skip code message ∧ w.SameStore v := by
  rw [skip, Action.exec_bind_of_ok (Action.exec_log _ _ _)] at h
  obtain ⟨hreport, rfl⟩ := Prod.mk.inj h
  exact ⟨(Except.ok.inj hreport).symm, .logged w _ _⟩

theorem recorded_announced (id : LocalizationId) (w : World) :
    w.Recorded id (announced id w) :=
  .of_sameStore (.logged w _ _)

/-- The base is emptied and filled with the texts of the compiler. -/
theorem loadBase_eq_ok {lines : List (Scalar × Value)} (hid : id < w.localizations.size)
    (h : Action.exec (do
      Action.updateLocalization id Localization.clear
      Action.persistTexts id lines
      return report) w = (.ok report', v)) :
    report' = report ∧ (w.setLocalization id (w.localization id).clear).Persisted id lines v ∧
      ((∀ l ∈ (w.localization id).listeners, l.reaction = .nothing) →
        (v.localization id).runtime = [] ∧ v.journal.events = w.journal.events ++
          lines.flatMap fun _ => (w.localization id).listeners.map fun l => (l, id)) := by
  rw [Action.exec_bind_of_ok (Action.exec_updateLocalization _ _ _)] at h
  obtain ⟨_, u, hlines, hreturn⟩ := Action.exec_bind_eq_ok.mp h
  obtain ⟨hreport, rfl⟩ := Prod.mk.inj hreturn
  have hsize : id < (w.setLocalization id (w.localization id).clear).localizations.size := by
    rwa [w.size_setLocalization]
  have hclear : (w.setLocalization id (w.localization id).clear).localization id =
      (w.localization id).clear := w.localization_setLocalization_self hid _
  refine ⟨(Except.ok.inj hreport).symm, Action.persistTexts_eq_ok hsize hlines, fun hpassive => ?_⟩
  obtain ⟨u', hlines', hruntime, hevents⟩ :=
    Action.exec_persistTexts_of_passive lines hsize (by rw [hclear]; exact hpassive)
  rw [hlines] at hlines'
  obtain rfl := (Prod.mk.inj hlines').2
  rw [hclear] at hruntime hevents
  exact ⟨hruntime, hevents⟩

/-- A localization that has a code is one of those there are. -/
theorem lt_size_of_truthy (h : (w.localization id).localeCode.truthy = true) :
    id < w.localizations.size := by
  refine Nat.lt_of_not_le fun hle => ?_
  rw [w.localization_of_size_le hle] at h
  exact absurd h (by decide)

/-- A language other than the base is skipped for a reason, or what was read stands in its place. -/
theorem syncSlot_of_foreign_eq_ok (hcode : (w.localization id).localeCode.truthy = true)
    (hforeign : (w.localization id).localeCode.same c.project.baseLanguage = false)
    (h : (syncSlot c slot id report).exec w = (.ok report', v)) :
    ∃ o, Synced c slot id w o v ∧ report' = o.note (w.localization id).localeCode report := by
  rw [exec_syncSlot_of_foreign c slot id report hcode hforeign] at h
  rcases hload : (loadTable c.config c.project id c.entries).exec (announced id w) with ⟨result, u⟩
  obtain ⟨hu, hrows⟩ := loadTable_spec c.config c.project c.entries (w := announced id w)
    (lt_size_of_truthy hcode) hload
  have hrecorded : w.Recorded id u := (recorded_announced id w).trans hu
  rw [hload] at h
  cases result with
  | error fault =>
      dsimp only at h
      split at h
      · rename_i message hmessage
        obtain ⟨hreport, hsame⟩ := skip_eq_ok h
        exact ⟨_, .skipped (.unread hcode hforeign (by rw [hload]) hmessage)
          (hrecorded.trans (.of_sameStore hsame)), hreport⟩
      · cases h
  | ok rows =>
      obtain ⟨hreport, rfl⟩ := Prod.mk.inj h
      exact ⟨_, .rebuilt hcode hforeign hrecorded (hrows rows rfl), (Except.ok.inj hreport).symm⟩

/-- A slot of the list that does not end the build is brought up to date. -/
theorem syncSlot_eq_ok
    (h : (syncSlot c slot id report).exec w = (.ok report', v)) :
    ∃ o, Synced c slot id w o v ∧ report' = o.note (w.localization id).localeCode report := by
  cases hcode : (w.localization id).localeCode.truthy with
  | false =>
      rw [exec_syncSlot_of_noCode c slot id report hcode] at h
      obtain ⟨hreport, hsame⟩ := skip_eq_ok h
      exact ⟨_, .skipped (.noCode hcode) (.of_sameStore hsame), hreport⟩
  | true =>
      cases hlanguage : (w.localization id).localeCode.same c.project.baseLanguage with
      | true =>
          by_cases hbase : id = c.base
          · rw [exec_syncSlot_of_base c slot id report hcode hlanguage hbase] at h
            obtain ⟨hreport, hpersisted, hheard⟩ :=
              loadBase_eq_ok (w := announced id w) (lt_size_of_truthy hcode) h
            exact ⟨_, .loaded hbase hcode hlanguage ⟨hpersisted.projects,
              hpersisted.files, hpersisted.size, hpersisted.other, hpersisted.self⟩ hheard, hreport⟩
          · rw [exec_syncSlot_of_duplicate c slot id report hcode hlanguage hbase] at h
            obtain ⟨hreport, hsame⟩ := skip_eq_ok h
            exact ⟨_, .skipped (.duplicate hcode hlanguage hbase)
              ((recorded_announced id w).trans (.of_sameStore hsame)), hreport⟩
      | false => exact syncSlot_of_foreign_eq_ok hcode hlanguage h

/-! ## Listeners of the base -/

section Base

variable (hcode : (w.localization id).localeCode.truthy = true)
  (hsame : (w.localization id).localeCode.same c.project.baseLanguage = true)
  (hbase : id = c.base)

include hcode hsame hbase

/-- The base is brought up to date unless there are texts and one of its listeners fails. -/
theorem endsIn_syncSlot_of_base (slot : Nat) (report : BuildReport) :
    Action.EndsIn (Action.Left id w)
      (fun e => textsOf c.entries ≠ [] ∧ Action.FailureOf (w.localization id).listeners e)
      (syncSlot c slot id report) w := by
  have hid := lt_size_of_truthy hcode
  let cleared := (announced id w).setLocalization id (w.localization id).clear
  have hleft : Action.Left id w cleared := by
    refine ⟨World.size_setLocalization _ _ _, ?_⟩
    rw [World.localization_setLocalization_self (announced id w) hid]
    exact fun _ h => h
  rw [Action.EndsIn, exec_syncSlot_of_base c slot id report hcode hsame hbase,
    Action.exec_bind_of_ok (Action.exec_updateLocalization _ _ _)]
  change Action.EndsIn _ _ (do Action.persistTexts id (textsOf c.entries); return report) cleared
  by_cases hnil : textsOf c.entries = []
  · rw [hnil]
    exact hleft
  · refine Action.EndsIn.bind (I := Action.Left id w) ?_ fun _ _ hv => hv
    exact (Action.endsIn_persistTexts _ (by rwa [hleft.size])).mono (fun _ => hleft.trans)
      fun _ he => ⟨hnil, Action.FailureOf.mono hleft.listeners he⟩

theorem noFailure_of_base (htexts : textsOf c.entries ≠ [])
    (h : (syncSlot c slot id report).exec w = (.ok report', v)) :
    ∀ l ∈ (w.localization id).listeners, l.reaction ≠ .fail := by
  have hid := lt_size_of_truthy hcode
  rw [exec_syncSlot_of_base c slot id report hcode hsame hbase,
    Action.exec_bind_of_ok (Action.exec_updateLocalization _ _ _)] at h
  obtain ⟨_, u, hlines, -⟩ := Action.exec_bind_eq_ok.mp h
  have hsize : id < ((announced id w).setLocalization id
      ((announced id w).localization id).clear).localizations.size := by
    rwa [World.size_setLocalization]
  have hquiet := Action.noFailure_of_persistTexts hsize htexts hlines
  rwa [World.localization_setLocalization_self (announced id w) hid] at hquiet

end Base

end Step

end Dialogue.Build
