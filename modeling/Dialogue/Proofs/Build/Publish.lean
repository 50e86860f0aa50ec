import Mathlib.Data.List.TakeDrop
import Mathlib.Data.List.TakeWhile
import Dialogue.Proofs.Build.Input
import Dialogue.Proofs.Build.Languages
import Dialogue.Proofs.World.Sound

/-! What is written before any language is looked at: the program, the language of the base, and the
base itself in the list. The languages of that list are brought up to date after it. -/

namespace Dialogue.Build

/-! ## The base in the list -/

section RegisterBase

variable (base : LocalizationId) (ids : List LocalizationId)

/-- The base stands where it stood first, or at the end. -/
theorem registerBase_eq :
    registerBase base ids =
      ids.takeWhile (· ≠ base) ++ base :: (ids.dropWhile (· ≠ base)).filter (· ≠ base) := by
  rw [registerBase, List.span_eq_takeWhile_dropWhile]
  cases h : ids.dropWhile (· ≠ base) with
  | nil => rfl
  | cons k after =>
      have hk : k = base := by
        have hhead := List.head_dropWhile_not (l := ids) (· ≠ base) (by rw [h]; simp)
        simpa only [h, List.head_cons, decide_eq_false_iff_not, not_not] using hhead
      simp [hk]

theorem not_mem_takeWhile_ne : base ∉ ids.takeWhile (· ≠ base) := by
  intro hmem
  simpa using List.mem_takeWhile_imp hmem

theorem count_registerBase : (registerBase base ids).count base = 1 := by
  have hbefore := List.count_eq_zero_of_not_mem (not_mem_takeWhile_ne base ids)
  have hafter : ((ids.dropWhile (· ≠ base)).filter (· ≠ base)).count base = 0 :=
    List.count_eq_zero_of_not_mem (by simp)
  rw [registerBase_eq, List.count_append, List.count_cons_self, hbefore, hafter]

/-- The first place of the base, which is the length of a list without it. -/
theorem length_takeWhile_ne : (ids.takeWhile (· ≠ base)).length = ids.idxOf base := by
  induction ids with
  | nil => rfl
  | cons k ids ih =>
      by_cases hk : k = base
      · simp [hk]
      · rw [List.takeWhile_cons_of_pos (by simpa using hk), List.length_cons, ih,
          List.idxOf_cons, beq_false_of_ne hk, cond_false]

theorem idxOf_registerBase : (registerBase base ids).idxOf base = ids.idxOf base := by
  rw [registerBase_eq, List.idxOf_append, if_neg (not_mem_takeWhile_ne base ids),
    List.idxOf_cons_self, Nat.zero_add, length_takeWhile_ne]

theorem filter_registerBase :
    (registerBase base ids).filter (· ≠ base) = ids.filter (· ≠ base) := by
  have hbefore : (ids.takeWhile (· ≠ base)).filter (· ≠ base) = ids.takeWhile (· ≠ base) :=
    List.filter_eq_self.mpr fun k hk => by simpa using List.mem_takeWhile_imp hk
  rw [registerBase_eq, List.filter_append, hbefore, List.filter_cons_of_neg (by simp),
    List.filter_filter]
  conv => right; rw [← List.takeWhile_append_dropWhile (p := (· ≠ base)) (l := ids),
    List.filter_append, hbefore]
  simp

theorem registerBase_of_count {base : LocalizationId} {ids : List LocalizationId}
    (h : ids.count base = 1) : registerBase base ids = ids := by
  have hsplit := List.takeWhile_append_dropWhile (p := (· ≠ base)) (l := ids)
  have hbefore := List.count_eq_zero_of_not_mem (not_mem_takeWhile_ne base ids)
  rw [registerBase_eq]
  cases hafter : ids.dropWhile (· ≠ base) with
  | nil =>
      rw [hafter, List.append_nil] at hsplit
      rw [hsplit] at hbefore
      omega
  | cons k after =>
      have hk : k = base := by
        have hhead := List.head_dropWhile_not (l := ids) (· ≠ base) (by rw [hafter]; simp)
        simpa only [hafter, List.head_cons, decide_eq_false_iff_not, not_not] using hhead
      subst hk
      rw [hafter] at hsplit
      have hcount : after.count k = 0 := by
        rw [← hsplit, List.count_append, hbefore, List.count_cons_self] at h
        omega
      have hrest : after.filter (· ≠ k) = after :=
        List.filter_eq_self.mpr fun j hj => by
          have hne : j ≠ k := fun hjk => List.count_eq_zero.mp hcount (hjk ▸ hj)
          simpa using hne
      rw [List.filter_cons_of_neg (by simp), hrest, hsplit]

theorem mem_registerBase {k : LocalizationId} (h : k ∈ registerBase base ids) :
    k = base ∨ k ∈ ids := by
  by_cases hk : k = base
  · exact .inl hk
  · have hfilter : k ∈ (registerBase base ids).filter (· ≠ base) := by simp [h, hk]
    rw [filter_registerBase] at hfilter
    exact .inr (List.mem_filter.mp hfilter).1

end RegisterBase

/-! ## The world with the base registered -/

def registered (id : ProjectId) (base : LocalizationId) (blob : Bytes) (w : World) : World :=
  (w.setLocalization base
    { w.localization base with localeCode := (w.project id).baseLanguage }).setProject id
    { (w.project id).setBlob (some blob) with
      localizations := registerBase base (w.project id).localizations }

section Registered

variable {id : ProjectId} {base : LocalizationId} {blob : Bytes} {w : World}

theorem project_registered (hp : id < w.projects.size) :
    (registered id base blob w).project id =
      { (w.project id).setBlob (some blob) with
        localizations := registerBase base (w.project id).localizations } :=
  World.project_setProject_self _ hp _

@[simp] theorem size_projects_registered :
    (registered id base blob w).projects.size = w.projects.size := by
  simp [registered, World.setProject]

@[simp] theorem size_registered :
    (registered id base blob w).localizations.size = w.localizations.size := by
  simp [registered]

theorem localization_registered_self (hbase : base < w.localizations.size) :
    (registered id base blob w).localization base =
      { w.localization base with localeCode := (w.project id).baseLanguage } :=
  w.localization_setLocalization_self hbase _

theorem localization_registered_of_ne {k : LocalizationId} (hk : k ≠ base) :
    (registered id base blob w).localization k = w.localization k :=
  w.localization_setLocalization_of_ne hk _

end Registered

/-- A project with a base is one of those there are. -/
theorem lt_size_of_base {id : ProjectId} {base : LocalizationId} {w : World}
    (h : (w.project id).base = some base) :
    id < w.projects.size := by
  refine Nat.lt_of_not_le fun hle => ?_
  rw [w.project_of_size_le hle] at h
  cases h

def context (config : Config) (id : ProjectId) (base : LocalizationId) (blob : Bytes)
    (entries : List StringTable.Entry) (w : World) : Context :=
  ⟨config, id, (registered id base blob w).project id, base, entries⟩

/-! ## Soundness -/

section Sound

variable {id : ProjectId} {base : LocalizationId} {w v : World}

theorem sound_registered (h : w.Sound) (hbase : (w.project id).base = some base) (blob : Bytes) :
    (registered id base blob w).Sound := by
  have hlt := h.base id base hbase
  refine h.mono (Nat.le_of_eq size_registered.symm) (fun k => ?_) fun k => ?_
  · by_cases hk : k = id
    · rw [hk, project_registered (lt_size_of_base hbase), size_registered]
      refine ⟨rfl, rfl, fun j hj => ?_⟩
      rcases mem_registerBase base _ hj with rfl | hj
      · exact .inr hlt
      · exact .inl hj
    · have hproject : (registered id base blob w).project k = w.project k :=
        World.project_setProject_of_ne _ hk _
      rw [hproject]
      exact ⟨rfl, rfl, fun _ => .inl⟩
  · by_cases hk : k = base
    · rw [hk, localization_registered_self hlt]
      exact h.assets base
    · rw [localization_registered_of_ne hk]
      exact h.assets k

theorem sound_of_recorded (h : w.Sound) {k : LocalizationId} (hrecorded : w.Recorded k v) :
    v.Sound := by
  refine h.mono (Nat.le_of_eq hrecorded.size.symm) (fun j => ?_) fun j => ?_
  · rw [World.project, hrecorded.projects]
    exact ⟨rfl, rfl, fun _ => .inl⟩
  · by_cases hj : j = k
    · rw [hj, hrecorded.self.assets]
      exact h.assets k
    · rw [hrecorded.other j hj]
      exact h.assets j

theorem sound_of_persisted (h : w.Sound) {k : LocalizationId} {lines : List (Scalar × Value)}
    (hk : k < w.localizations.size)
    (hpersisted : (w.setLocalization k (w.localization k).clear).Persisted k lines v) :
    v.Sound := by
  refine h.mono (by rw [hpersisted.size, World.size_setLocalization]) (fun j => ?_) fun j => ?_
  · rw [World.project, hpersisted.projects]
    exact ⟨rfl, rfl, fun _ => .inl⟩
  · by_cases hj : j = k
    · rw [hj, hpersisted.self, w.localization_setLocalization_self hk]
      exact List.Pairwise.nil
    · rw [hpersisted.other j hj, w.localization_setLocalization_of_ne hj]
      exact h.assets j

/-- The new localization is the only one that comes to be listed, and a project that there is not
remains the empty one. -/
theorem listed_replaced (c : Context) (slot : Nat) (l : Localization) (w : World) (id : ProjectId) :
    ((replaced c slot l w).project id).base = (w.project id).base ∧
      ((replaced c slot l w).project id).baseLanguage = (w.project id).baseLanguage ∧
      ∀ k ∈ ((replaced c slot l w).project id).localizations,
        k ∈ (w.project id).localizations ∨ k = w.localizations.size := by
  by_cases hid : id = c.projectId
  · subst hid
    by_cases hp : c.projectId < w.projects.size
    · rw [project_replaced c slot _ hp]
      exact ⟨rfl, rfl, fun _ hk => List.mem_or_eq_of_mem_set hk⟩
    · have hempty : (replaced c slot l w).project c.projectId = w.project c.projectId := by
        rw [World.project_of_size_le _ (by simpa using hp),
          World.project_of_size_le _ (by simpa using hp)]
      rw [hempty]
      exact ⟨rfl, rfl, fun _ => .inl⟩
  · have hother : (replaced c slot l w).project id = w.project id :=
      World.project_setProject_of_ne _ hid _
    rw [hother]
    exact ⟨rfl, rfl, fun _ => .inl⟩

theorem sound_replaced (h : w.Sound) {l : Localization} (hassets : l.assets.Distinct)
    (c : Context) (slot : Nat) : (replaced c slot l w).Sound := by
  refine h.mono (by simp) (fun k => ?_) fun k => ?_
  · obtain ⟨hbase, hlanguage, hlisted⟩ := listed_replaced c slot l w k
    exact ⟨hbase, hlanguage, fun j hj => (hlisted j hj).imp_right fun hnew => by simp [hnew]⟩
  · rcases Nat.lt_trichotomy k w.localizations.size with hlt | rfl | hgt
    · rw [localization_replaced_of_lt c slot _ hlt]
      exact h.assets k
    · rw [localization_replaced_new]
      exact hassets
    · rw [World.localization_of_size_le _ (by simpa [Nat.succ_le_iff] using hgt)]
      exact List.Pairwise.nil

theorem Synced.sound {c : Context} {slot : Nat} {k : LocalizationId} {o : Outcome}
    (hsynced : Synced c slot k w o v) (h : w.Sound) : v.Sound := by
  cases hsynced with
  | skipped _ kept => exact sound_of_recorded h kept
  | loaded _ code _ persisted _ => exact sound_of_persisted h (lt_size_of_truthy code) persisted
  | @rebuilt rows u _ _ recorded _ =>
      have hu := sound_of_recorded h recorded
      refine sound_replaced hu ?_ c slot
      rw [rebuilt_of_distinct (hu.assets k)]
      exact hu.assets k

theorem sound_of_run {c : Context} {ids : List LocalizationId} {report : BuildReport}
    (hw : w.Sound) (h : (syncSlots c {} 0 ids).exec w = (.ok report, v)) : v.Sound := by
  have hend := invariant_worldAt hw (fun _ hu hslot => by
    obtain ⟨o, hsynced, -⟩ := syncSlot_eq_ok hslot
    exact hsynced.sound hu) h (Nat.le_refl _)
  rwa [worldAt_length h] at hend

end Sound

section Publish

variable {config : Config} {id : ProjectId} {c : Compilation} {blob : Bytes} {w w' : World}
  {report : BuildReport}

/-- The three writes that come before the languages. -/
theorem registered_eq (hp : id < w.projects.size) (base : LocalizationId) (blob : Bytes) :
    let stored := w.setProject id ((w.project id).setBlob (some blob))
    let coded := stored.setLocalization base
      { stored.localization base with localeCode := (stored.project id).baseLanguage }
    coded.setProject id { coded.project id with
      localizations := registerBase base (coded.project id).localizations } =
      registered id base blob w := by
  intro stored coded
  have hstored : stored.project id = (w.project id).setBlob (some blob) :=
    w.project_setProject_self hp _
  have hcoded : coded.project id = (w.project id).setBlob (some blob) := hstored
  simp only [hcoded]
  simp only [coded, hstored]
  simp only [stored]
  rw [World.setLocalization_setProject, World.setProject_setProject]
  rfl

/-- The program and the base are written first, and then the languages are brought up to date, if
the lines of the compiler have entries. -/
theorem exec_publish {base : LocalizationId} (hbase : (w.project id).base = some base) :
    (publish config id c blob).exec w =
      match baseEntries (w.project id).baseLanguage config c.lines with
      | .error e => (.error e, registered id base blob w)
      | .ok entries => (syncSlots (context config id base blob entries w) {} 0
          (registerBase base (w.project id).localizations)).exec (registered id base blob w) := by
  have hp := lt_size_of_base hbase
  have hstored : (w.setProject id ((w.project id).setBlob (some blob))).project id =
      (w.project id).setBlob (some blob) := w.project_setProject_self hp _
  rw [publish, Action.exec_bind_of_ok (Action.exec_updateProject _ _ _),
    Action.exec_bind_of_ok (Action.exec_project _ _)]
  split
  · rename_i hnone
    rw [hstored] at hnone
    simp [Project.setBlob, hbase] at hnone
  · rename_i base' hsome
    rw [hstored] at hsome
    obtain rfl : base = base' := by simpa [Project.setBlob, hbase] using hsome
    rw [Action.exec_bind_of_ok (Action.exec_updateLocalization _ _ _),
      Action.exec_bind_of_ok (Action.exec_updateProject _ _ _), registered_eq hp base blob,
      Action.exec_bind_of_ok (Action.exec_project _ _), Action.exec_bind, Action.exec_ofExcept]
    simp only [context, project_registered hp, Project.setBlob]
    cases baseEntries (w.project id).baseLanguage config c.lines <;> rfl

theorem exec_publish_of_none (hbase : (w.project id).base = none) :
    ∃ v, (publish config id c blob).exec w = (.error .noOperation, v) := by
  have hstored : ((w.setProject id ((w.project id).setBlob (some blob))).project id).base =
    none := by
    by_cases hp : id < w.projects.size
    · rw [w.project_setProject_self hp, Project.setBlob, hbase]
    · rw [World.project_of_size_le]
      rw [World.size_setProject]
      exact Nat.le_of_not_lt hp
  rw [publish, Action.exec_bind_of_ok (Action.exec_updateProject _ _ _),
    Action.exec_bind_of_ok (Action.exec_project _ _), hstored]
  exact ⟨_, rfl⟩

/-- What is published is the base with the entries of the compiler's lines, and then the languages
of the list. -/
theorem publish_eq_ok (h : (publish config id c blob).exec w = (.ok report, w')) :
    ∃ base entries, (w.project id).base = some base ∧
      baseEntries (w.project id).baseLanguage config c.lines = .ok entries ∧
      (syncSlots (context config id base blob entries w) {} 0
        (registerBase base (w.project id).localizations)).exec (registered id base blob w) =
        (.ok report, w') := by
  cases hbase : (w.project id).base with
  | none =>
      obtain ⟨v, hnone⟩ : ∃ v, (publish config id c blob).exec w = (.error .noOperation, v) :=
        exec_publish_of_none hbase
      rw [h] at hnone
      cases hnone
  | some base =>
      rw [exec_publish hbase] at h
      cases hentries : baseEntries (w.project id).baseLanguage config c.lines with
      | error e =>
          rw [hentries] at h
          cases h
      | ok entries =>
          rw [hentries] at h
          exact ⟨base, entries, rfl, rfl, h⟩

theorem status_publish (h : (publish config id c blob).exec w = (.ok report, w')) :
    report.status = .ok := by
  obtain ⟨base, entries, -, -, hslots⟩ := publish_eq_ok h
  exact status_syncSlots hslots

end Publish

/-! ## Builds that succeed -/

/-- How a build that reports success has gone: its compile stage has ended in `u`, where it has come
to a compilation and the bytes of its program, and the languages have been left in `v`. -/
structure Published (compiler : Compiler) (config : Config) (id : ProjectId) (w : World)
    (report : BuildReport) (w' : World) (c : Compilation) (blob : Bytes) (base : LocalizationId)
    (entries : List StringTable.Entry) (u v : World) : Prop where
  compiled : Stage.exec (compile compiler config ((w.setBuilding id true).project id))
    (w.setBuilding id true) = (.ok (.ok (c, blob)), u)
  hasBase : (u.project id).base = some base
  baseRows : baseEntries (u.project id).baseLanguage config c.lines = .ok entries
  languages : (syncSlots (context config id base blob entries u) {} 0
    (registerBase base (u.project id).localizations)).exec (registered id base blob u) =
    (.ok report, v)
  final : w' = v.setBuilding id false

theorem published_of_build {compiler : Compiler} {config : Config} {id : ProjectId} {w w' : World}
    {report : BuildReport} (h : (build compiler config (some id)).exec w = (.ok report, w'))
    (hok : report.status = .ok) :
    ∃ c blob base entries u v,
      Published compiler config id w report w' c blob base entries u v := by
  rcases build_eq_ok h with ⟨e, rfl, -⟩ | ⟨-, -, v, hrun, hfinal⟩
  · cases hok
  · rcases run_eq_ok hrun with ⟨r, hrejected, rfl⟩ | ⟨c, blob, u, hcompiled, hpublish⟩
    · have hkeeps : ∀ job, (compiler job).Keeps fun _ => True := fun _ _ _ => trivial
      have hharmless := harmless_compile Action.ignoresLog_true hkeeps config
        ((w.setBuilding id true).project id) (w.setBuilding id true) trivial
      rw [hrejected] at hharmless
      exact absurd hok (hharmless.2 r rfl)
    · obtain ⟨base, entries, hbase, hentries, hslots⟩ := publish_eq_ok hpublish
      exact ⟨c, blob, base, entries, u, v, hcompiled, hbase, hentries, hslots, hfinal⟩

section Published

variable {compiler : Compiler} {config : Config} {id : ProjectId} {w w' u v : World}
  {report : BuildReport} {c : Compilation} {blob : Bytes} {base : LocalizationId}
  {entries : List StringTable.Entry}

theorem Published.sound (h : Published compiler config id w report w' c blob base entries u v)
    (hw : w.Sound) (hc : ∀ job, (compiler job).Keeps World.Sound) : u.Sound := by
  have hmarked : (w.setBuilding id true).Sound :=
    hw.of_projects rfl fun k => by
      obtain ⟨b, hb⟩ := w.project_setBuilding_eq id true k
      simp [hb]
  have hharmless := harmless_compile Action.ignoresLog_sound hc config
    ((w.setBuilding id true).project id) (w.setBuilding id true) hmarked
  rw [h.compiled] at hharmless
  exact hharmless.1

end Published

theorem build_bilingual :
    ∃ report w', (build (.returning .greeting) {} (some 0)).exec World.bilingual =
      (.ok report, w') ∧ report.status = .ok :=
  Action.exec_eq_ok_of_map (f := BuildReport.status) (by decide +kernel)

end Dialogue.Build
