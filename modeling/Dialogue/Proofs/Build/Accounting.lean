import Dialogue.Proofs.Build.Publish

/-! Every slot of a list is accounted for in one way only: the base has been loaded, or a new
localization stands in the place of the old one, or the old one has been skipped. -/

namespace Dialogue

namespace Build

/-- A world in which the base of a project has been registered and no language looked at. -/
structure Registered (c : Context) (ids : List LocalizationId) (w : World) : Prop where
  project : c.projectId < w.projects.size
  list : (w.project c.projectId).localizations = ids
  listed : ∀ k ∈ ids, k < w.localizations.size
  once : ids.count c.base = 1
  code : (w.localization c.base).localeCode = c.project.baseLanguage
  language : c.project.baseLanguage.same c.project.baseLanguage = true
  assets : ∀ k, (w.localization k).assets.Distinct

theorem Registered.mem {c : Context} {ids : List LocalizationId} {w : World}
    (h : Registered c ids w) : c.base ∈ ids :=
  List.count_pos_iff.mp (by rw [h.once]; exact Nat.one_pos)

/-! ## The three kinds of slots -/

section Kinds

variable (c : Context) (ids : List LocalizationId) (w w' : World) (i : Nat) (k : LocalizationId)

/-- The base is loaded from the lines of the compiler. -/
structure Loaded : Prop where
  isBase : k = c.base
  slot : (w'.project c.projectId).localizations[i]? = some k
  language : c.project.baseLanguage.truthy = true
  texts : (w'.localization k).texts = Table.ofEntries (textsOf c.entries)
  assets : (w'.localization k).assets = []

/-- A new localization has been filled from the rows of a table and has taken the place of the old
one, which keeps its own tables. -/
structure Rebuilt (rows : List StringTable.Entry) (fresh : LocalizationId) : Prop where
  foreign : k ≠ c.base
  slot : (w'.project c.projectId).localizations[i]? = some fresh
  isNew : w.localizations.size ≤ fresh
  isThere : fresh < w'.localizations.size
  /-- The table is read when the languages before have been brought up to date. -/
  read : recordedRows c.config k (worldAt c {} 0 ids w (i + 1)) = .ok rows
  old : (w.localization k).Recorded (w'.localization k)
  renewed : w'.localization fresh = { w'.localization k with
    texts := (w'.localization fresh).texts
    runtime := []
    listeners := [] }
  lines : Table.keys (w'.localization fresh).texts =
    (rows.map StringTable.Entry.id).eraseDups.map fun s : String => Scalar.text s
  text : ∀ line : String, Table.lookup (w'.localization fresh).texts (.text line) =
    (rows.filter fun e => e.id = line).getLast?.map fun e => .text e.text

/-- A localization stays where it is, with its tables. -/
structure Skipped (message : String) : Prop where
  slot : (w'.project c.projectId).localizations[i]? = some k
  reason : SkipReason c k (worldAt c {} 0 ids w i) message
  old : (w.localization k).Recorded (w'.localization k)

/-- What has become of the slot at a place of the list. -/
inductive Accounted : Outcome → Prop
  | loaded (h : Loaded c w' i k) : Accounted .loaded
  | rebuilt {rows : List StringTable.Entry} (fresh : LocalizationId)
      (h : Rebuilt c ids w w' i k rows fresh) : Accounted (.rebuilt rows)
  | skipped {message : String} (h : Skipped c ids w w' i k message) :
      Accounted (.skipped message)

end Kinds

section Slots

variable {c : Context} {ids : List LocalizationId} {w w' : World} {i : Nat} {k : LocalizationId}
  {o o' : Outcome}

/-- There is one reason at most to skip a language. -/
theorem SkipReason.unique {m m' : String} (h : SkipReason c k w m) (h' : SkipReason c k w m') :
    m' = m := by
  cases h with
  | noCode hcode =>
      cases h' with
      | noCode => rfl
      | duplicate hcode' => simp [hcode] at hcode'
      | unread hcode' => simp [hcode] at hcode'
  | duplicate hcode hsame =>
      cases h' with
      | noCode hcode' => simp [hcode] at hcode'
      | duplicate => rfl
      | unread _ hforeign => simp [hsame] at hforeign
  | unread hcode hforeign hload hskips =>
      cases h' with
      | noCode hcode' => simp [hcode] at hcode'
      | duplicate _ hsame => simp [hforeign] at hsame
      | unread _ _ hload' hskips' =>
          rw [hload] at hload'
          obtain rfl := Except.error.inj hload'
          rw [hskips] at hskips'
          exact (Option.some.inj hskips').symm

theorem not_mem_of_count_eq_one {a : LocalizationId} (h : ids.count a = 1)
    (ha : ids[i]? = some a) : a ∉ ids.take i ∧ a ∉ ids.drop (i + 1) := by
  obtain ⟨hi, hget⟩ := List.getElem?_eq_some_iff.mp ha
  have hsplit : ids = ids.take i ++ a :: ids.drop (i + 1) := by
    rw [← hget, List.getElem_cons_drop, List.take_append_drop]
  rw [hsplit, List.count_append, List.count_cons_self] at h
  exact ⟨List.count_eq_zero.mp (by omega), List.count_eq_zero.mp (by omega)⟩

/-! ## Slots at the end of a run -/

section Passage

variable {u v : World} (hr : Registered c ids w) (hk : ids[i]? = some k)
  (h : Passage c 0 ids w w' i k o u v)

include hr hk h

theorem slot_before : (u.project c.projectId).localizations[i]? = some k := by
  have hi : (ids.take i).length ≤ i := by
    rw [List.length_take]
    omega
  rw [h.before.slots i (.inr (by omega)), hr.list, hk]

omit hr hk in
theorem slot_after :
    (w'.project c.projectId).localizations[i]? = (v.project c.projectId).localizations[i]? :=
  h.after.slots i (.inl (by omega))

theorem lt_size_before : k < u.localizations.size :=
  Nat.lt_of_lt_of_le (hr.listed k (List.mem_of_getElem? hk)) h.before.size

theorem recorded_before : (w.localization k).Recorded (u.localization k) := by
  refine h.before.recorded_of_not_mem (hr.listed k (List.mem_of_getElem? hk)) fun hbase => ?_
  subst hbase
  exact (not_mem_of_count_eq_one hr.once hk).1

theorem recorded_after : (v.localization k).Recorded (w'.localization k) := by
  have hframe := h.step.frame (by rw [h.before.projects]; exact hr.project)
  refine h.after.recorded_of_not_mem
    (Nat.lt_of_lt_of_le (lt_size_before hr hk h) hframe.size) fun hbase => ?_
  subst hbase
  exact (not_mem_of_count_eq_one hr.once hk).2

/-- The base has the code of the base language when it is its turn. -/
theorem code_before (hbase : k = c.base) :
    (u.localization k).localeCode = c.project.baseLanguage := by
  rw [(recorded_before hr hk h).localeCode, hbase, hr.code]

/-- Only the base has the code of the base language and is not skipped. -/
theorem ne_base_of_foreign
    (hforeign : (u.localization k).localeCode.same c.project.baseLanguage = false) :
    k ≠ c.base := by
  intro hbase
  rw [code_before hr hk h hbase, hr.language] at hforeign
  cases hforeign

end Passage

section Outcomes

variable {u v : World} (hr : Registered c ids w) (hk : ids[i]? = some k)

include hr hk

theorem skipped_of_passage {message : String}
    (h : Passage c 0 ids w w' i k (.skipped message) (worldAt c {} 0 ids w i) v) :
    Skipped c ids w w' i k message := by
  have hstep := h.step
  cases hstep with
  | skipped reason kept =>
      refine ⟨?_, reason, ?_⟩
      · rw [slot_after h, World.project, kept.projects]
        exact slot_before hr hk h
      · exact ((recorded_before hr hk h).trans kept.self).trans (recorded_after hr hk h)

/-- The base at the end of a run in which it is loaded. -/
theorem base_of_passage (h : Passage c 0 ids w w' i k .loaded u v) :
    w'.localization k = { w.localization k with
      stringFile := (w'.localization k).stringFile
      texts := Table.ofEntries (textsOf c.entries)
      assets := []
      runtime := (w'.localization k).runtime
      listeners := (w'.localization k).listeners } := by
  have hstep := h.step
  cases hstep with
  | loaded isBase code same persisted heard =>
      have hku := lt_size_before hr hk h
      have hfinal : w'.localization k = v.localization k := by
        refine h.after.untouched k (by rwa [persisted.size, World.size_setLocalization]) ?_
        subst isBase
        exact (not_mem_of_count_eq_one hr.once hk).2
      have hself := persisted.self
      rw [World.localization_setLocalization_self u hku, (recorded_before hr hk h).rest] at hself
      rw [hfinal, hself]
      rfl

theorem loaded_of_passage (h : Passage c 0 ids w w' i k .loaded u v) : Loaded c w' i k := by
  have hbase := base_of_passage hr hk h
  have hstep := h.step
  cases hstep with
  | loaded isBase code same persisted heard =>
      refine ⟨isBase, ?_, ?_, ?_, ?_⟩
      · rw [slot_after h, World.project, persisted.projects, World.projects_setLocalization]
        exact slot_before hr hk h
      · rwa [← code_before hr hk h isBase]
      · rw [hbase]
      · rw [hbase]

/-- The new localization and the old one at the end of a run. No later slot knows the new one, and
the path of the old one is on record. -/
theorem renewed_of_passage {rows : List StringTable.Entry} {u' : World}
    (h : Passage c 0 ids w w' i k o u (replaced c (0 + i) (rebuilt (u'.localization k) rows) u'))
    (recorded : u.Recorded k u') (load : recordedRows c.config k u' = .ok rows) :
    w'.localization k = u'.localization k ∧
      w'.localization u'.localizations.size = { u'.localization k with
        texts := Table.ofEntries (textsOf rows), runtime := [], listeners := [] } := by
  have hku : k < u'.localizations.size := by
    rw [recorded.size]
    exact lt_size_before hr hk h
  have hnew : u'.localizations.size ∉ ids.drop (i + 1) := by
    intro hmem
    have hlt := hr.listed _ (List.mem_of_mem_drop hmem)
    rw [recorded.size] at hlt
    exact Nat.not_le_of_lt hlt h.before.size
  have hassets : (u'.localization k).assets.Distinct := by
    rw [recorded.self.assets, (recorded_before hr hk h).assets]
    exact hr.assets k
  have hafter := recorded_after hr hk h
  rw [localization_replaced_of_lt c _ _ hku] at hafter
  refine ⟨hafter.eq_of_ne_null (stringFile_ne_null_of_recordedRows c.config load), ?_⟩
  rw [h.after.untouched _ (by simp) hnew, localization_replaced_new, rebuilt_of_distinct hassets]

/-- The new localization has the place of the old one in the list. -/
theorem slot_of_passage {rows : List StringTable.Entry} {u' : World}
    (h : Passage c 0 ids w w' i k o u (replaced c (0 + i) (rebuilt (u'.localization k) rows) u'))
    (recorded : u.Recorded k u') :
    (w'.project c.projectId).localizations[i]? = some u'.localizations.size := by
  have hproject : c.projectId < u'.projects.size := by
    rw [recorded.projects, h.before.projects]
    exact hr.project
  have hlength := List.getElem?_eq_some_iff.mp (slot_before hr hk h)
  rw [World.project, ← recorded.projects] at hlength
  rw [slot_after h, project_replaced c _ _ hproject, Nat.zero_add]
  exact List.getElem?_set_self hlength.1

theorem rebuilt_of_passage {rows : List StringTable.Entry}
    (h : Passage c 0 ids w w' i k (.rebuilt rows) u v)
    (hv : v = worldAt c {} 0 ids w (i + 1)) :
    ∃ fresh, Rebuilt c ids w w' i k rows fresh := by
  have hstep := h.step
  cases hstep with
  | @rebuilt _ u' code foreign recorded load =>
      have hku : k < u'.localizations.size := by
        rw [recorded.size]
        exact lt_size_before hr hk h
      obtain ⟨hold, hfresh⟩ := renewed_of_passage hr hk h recorded load
      refine ⟨u'.localizations.size, ?_⟩
      constructor
      case foreign => exact ne_base_of_foreign hr hk h foreign
      case slot => exact slot_of_passage hr hk h recorded
      case isNew =>
        rw [recorded.size]
        exact h.before.size
      case isThere => exact Nat.lt_of_lt_of_le (by simp) h.after.size
      case read => rw [← hv, recordedRows_replaced c _ _ _ hku, load]
      case old =>
        rw [hold]
        exact (recorded_before hr hk h).trans recorded.self
      case renewed => rw [hold, hfresh]
      case lines =>
        rw [hfresh]
        exact keys_textsOf rows
      case text =>
        intro line
        rw [hfresh]
        exact lookup_textsOf rows line

end Outcomes

theorem accounted_of_passage (hr : Registered c ids w) (hk : ids[i]? = some k)
    (h : Passage c 0 ids w w' i k o (worldAt c {} 0 ids w i) (worldAt c {} 0 ids w (i + 1))) :
    Accounted c ids w w' i k o := by
  cases o with
  | loaded => exact .loaded (loaded_of_passage hr hk h)
  | skipped message => exact .skipped (skipped_of_passage hr hk h)
  | rebuilt rows =>
      obtain ⟨fresh, hrebuilt⟩ := rebuilt_of_passage hr hk h rfl
      exact .rebuilt fresh hrebuilt

/-! ## One kind only -/

theorem Loaded.not_skipped {v : World} {message : String} (hl : Loaded c w' i k)
    (hr : Registered c ids w) (hk : ids[i]? = some k)
    (h : Passage c 0 ids w w' i k o (worldAt c {} 0 ids w i) v) :
    ¬ Skipped c ids w w' i k message := by
  intro hs
  have hcode := code_before hr hk h hl.isBase
  cases hs.reason with
  | noCode code =>
      rw [hcode, hl.language] at code
      cases code
  | duplicate _ _ other => exact other hl.isBase
  | unread _ foreign =>
      rw [hcode, hr.language] at foreign
      cases foreign

theorem Rebuilt.slot_ne {rows : List StringTable.Entry} {fresh : LocalizationId}
    (h : Rebuilt c ids w w' i k rows fresh) (hk : k < w.localizations.size) :
    (w'.project c.projectId).localizations[i]? ≠ some k := by
  intro hslot
  rw [h.slot] at hslot
  rw [← Option.some.inj hslot] at hk
  exact Nat.not_le_of_lt hk h.isNew

theorem Accounted.unique {v : World} (ho : Accounted c ids w w' i k o)
    (ho' : Accounted c ids w w' i k o') (hr : Registered c ids w) (hk : ids[i]? = some k)
    (h : Passage c 0 ids w w' i k o (worldAt c {} 0 ids w i) v) : o' = o := by
  have hkw := hr.listed k (List.mem_of_getElem? hk)
  cases ho with
  | loaded hl =>
      cases ho' with
      | loaded => rfl
      | rebuilt fresh hb => exact absurd hl.slot (hb.slot_ne hkw)
      | skipped hs => exact absurd hs (hl.not_skipped hr hk h)
  | rebuilt fresh hb =>
      cases ho' with
      | loaded hl => exact absurd hl.slot (hb.slot_ne hkw)
      | rebuilt fresh' hb' =>
          have hread := hb'.read
          rw [hb.read] at hread
          rw [Except.ok.inj hread]
      | skipped hs => exact absurd hs.slot (hb.slot_ne hkw)
  | skipped hs =>
      cases ho' with
      | loaded hl => exact absurd hs (hl.not_skipped hr hk h)
      | rebuilt fresh hb => exact absurd hs.slot (hb.slot_ne hkw)
      | skipped hs' => rw [hs.reason.unique hs'.reason]

end Slots

/-! ## Whole builds -/

section Published

variable {compiler : Compiler} {config : Config} {id : ProjectId} {w w' u v : World}
  {report : BuildReport} {c : Compilation} {blob : Bytes} {base : LocalizationId}
  {entries : List StringTable.Entry}

theorem isRegistered_registered (config : Config) (blob : Bytes) (entries : List StringTable.Entry)
    (hbase : (u.project id).base = some base) (hu : u.Sound) :
    Registered (context config id base blob entries u)
      (registerBase base (u.project id).localizations) (registered id base blob u) := by
  have hproject : (registered id base blob u).project id = _ :=
    project_registered (lt_size_of_base hbase)
  have hlt := hu.base id base hbase
  constructor
  case project =>
    rw [size_projects_registered]
    exact lt_size_of_base hbase
  case list => exact congrArg Project.localizations hproject
  case listed =>
    intro k hk
    rw [size_registered]
    rcases mem_registerBase base _ hk with rfl | hk
    · exact hlt
    · exact hu.listed id k hk
  case once => exact count_registerBase base _
  case code =>
    rw [context, localization_registered_self hlt, hproject]
    rfl
  case language =>
    rw [context, hproject]
    exact hu.language id
  case assets =>
    intro k
    by_cases hk : k = base
    · rw [hk, localization_registered_self hlt]
      exact hu.assets base
    · rw [localization_registered_of_ne hk]
      exact hu.assets k

theorem Published.isRegistered
    (h : Published compiler config id w report w' c blob base entries u v) (hu : u.Sound) :
    Registered (context config id base blob entries u)
      (registerBase base (u.project id).localizations) (registered id base blob u) :=
  isRegistered_registered config blob entries h.hasBase hu

/-- The languages of a published build, slot by slot. -/
theorem Published.passages
    (h : Published compiler config id w report w' c blob base entries u v) (hu : u.Sound) :
    let ctx := context config id base blob entries u
    let ids := registerBase base (u.project id).localizations
    let start := registered id base blob u
    Frame ctx 0 ids start w' ∧ ∃ outcomes : List Outcome, outcomes.length = ids.length ∧
      report = noteAll {} ((ids.map fun k => (start.localization k).localeCode).zip outcomes) ∧
      ∀ i k o, ids[i]? = some k → outcomes[i]? = some o →
        Passage ctx 0 ids start w' i k o (worldAt ctx {} 0 ids start i)
          (worldAt ctx {} 0 ids start (i + 1)) := by
  intro ctx ids start
  have hr := h.isRegistered hu
  obtain ⟨hframe, outcomes, hlength, hreport, hpassages⟩ :=
    syncSlots_eq_ok hr.listed hr.project h.languages
  rw [h.final]
  exact ⟨hframe.trans (.setBuilding ctx _ _ _ false), outcomes, hlength, hreport,
    fun i k o hk ho => (hpassages i k o hk ho).setBuilding false⟩

theorem Published.noted_of_accounted
    (h : Published compiler config id w report w' c blob base entries u v) (hu : u.Sound) {i : Nat}
    {k : LocalizationId} (hi : (registerBase base (u.project id).localizations)[i]? = some k)
    {message : String} (haccounted : Accounted (context config id base blob entries u)
      (registerBase base (u.project id).localizations) (registered id base blob u) w' i k
      (.skipped message)) :
    message ∈ report.warnings ∧
      ((registered id base blob u).localization k).localeCode ∈ report.skipped := by
  have hr := h.isRegistered hu
  obtain ⟨-, outcomes, hlength, hreport, hpassages⟩ := h.passages hu
  obtain ⟨hlt, -⟩ := List.getElem?_eq_some_iff.mp hi
  have ho := List.getElem?_eq_getElem (show i < outcomes.length by rwa [hlength])
  have hpassage := hpassages i k _ hi ho
  have hskipped := (accounted_of_passage hr hi hpassage).unique haccounted hr hi hpassage
  rw [← hskipped] at ho
  rw [hreport, warnings_zip _ _ (by simp [hlength]), skipped_zip]
  refine ⟨List.mem_eraseDups.mpr (List.mem_filterMap.mpr ⟨_, List.mem_of_getElem? ho, rfl⟩), ?_⟩
  refine List.mem_map.mpr ⟨(k, .skipped message), List.mem_filter.mpr ⟨?_, rfl⟩, rfl⟩
  exact List.mem_of_getElem? (List.getElem?_zip_eq_some.mpr ⟨hi, ho⟩)

end Published

end Build

/-- After a build that reports success every slot of the list with the base in it is accounted for
in exactly one way, and the report names the languages that were skipped. -/
theorem languages_accounted {compiler : Compiler} {config : Config} {id : ProjectId}
    {w w' : World} {report : BuildReport} (hw : w.Sound)
    (hc : ∀ job, (compiler job).Keeps World.Sound)
    (h : (build compiler config (some id)).exec w = (.ok report, w'))
    (hok : report.status = .ok) :
    ∃ c blob base entries u v,
      Build.Published compiler config id w report w' c blob base entries u v ∧
      let ctx := Build.context config id base blob entries u
      let ids := Build.registerBase base (u.project id).localizations
      let start := Build.registered id base blob u
      (w'.project id).localizations.length = ids.length ∧
      ∃ outcomes : List Build.Outcome, outcomes.length = ids.length ∧
        (∀ i k, ids[i]? = some k → ∀ o,
          Build.Accounted ctx ids start w' i k o ↔ outcomes[i]? = some o) ∧
        report.skipped = ((ids.zip outcomes).filter fun e => e.2.message?.isSome).map
          (fun e => (start.localization e.1).localeCode) ∧
        report.warnings = (outcomes.filterMap Build.Outcome.message?).eraseDups := by
  obtain ⟨c, blob, base, entries, u, v, hpublished⟩ := Build.published_of_build h hok
  have hu := hpublished.sound hw hc
  have hr := hpublished.isRegistered hu
  obtain ⟨hframe, outcomes, hlength, hreport, hpassages⟩ := hpublished.passages hu
  refine ⟨c, blob, base, entries, u, v, hpublished, ?_, outcomes, hlength, ?_, ?_, ?_⟩
  · rw [← hr.list]
    exact hframe.length
  · intro i k hk o
    have hi : i < outcomes.length := by
      rw [hlength]
      exact (List.getElem?_eq_some_iff.mp hk).1
    have hpassage := hpassages i k outcomes[i] hk (List.getElem?_eq_getElem hi)
    have haccounted := Build.accounted_of_passage hr hk hpassage
    rw [List.getElem?_eq_getElem hi, Option.some.injEq]
    constructor
    · exact fun ho => (haccounted.unique ho hr hk hpassage).symm
    · rintro rfl
      exact haccounted
  · rw [hreport]
    exact Build.skipped_zip _ outcomes
  · rw [hreport]
    exact Build.warnings_zip _ outcomes (by simp [hlength])

theorem languages_accounted_bilingual :
    ∃ report w' c blob base entries u v, ∃ outcomes : List Build.Outcome,
      (build (.returning .greeting) {} (some 0)).exec World.bilingual = (.ok report, w') ∧
      Build.Published (.returning .greeting) {} 0 World.bilingual report w' c blob base entries
        u v ∧
      let ctx := Build.context {} 0 base blob entries u
      let ids := Build.registerBase base (u.project 0).localizations
      let start := Build.registered 0 base blob u
      ids = [1, 0, 2] ∧ (w'.project 0).localizations.length = 3 ∧ outcomes.length = 3 ∧
      (∀ i k o, ids[i]? = some k → outcomes[i]? = some o →
        Build.Accounted ctx ids start w' i k o) ∧
      report.skipped.map Value.text? = [some ""] ∧
      report.skipped = ((ids.zip outcomes).filter fun e => e.2.message?.isSome).map
        (fun e => (start.localization e.1).localeCode) ∧
      report.warnings = (outcomes.filterMap Build.Outcome.message?).eraseDups := by
  obtain ⟨report, w', h, hreport⟩ := Action.exec_eq_ok_of_map
    (a := build (.returning .greeting) {} (some 0)) (w := World.bilingual)
    (f := fun report => (report.status, report.skipped.map Value.text?))
    (y := (.ok, [some ""])) (by decide +kernel)
  obtain ⟨hok, hcodes⟩ := Prod.mk.inj hreport
  obtain ⟨c, blob, base, entries, u, v, hpublished, hsize, outcomes, hlength, haccounted, hskipped,
    hwarnings⟩ := languages_accounted World.sound_bilingual (Compiler.keeps_returning _ _) h hok
  obtain ⟨job, w₁, output, -, hcall, hsame, -⟩ := Build.called_of_compiled hpublished.compiled
  cases hcall
  have hproject : u.project 0 = (World.bilingual.setBuilding 0 true).project 0 := hsame.project 0
  have hbase : base = 0 := by
    have hhas := hpublished.hasBase
    rw [hproject] at hhas
    exact (Option.some.inj hhas).symm
  have hids : Build.registerBase base (u.project 0).localizations = [1, 0, 2] := by
    rw [hproject, hbase]
    rfl
  rw [hids] at hsize hlength
  exact ⟨report, w', _, blob, base, entries, u, v, outcomes, h, hpublished, hids, hsize, hlength,
    fun i k o hi ho => (haccounted i k hi o).mpr ho, hcodes, hskipped, hwarnings⟩

end Dialogue
