import Mathlib.Data.List.Forall2
import Dialogue.Proofs.Build.Accounting

/-! What a build that reports success has made of the program and of the base localization, however
often the base was listed and whatever became of the other languages. -/

namespace Dialogue

namespace Build

/-! ## The base in the final list -/

section List

variable {base : LocalizationId} {ids ids' : List LocalizationId}

theorem count_eq_of_forall₂ (h : List.Forall₂ (fun k k' => k = base ↔ k' = base) ids ids') :
    ids'.count base = ids.count base := by
  induction h with
  | nil => rfl
  | cons hk _ ih => simp only [List.count_cons, ih, beq_iff_eq, hk]

theorem idxOf_eq_of_forall₂ (h : List.Forall₂ (fun k k' => k = base ↔ k' = base) ids ids') :
    ids'.idxOf base = ids.idxOf base := by
  induction h with
  | nil => rfl
  | @cons k k' _ _ hk _ ih =>
      by_cases hbase : k = base
      · simp [hbase, hk.mp hbase]
      · have hbase' : k' ≠ base := fun h' => hbase (hk.mpr h')
        rw [List.idxOf_cons, List.idxOf_cons, beq_false_of_ne hbase, beq_false_of_ne hbase',
          cond_false, cond_false, ih]

theorem idxOf?_eq_of_forall₂ {base' : LocalizationId}
    (h : List.Forall₂ (fun k k' => k = base ↔ k' = base') ids ids') :
    ids'.idxOf? base' = ids.idxOf? base := by
  induction h with
  | nil => rfl
  | @cons k k' _ _ hk _ ih =>
      have hbeq : (k' == base') = (k == base) := by
        rw [Bool.eq_iff_iff, beq_iff_eq, beq_iff_eq, hk]
      rw [List.idxOf?_cons, List.idxOf?_cons, ih, hbeq]

theorem exists_of_forall₂ {R : LocalizationId → LocalizationId → Prop} (h : List.Forall₂ R ids ids')
    {k' : LocalizationId} (hk' : k' ∈ ids') : ∃ k ∈ ids, R k k' := by
  induction h with
  | nil => cases hk'
  | cons hk _ ih =>
      rcases List.mem_cons.mp hk' with rfl | hrest
      · exact ⟨_, by simp, hk⟩
      · obtain ⟨j, hj, hjk⟩ := ih hrest
        exact ⟨j, by simp [hj], hjk⟩

theorem map_eq_of_forall₂ {α : Type} {f g : LocalizationId → α}
    (h : List.Forall₂ (fun k k' => g k' = f k) ids ids') : ids'.map g = ids.map f := by
  induction h with
  | nil => rfl
  | cons hk _ ih => rw [List.map_cons, List.map_cons, hk, ih]

end List

/-- What stands in the place of a localization: itself, or a new one for the same language. -/
def Succeeds (w w' : World) (k k' : LocalizationId) : Prop :=
  k' = k ∨ w.localizations.size ≤ k' ∧ k' < w'.localizations.size ∧
    (w'.localization k').localeCode = (w.localization k).localeCode

/-- The program and the base of a project in `w'`, when a compilation has been published in `w`. -/
structure BasePublished (id : ProjectId) (c : Compilation) (blob : Bytes) (base : LocalizationId)
    (w w' : World) : Prop where
  wasBase : (w.project id).base = some base
  isBase : (w'.project id).base = some base
  program : (w'.project id).blob = some blob
  localeCode : (w'.localization base).localeCode = (w'.project id).baseLanguage
  once : (w'.project id).localizations.count base = 1
  /-- The place of the base is that of its first occurrence, or the end. -/
  place : (w'.project id).localizations.idxOf base = (w.project id).localizations.idxOf base
  others : List.Forall₂ (Succeeds w w') ((w.project id).localizations.filter (· ≠ base))
    ((w'.project id).localizations.filter (· ≠ base))
  texts : (w'.project id).baseLanguage.truthy = true → c.lines.Distinct →
    (∀ e ∈ c.lines, ∃ line : String, e.1 = .text line) →
    (w'.localization base).texts = c.lines.map fun e => (e.1, .text e.2.text)
  assets : (w'.project id).baseLanguage.truthy = true → (w'.localization base).assets = []
  /-- Listeners that only listen have each heard of every line once, and of nothing else. -/
  heard : (w'.project id).baseLanguage.truthy = true →
    (∀ l ∈ (w.localization base).listeners, l.reaction = .nothing) →
    (w'.localization base).runtime = [] ∧
      w'.journal.events = w.journal.events ++
        c.lines.flatMap fun _ => (w.localization base).listeners.map fun l => (l, base)

theorem BasePublished.of_sameStore {id : ProjectId} {c : Compilation} {blob : Bytes}
    {base : LocalizationId} {w u w' : World} (hsame : w.SameStore u)
    (h : BasePublished id c blob base u w') : BasePublished id c blob base w w' := by
  obtain ⟨hwas, his, hprogram, hcode, honce, hplace, hothers, htexts, hassets, hheard⟩ := h
  rw [hsame.project] at hwas hplace hothers
  rw [hsame.localization, hsame.events] at hheard
  refine ⟨hwas, his, hprogram, hcode, honce, hplace, hothers.imp fun k k' hk => ?_, htexts,
    hassets, hheard⟩
  rwa [Succeeds, hsame.localizations, hsame.localization] at hk

/-! ## Entries of the compiler's lines -/

theorem exists_lockLength {v : Value} (h : Config.isLockLength v = true) :
    ∃ length, lockLength v = .ok length := by
  rw [Config.isLockLength] at h
  cases hint : v.int? with
  | none =>
      rw [hint] at h
      cases h
  | some n =>
      unfold Value.int? at hint
      split at hint
      · exact ⟨_, rfl⟩
      · exact ⟨_, rfl⟩
      · cases hint

/-- Every line has an entry, in the order of the lines. -/
theorem baseEntries_of_lockLength {config : Config} {length : Option Int}
    (h : lockLength config.lockLength = .ok length) (language : Value) (lines : Table Line) :
    baseEntries language config lines =
      .ok (lines.map fun e => baseEntry language length e.1 e.2) := by
  rw [baseEntries, h]
  cases lines <;> rfl

theorem textsOf_baseEntries {language : Value} {config : Config} {lines : Table Line}
    {entries : List StringTable.Entry} (h : baseEntries language config lines = .ok entries) :
    textsOf entries = lines.map fun e => (.text e.1.display, .text e.2.text) := by
  rw [baseEntries] at h
  split at h
  · rename_i hempty
    rw [← Except.ok.inj h, List.isEmpty_iff.mp hempty]
    rfl
  · cases hlength : lockLength config.lockLength with
    | error e =>
        rw [hlength] at h
        cases h
    | ok length =>
        rw [hlength] at h
        rw [← Except.ok.inj h, textsOf, List.map_map]
        rfl

/-- Lines with ids of their own become texts in their order. -/
theorem ofEntries_textsOf {language : Value} {config : Config} {lines : Table Line}
    {entries : List StringTable.Entry} (h : baseEntries language config lines = .ok entries)
    (hdistinct : lines.Distinct) (htext : ∀ e ∈ lines, ∃ line : String, e.1 = .text line) :
    Table.ofEntries (textsOf entries) = lines.map fun e => (e.1, .text e.2.text) := by
  have hmap : textsOf entries = lines.map fun e => (e.1, .text e.2.text) := by
    rw [textsOf_baseEntries h]
    refine List.map_congr_left fun e he => ?_
    obtain ⟨line, hline⟩ := htext e he
    rw [hline, Scalar.display, Text.Loose.shown_coe]
  rw [hmap]
  exact Table.ofEntries_of_distinct (List.pairwise_map.mpr hdistinct)

/-! ## The base in a run -/

section Passage

variable {ctx : Context} {ids : List LocalizationId} {w w' u v : World} {i : Nat}
  {k : LocalizationId} {o : Outcome} (hr : Registered ctx ids w) (hk : ids[i]? = some k)

include hr hk

theorem loaded_of_base (h : Passage ctx 0 ids w w' i k o u v) (hbase : k = ctx.base)
    (hlanguage : ctx.project.baseLanguage.truthy = true) : o = .loaded := by
  have hcode := code_before hr hk h hbase
  have hstep := h.step
  cases hstep with
  | loaded => rfl
  | rebuilt _ foreign => exact absurd hbase (ne_base_of_foreign hr hk h foreign)
  | skipped reason =>
      cases reason with
      | noCode code =>
          rw [hcode, hlanguage] at code
          cases code
      | duplicate _ _ other => exact absurd hbase other
      | unread _ foreign => exact absurd hbase (ne_base_of_foreign hr hk h foreign)

/-- What has been heard in a whole run has been heard of the base. -/
theorem heard_of_passage (h : Passage ctx 0 ids w w' i k .loaded u v)
    (hpassive : ∀ l ∈ (w.localization k).listeners, l.reaction = .nothing) :
    (w'.localization k).runtime = [] ∧ w'.journal.events = w.journal.events ++
      (textsOf ctx.entries).flatMap fun _ => (w.localization k).listeners.map fun l => (l, k) := by
  have hku := lt_size_before hr hk h
  have hkw := hr.listed k (List.mem_of_getElem? hk)
  have hstep := h.step
  cases hstep with
  | loaded isBase code same persisted heard =>
      subst isBase
      obtain ⟨hbefore, hafter⟩ := not_mem_of_count_eq_one hr.once hk
      have hu := h.before.untouched _ hkw hbefore
      rw [hu] at heard
      obtain ⟨hruntime, hevents⟩ := heard hpassive
      have hkv : ctx.base < v.localizations.size := by
        rwa [persisted.size, World.size_setLocalization]
      refine ⟨?_, ?_⟩
      · rw [h.after.untouched _ hkv hafter, hruntime]
      · rw [h.after.events hafter, hevents, h.before.events hbefore]

end Passage

/-- A slot that is accounted for holds what it held, or a new localization in place of one that is
not the base. -/
theorem Accounted.slot {ctx : Context} {ids : List LocalizationId} {w w' : World} {i : Nat}
    {k k' : LocalizationId} {o : Outcome} (h : Accounted ctx ids w w' i k o)
    (hk' : (w'.project ctx.projectId).localizations[i]? = some k') :
    k' = k ∨ k ≠ ctx.base ∧ w.localizations.size ≤ k' ∧ k' < w'.localizations.size ∧
      (w'.localization k').localeCode = (w.localization k).localeCode := by
  cases h with
  | loaded hl => exact .inl (Option.some.inj (hk'.symm.trans hl.slot))
  | skipped hs => exact .inl (Option.some.inj (hk'.symm.trans hs.slot))
  | rebuilt fresh hb =>
      obtain rfl := Option.some.inj (hk'.symm.trans hb.slot)
      refine .inr ⟨hb.foreign, hb.isNew, hb.isThere, ?_⟩
      rw [hb.renewed, hb.old.localeCode]

theorem baseLanguage_context {id : ProjectId} {base : LocalizationId} {u : World}
    (hbase : (u.project id).base = some base) (config : Config) (blob : Bytes)
    (entries : List StringTable.Entry) :
    (context config id base blob entries u).project.baseLanguage =
      (u.project id).baseLanguage := by
  rw [context, project_registered (lt_size_of_base hbase)]
  rfl

section Published

variable {compiler : Compiler} {config : Config} {id : ProjectId} {w w' u v : World}
  {report : BuildReport} {c : Compilation} {blob : Bytes} {base : LocalizationId}
  {entries : List StringTable.Entry}
  (h : Published compiler config id w report w' c blob base entries u v) (hu : u.Sound)

include h hu

/-- What holds in every passage of the slot before it and the slot at the end holds of all slots. -/
theorem forall₂_of_passages {R : LocalizationId → LocalizationId → Prop} :
    let ctx := context config id base blob entries u
    let ids := registerBase base (u.project id).localizations
    let start := registered id base blob u
    (∀ {i k k' o}, ids[i]? = some k → (w'.project id).localizations[i]? = some k' →
      Passage ctx 0 ids start w' i k o (worldAt ctx {} 0 ids start i)
        (worldAt ctx {} 0 ids start (i + 1)) → R k k') →
    List.Forall₂ R ids (w'.project id).localizations := by
  intro ctx ids start hslot
  have hr := h.isRegistered hu
  obtain ⟨hframe, outcomes, hlength, -, hpassages⟩ := h.passages hu
  have hsize : (w'.project id).localizations.length = ids.length :=
    hframe.length.trans (congrArg List.length hr.list)
  refine List.forall₂_iff_get.mpr ⟨hsize.symm, fun i hi hi' => ?_⟩
  have hk := List.getElem?_eq_getElem hi
  have ho := List.getElem?_eq_getElem (show i < outcomes.length by rwa [hlength])
  exact hslot hk (List.getElem?_eq_getElem hi') (hpassages i _ _ hk ho)

theorem forall₂_of_published :
    List.Forall₂ (fun k k' => (k = base ↔ k' = base) ∧ Succeeds u w' k k')
      (registerBase base (u.project id).localizations) (w'.project id).localizations := by
  refine forall₂_of_passages h hu fun {i k k' o} hk hk' hpassage => ?_
  rcases (accounted_of_passage (h.isRegistered hu) hk hpassage).slot hk' with
    rfl | ⟨hforeign, hnew, hthere, hcode⟩
  · exact ⟨Iff.rfl, .inl rfl⟩
  · rw [size_registered] at hnew
    have hfresh : k' ≠ base :=
      Nat.ne_of_gt (Nat.lt_of_lt_of_le (hu.base id base h.hasBase) hnew)
    refine ⟨⟨fun hbase => absurd hbase hforeign, fun hbase => absurd hbase hfresh⟩,
      .inr ⟨hnew, hthere, ?_⟩⟩
    exact hcode.trans (congrArg Localization.localeCode (localization_registered_of_ne hforeign))

/-- The passage in which the base of a project is brought up to date. -/
theorem base_passage :
    let ctx := context config id base blob entries u
    let ids := registerBase base (u.project id).localizations
    let start := registered id base blob u
    ∃ i o, ids[i]? = some base ∧ Passage ctx 0 ids start w' i base o
      (worldAt ctx {} 0 ids start i) (worldAt ctx {} 0 ids start (i + 1)) := by
  intro ctx ids start
  obtain ⟨-, outcomes, hlength, -, hpassages⟩ := h.passages hu
  have hmem : base ∈ ids := by
    refine List.count_pos_iff.mp ?_
    rw [count_registerBase]
    exact Nat.one_pos
  obtain ⟨i, hi, hget⟩ := List.mem_iff_getElem.mp hmem
  have hk : ids[i]? = some base := by rw [List.getElem?_eq_getElem hi, hget]
  have ho := List.getElem?_eq_getElem (show i < outcomes.length by rwa [hlength])
  exact ⟨i, _, hk, hpassages i base _ hk ho⟩

/-- The project at the end of a build. Only its list and its mark may have changed after the program
was stored. -/
theorem project_of_published : w'.project id = { (u.project id).setBlob (some blob) with
    localizations := (w'.project id).localizations
    building := (w'.project id).building } := by
  obtain ⟨hframe, -⟩ := h.passages hu
  have hproject : w'.project id = { (registered id base blob u).project id with
      localizations := (w'.project id).localizations
      building := (w'.project id).building } := hframe.project
  rwa [project_registered (lt_size_of_base h.hasBase)] at hproject

theorem baseLanguage_of_published :
    (w'.project id).baseLanguage = (u.project id).baseLanguage := by
  rw [project_of_published h hu]
  rfl

theorem basePublished_of_published : BasePublished id c blob base u w' := by
  have hr := h.isRegistered hu
  have hbase := hu.base id base h.hasBase
  obtain ⟨hframe, -⟩ := h.passages hu
  obtain ⟨i, o, hk, hpassage⟩ := base_passage h hu
  have hslots := forall₂_of_published h hu
  have hproject := project_of_published h hu
  have hlisteners : ((registered id base blob u).localization base).listeners =
      (u.localization base).listeners := by rw [localization_registered_self hbase]
  have hlanguage : (w'.project id).baseLanguage =
      (context config id base blob entries u).project.baseLanguage := by
    rw [baseLanguage_of_published h hu, baseLanguage_context h.hasBase]
  -- With a language, the base cannot have been skipped in its slot, nor rebuilt from a file.
  have hloaded (htruthy : (w'.project id).baseLanguage.truthy = true) : o = .loaded := by
    rw [hlanguage] at htruthy
    exact loaded_of_base hr hk hpassage rfl htruthy
  constructor
  case wasBase => exact h.hasBase
  case isBase =>
    rw [hproject]
    exact h.hasBase
  case program =>
    rw [hproject]
    rfl
  case localeCode =>
    rw [hframe.localeCode base (by rwa [size_registered]), hlanguage]
    exact hr.code
  case once =>
    rw [count_eq_of_forall₂ (hslots.imp fun _ _ hslot => hslot.1)]
    exact count_registerBase base _
  case place =>
    rw [idxOf_eq_of_forall₂ (hslots.imp fun _ _ hslot => hslot.1)]
    exact idxOf_registerBase base _
  case others =>
    rw [← filter_registerBase]
    refine (List.rel_filter ?_ hslots).imp fun _ _ hslot => hslot.2
    intro k k' hslot
    simpa using not_congr hslot.1
  case texts =>
    intro htruthy hdistinct htext
    obtain rfl := hloaded htruthy
    rw [(loaded_of_passage hr hk hpassage).texts]
    exact ofEntries_textsOf h.baseRows hdistinct htext
  case assets =>
    intro htruthy
    obtain rfl := hloaded htruthy
    exact (loaded_of_passage hr hk hpassage).assets
  case heard =>
    intro htruthy hpassive
    obtain rfl := hloaded htruthy
    have hheard := heard_of_passage hr hk hpassage (by rwa [hlisteners])
    rw [hlisteners, context, textsOf_baseEntries h.baseRows, List.flatMap_map] at hheard
    exact hheard

end Published

end Build

/-- A build that reports success has stored the bytes of the program that the compiler returned for
the job of the project, and has brought the base up to date with the compiler's lines. -/
theorem base_up_to_date {compiler : Compiler} {config : Config} {id : ProjectId} {w w' : World}
    {report : BuildReport} (hw : w.Sound) (hc : ∀ job, (compiler job).Keeps World.Sound)
    (h : (build compiler config (some id)).exec w = (.ok report, w'))
    (hok : report.status = .ok) :
    ∃ job c w₁ output blob base, Build.IsJob w.files config.encoding (w.project id) job ∧
      (compiler job).exec (w.setBuilding id true) = (.ok c, w₁) ∧
      c.program = some output ∧ output.serialize = .ok blob ∧
      Build.BasePublished id c blob base w₁ w' := by
  obtain ⟨c, blob, base, entries, u, v, hpublished⟩ := Build.published_of_build h hok
  obtain ⟨job, w₁, output, hjob, hcall, hsame, -, hprogram, hserialize⟩ :=
    Build.called_of_compiled hpublished.compiled
  exact ⟨job, c, w₁, output, blob, base, hjob, hcall, hprogram, hserialize,
    .of_sameStore hsame
      (Build.basePublished_of_published hpublished (hpublished.sound hw hc))⟩

theorem base_up_to_date_bilingual :
    ∃ report w' job base,
      (build (.returning .greeting) {} (some 0)).exec World.bilingual = (.ok report, w') ∧
      Build.IsJob World.bilingual.files (.text "utf-8") (World.bilingual.project 0) job ∧
      Build.BasePublished 0 .greeting [1] base (World.bilingual.setBuilding 0 true) w' := by
  obtain ⟨report, w', h, hok⟩ := Build.build_bilingual
  obtain ⟨job, c, w₁, output, blob, base, hjob, hcall, hprogram, hserialize, hpublished⟩ :=
    base_up_to_date World.sound_bilingual (Compiler.keeps_returning _ _) h hok
  cases hcall
  cases hprogram
  cases hserialize
  exact ⟨report, w', job, base, h, hjob, hpublished⟩

end Dialogue
