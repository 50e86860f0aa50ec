import Mathlib.Data.List.Duplicate
import Dialogue.Proofs.Build.Abreast
import Dialogue.Proofs.Build.Base
import Dialogue.Proofs.Build.Parallel
import Dialogue.Proofs.Project.Restored

/-! A project that has been written as JSON and restored is built like the project itself: both
builds come to the same, leave the same files, and leave what is persisted of the two projects the
same. -/

namespace Dialogue

/-! ## Projects that agree -/

/-- Two projects, each in its world, that agree in all that is persisted. Their bases stand at the
same places of their lists. -/
structure World.Agree (w : World) (p : Project) (base : LocalizationId) (w' : World) (p' : Project)
    (base' : LocalizationId) : Prop where
  isBase : p.base = some base
  isBase' : p'.base = some base'
  typed : w.HasTyped p
  stored : p'.stored .null = p.stored .null
  bases : (w.localization base).SameDocument (w'.localization base')
  list : List.Forall₂ (fun k k' => (k = base ↔ k' = base') ∧
    (w.localization k).SameDocument (w'.localization k')) p.localizations p'.localizations

namespace World.Agree

variable {w w' : World} {p p' : Project} {base base' : LocalizationId}

theorem idxOf?_eq (h : w.Agree p base w' p' base') :
    p'.localizations.idxOf? base' = p.localizations.idxOf? base :=
  Build.idxOf?_eq_of_forall₂ (h.list.imp fun _ _ hk => hk.1)

theorem sameDocument (h : w.Agree p base w' p' base') :
    (w.draft p base).SameDocument (w'.draft p' base') where
  project := ⟨.null, h.stored⟩
  localizations := by
    rw [draft, draft, List.forall₂_map_left_iff, List.forall₂_map_right_iff]
    exact h.list.imp fun _ _ hk => hk.2
  base := by
    simp only [draft, h.idxOf?_eq]
    cases p.localizations.idxOf? base with
    | some place => exact rfl
    | none => exact h.bases

/-- The documents of projects that agree are equal. -/
theorem documents (h : w.Agree p base w' p' base') :
    ∃ v v', w.projectDocument p = .ok v ∧ w'.projectDocument p' = .ok v' ∧ v'.same v = true := by
  obtain ⟨v, v', hv, hv', hsame⟩ := h.sameDocument.interchangeable (h.typed.draft h.isBase)
  refine ⟨v, v', ?_, ?_, hsame.same⟩
  · rw [projectDocument, ofProject_of_base h.isBase]
    exact hv
  · rw [projectDocument, ofProject_of_base h.isBase']
    exact hv'

/-- Neither the mark of a project that is being built nor anything but its localizations matters. -/
theorem mark {u u' : World} (h : w.Agree p base w' p' base')
    (hu : u.localizations = w.localizations)
    (hu' : u'.localizations = w'.localizations) (b b' : Bool) :
    u.Agree { p with building := b } base u' { p' with building := b' } base' := by
  have hleft : u.localization = w.localization := by
    funext k
    rw [localization, hu, localization]
  have hright : u'.localization = w'.localization := by
    funext k
    rw [localization, hu', localization]
  constructor
  case isBase => exact h.isBase
  case isBase' => exact h.isBase'
  case typed =>
    have typed := h.typed
    refine ⟨⟨typed.project.name, typed.project.sources, typed.project.declarations,
      typed.project.baseLanguage, typed.project.searchAssemblies⟩, ?_, ?_⟩
    · rw [hleft]
      exact typed.base
    · rw [hleft]
      exact typed.localizations
  case stored =>
    have hstored := h.stored
    simp only [Project.stored_eq] at hstored ⊢
    exact hstored
  case bases =>
    rw [hleft, hright]
    exact h.bases
  case list =>
    rw [hleft, hright]
    exact h.list

end World.Agree

/-- Two projects that agree, over the same files, with localizations that there are and bases whose
listeners do not fail. In the second project no localization is listed twice. -/
structure World.Alongside (w : World) (p : Project) (base : LocalizationId) (w' : World)
    (p' : Project)
    (base' : LocalizationId) : Prop extends w.Agree p base w' p' base' where
  path : p'.path = p.path
  files : w'.files = w.files
  nodup : p'.localizations.Nodup
  listed : ∀ k ∈ base :: p.localizations, k < w.localizations.size
  listed' : ∀ k ∈ base' :: p'.localizations, k < w'.localizations.size
  quiet : ∀ l ∈ (w.localization base).listeners, l.reaction ≠ .fail
  quiet' : ∀ l ∈ (w'.localization base').listeners, l.reaction ≠ .fail

theorem World.Alongside.mark {w w' u u' : World} {p p' : Project} {base base' : LocalizationId}
    (h : w.Alongside p base w' p' base') (hu : u.localizations = w.localizations)
    (hu' : u'.localizations = w'.localizations) (hfiles : u'.files = u.files) (b b' : Bool) :
    u.Alongside { p with building := b } base u' { p' with building := b' } base' where
  toAgree := h.toAgree.mark hu hu' b b'
  path := h.path
  files := hfiles
  nodup := h.nodup
  listed := by rw [hu]; exact h.listed
  listed' := by rw [hu']; exact h.listed'
  quiet := by rw [World.localization, hu]; exact h.quiet
  quiet' := by rw [World.localization, hu']; exact h.quiet'

namespace Build

/-! ## The bases in their lists -/

section RegisterBase

variable {base base' : LocalizationId} {ids ids' : List LocalizationId}

theorem registerBase_cons (base k : LocalizationId) (ids : List LocalizationId) :
    registerBase base (k :: ids) =
      if k = base then base :: ids.filter (· ≠ base) else k :: registerBase base ids := by
  rw [registerBase_eq, registerBase_eq]
  by_cases hk : k = base
  · simp [hk]
  · simp [hk]

theorem nodup_registerBase (base : LocalizationId) (h : ids.Nodup) :
    (registerBase base ids).Nodup := by
  induction ids with
  | nil => exact List.nodup_singleton base
  | cons k ids ih =>
      obtain ⟨hk, hrest⟩ := List.nodup_cons.mp h
      rw [registerBase_cons]
      split
      · exact List.nodup_cons.mpr ⟨by simp, hrest.filter _⟩
      · rename_i hne
        refine List.nodup_cons.mpr ⟨fun hmem => ?_, ih hrest⟩
        rcases mem_registerBase base ids hmem with hbase | hmem
        · exact hne hbase
        · exact hk hmem

theorem forall₂_registerBase {R : LocalizationId → LocalizationId → Prop}
    (h : List.Forall₂ R ids ids') (hiff : ∀ k k', R k k' → (k = base ↔ k' = base'))
    (hbase : R base base') : List.Forall₂ R (registerBase base ids) (registerBase base' ids') := by
  induction h with
  | nil => exact .cons hbase .nil
  | @cons k k' ids ids' hk hrest ih =>
      rw [registerBase_cons, registerBase_cons]
      by_cases hkbase : k = base
      · rw [if_pos hkbase, if_pos ((hiff k k' hk).mp hkbase)]
        exact .cons hbase (List.rel_filter (fun j j' hj =>
          by simpa using not_congr (hiff j j' hj)) hrest)
      · rw [if_neg hkbase, if_neg fun h' => hkbase ((hiff k k' hk).mpr h')]
        exact .cons hk ih

end RegisterBase

/-! ## The builds -/

section Publish

variable {config : Config} {id id' : ProjectId} {base base' : LocalizationId} {u u' : World}
  {entries : List StringTable.Entry} {blob : Bytes}

theorem context_alike
    (h : u.Alongside (u.project id) base u' (u'.project id') base') :
    (context config id base blob entries u).Alike (context config id' base' blob entries u') := by
  have hstored := h.stored
  rw [Project.stored_eq, Project.stored_eq] at hstored
  simp only [Project.mk.injEq] at hstored
  rw [context, context, project_registered (lt_size_of_base h.isBase),
    project_registered (lt_size_of_base h.isBase')]
  exact ⟨rfl, hstored.1, h.path, hstored.2.2.2.2.1, rfl⟩

theorem standing_registered (config : Config) (entries : List StringTable.Entry) (blob : Bytes)
    (hbase : (u.project id).base = some base)
    (hlisted : ∀ k ∈ base :: (u.project id).localizations, k < u.localizations.size)
    (hquiet : ∀ l ∈ (u.localization base).listeners, l.reaction ≠ .fail) :
    Standing (context config id base blob entries u)
      (registerBase base (u.project id).localizations) (registered id base blob u) := by
  have hp := lt_size_of_base hbase
  have hlt := hlisted base (by simp)
  have hself : (registered id base blob u).localization base =
      { u.localization base with localeCode := (u.project id).baseLanguage } :=
    localization_registered_self hlt
  constructor
  case project => rwa [size_projects_registered]
  case isBase =>
    rw [context, project_registered hp]
    exact hbase
  case list => rw [context, project_registered hp]
  case listed =>
    intro k hk
    rw [size_registered]
    rcases List.mem_cons.mp hk with rfl | hk
    · exact hlt
    · rcases mem_registerBase base _ hk with rfl | hk
      · exact hlt
      · exact hlisted k (by simp [hk])
  case code =>
    rw [context, project_registered hp, hself]
    rfl
  case quiet =>
    rw [context, hself]
    exact hquiet

/-- Nothing but the bases has been touched when the bases have been registered. -/
theorem ahead_registered
    (h : u.Alongside (u.project id) base u' (u'.project id') base') :
    List.Forall₂ (Matched (Ahead (context config id base blob entries u))
        (context config id base blob entries u) (context config id' base' blob entries u')
        (registered id base blob u) (registered id' base' blob u'))
      (registerBase base (u.project id).localizations)
      (registerBase base' (u'.project id').localizations) := by
  have hlist : List.Forall₂ (fun k k' => (k = base ↔ k' = base') ∧
      (k ≠ base → (u.localization k).SameDocument (u'.localization k')))
      (registerBase base (u.project id).localizations)
      (registerBase base' (u'.project id').localizations) :=
    forall₂_registerBase (h.list.imp fun _ _ hk => ⟨hk.1, fun _ => hk.2⟩) (fun _ _ hk => hk.1)
      ⟨iff_of_true rfl rfl, fun hne => absurd rfl hne⟩
  refine forall₂_imp_of_mem hlist fun k hk k' _ hmatch => ⟨hmatch.1, fun hother => ?_⟩
  have hother' : k' ≠ base' := fun hbase => hother (hmatch.1.mpr hbase)
  have hsame := hmatch.2 hother
  have hmem : k ∈ (u.project id).localizations := by
    rcases mem_registerBase base _ hk with hbase | hmem
    · exact absurd hbase hother
    · exact hmem
  have hleft : (registered id base blob u).localization k = u.localization k :=
    localization_registered_of_ne hother
  have hright : (registered id' base' blob u').localization k' = u'.localization k' :=
    localization_registered_of_ne hother'
  refine ⟨?_, ?_, .inl ?_⟩
  · rw [hleft]
    exact h.typed.localizations k hmem
  · rw [hleft, hright]
    exact ⟨hsame.localeCode, rfl, hsame.containsAssets, hsame.addressableAssets, hsame.texts⟩
  · rw [hleft, hright, hsame.stringFile]

theorem abreast_registered
    (h : u.Alongside (u.project id) base u' (u'.project id') base')
    (hrepeats : u.files.Repeats (StringTable.encode entries) config.encoding) :
    Abreast (context config id base blob entries u) (context config id' base' blob entries u') [] []
      (registerBase base (u.project id).localizations)
      (registerBase base' (u'.project id').localizations)
      (registered id base blob u) (registered id' base' blob u') := by
  have hp := lt_size_of_base h.isBase
  have hp' := lt_size_of_base h.isBase'
  have hself : (registered id base blob u).localization base =
      { u.localization base with localeCode := (u.project id).baseLanguage } :=
    localization_registered_self (h.listed base (by simp))
  have hself' : (registered id' base' blob u').localization base' =
      { u'.localization base' with localeCode := (u'.project id').baseLanguage } :=
    localization_registered_self (h.listed' base' (by simp))
  have hlanguage := Project.baseLanguage_of_stored h.stored
  constructor
  case left => exact standing_registered config entries blob h.isBase h.listed h.quiet
  case right => exact standing_registered config entries blob h.isBase' h.listed' h.quiet'
  case nodup => exact nodup_registerBase base' h.nodup
  case files => exact h.files
  case repeats => exact hrepeats
  case stored =>
    have hstored := h.stored
    rw [context, context, project_registered hp, project_registered hp']
    simp only [Project.stored_eq, Project.setBlob, Project.mk.injEq] at hstored ⊢
    tauto
  case typed =>
    rw [context, project_registered hp]
    have typed := h.typed.project
    exact ⟨typed.name, typed.sources, typed.declarations, typed.baseLanguage,
      typed.searchAssemblies⟩
  case typedBase =>
    obtain ⟨b, hb, typed⟩ := h.typed.base
    obtain rfl : base = b := Option.some.inj (h.isBase.symm.trans hb)
    rw [context, hself]
    exact ⟨h.typed.project.baseLanguage, typed.stringFile, typed.containsAssets,
      typed.addressableAssets, typed.textual, typed.distinct, typed.texts⟩
  case base =>
    rw [context, context, hself, hself', hlanguage]
    exact ⟨rfl, h.bases.stringFile, h.bases.containsAssets, h.bases.addressableAssets,
      h.bases.texts⟩
  case done => exact .nil
  case rest => exact ahead_registered h

/-- Projects whose builds have come to their ends side by side agree. -/
theorem Abreast.agree {c c' : Context} {done done' : List LocalizationId}
    (h : Abreast c c' done done' [] [] u u') :
    u.Agree (u.project c.projectId) c.base u' (u'.project c'.projectId) c'.base := by
  have hlist : (u.project c.projectId).localizations = done := by simp [h.left.list]
  have hlist' : (u'.project c'.projectId).localizations = done' := by simp [h.right.list]
  constructor
  case isBase => exact h.left.isBase
  case isBase' => exact h.right.isBase
  case typed =>
    refine ⟨h.typed, ⟨c.base, h.left.isBase, h.typedBase⟩, fun k hk => ?_⟩
    by_cases hbase : k = c.base
    · rw [hbase]
      exact h.typedBase
    · rw [hlist] at hk
      obtain ⟨k', -, hmatch⟩ := exists_of_forall₂ h.done.flip hk
      exact (hmatch.fellow hbase).typed
  case stored => exact h.stored
  case bases => exact h.base
  case list =>
    rw [hlist, hlist']
    refine h.done.imp fun k k' hmatch => ⟨hmatch.isBase, ?_⟩
    by_cases hbase : k = c.base
    · rw [hbase, hmatch.isBase.mp hbase]
      exact h.base
    · have hfellow := hmatch.fellow hbase
      have hrest := hfellow.rest
      exact ⟨hrest.localeCode, hfellow.paths.1, hrest.containsAssets, hrest.addressableAssets,
        hrest.texts⟩

/-- Two builds that come to the same and leave the same files, and projects that agree if there is a
report. -/
structure SameOutcome (id : ProjectId) (base : LocalizationId) (id' : ProjectId)
    (base' : LocalizationId) (r r' : Except Fault BuildReport × World) : Prop where
  result : r'.1 = r.1
  files : r'.2.files = r.2.files
  agree : ∀ report, r.1 = .ok report →
    r.2.Agree (r.2.project id) base r'.2 (r'.2.project id') base'

theorem sameOutcome_publish
    (h : u.Alongside (u.project id) base u' (u'.project id') base')
    (hrepeats : ∀ text, u.files.Repeats text config.encoding) (c : Compilation) (blob : Bytes) :
    SameOutcome id base id' base' ((publish config id c blob).exec u)
      ((publish config id' c blob).exec u') := by
  rw [exec_publish h.isBase, exec_publish h.isBase', Project.baseLanguage_of_stored h.stored]
  cases baseEntries (u.project id).baseLanguage config c.lines with
  | error e => exact ⟨rfl, h.files, fun _ hreport => by cases hreport⟩
  | ok entries =>
      have halike : (context config id base blob entries u).Alike
          (context config id' base' blob entries u') := context_alike h
      have hlanguage : (context config id base blob entries u).project.baseLanguage.same
          (context config id base blob entries u).project.baseLanguage = true := by
        rw [context, project_registered (lt_size_of_base h.isBase)]
        exact h.typed.project.baseLanguage.interchangeable.same
      obtain ⟨result, v, v', hexec, hexec', hfiles, hend⟩ :=
        (abreast_registered h (hrepeats _)).exec_slots halike hlanguage {}
      simp only [List.length_nil] at hexec hexec'
      dsimp only
      rw [hexec, hexec']
      refine ⟨rfl, hfiles, fun report hreport => ?_⟩
      obtain ⟨done, done', habreast⟩ := hend report hreport
      exact habreast.agree

end Publish

section Build

variable {compiler compiler' : Compiler} {answer : Job → Except Fault Compilation} {config : Config}
  {id id' : ProjectId} {base base' : LocalizationId} {w w' : World}

theorem sameInput (h : w.Alongside (w.project id) base w' (w'.project id') base') :
    SameInput (w.project id) (w'.project id') := by
  have hstored := h.stored
  simp only [Project.stored_eq, Project.mk.injEq] at hstored
  exact ⟨hstored.1, h.path, hstored.2.2.1, hstored.2.2.2.1⟩

theorem Alongside.of_sameStore {u u' : World}
    (h : w.Alongside (w.project id) base w' (w'.project id') base') (hu : w.SameStore u)
    (hu' : w'.SameStore u') : u.Alongside (u.project id) base u' (u'.project id') base' := by
  rw [hu.project, hu'.project]
  exact h.mark hu.localizations hu'.localizations (by rw [hu.files, hu'.files, h.files])
    (w.project id).building (w'.project id').building

theorem sameOutcome_run (hc : compiler.Answers id answer) (hc' : compiler'.Answers id' answer)
    (h : w.Alongside (w.project id) base w' (w'.project id') base')
    (hmarked : (w.project id).building = true) (hmarked' : (w'.project id').building = true)
    (hrepeats : ∀ text, w.files.Repeats text config.encoding) :
    SameOutcome id base id' base' ((run compiler config id).exec w)
      ((run compiler' config id').exec w') := by
  have hparallel : Stage.Parallel w.SameStore w'.SameStore (compile compiler config (w.project id))
      (compile compiler' config (w'.project id')) :=
    parallel_compile hc hc' hmarked hmarked' h.files (sameInput h)
  obtain ⟨hresult, hu, hu'⟩ := hparallel w w' (.refl w) (.refl w')
  rw [exec_run, exec_run]
  rcases hleft : Stage.exec (compile compiler config (w.project id)) w with ⟨result, u⟩
  rcases hright : Stage.exec (compile compiler' config (w'.project id')) w' with ⟨result', u'⟩
  rw [hleft, hright] at hresult
  rw [hleft] at hu
  rw [hright] at hu'
  obtain rfl : result = result' := hresult
  have halongside := Alongside.of_sameStore h hu hu'
  rcases result with e | r | ⟨c, blob⟩
  · exact ⟨rfl, halongside.files, fun _ hreport => by cases hreport⟩
  · exact ⟨rfl, halongside.files, fun _ _ => halongside.toAgree⟩
  · exact sameOutcome_publish halongside (by rwa [hu.files]) c blob

theorem SameOutcome.unmark {r r' : Except Fault BuildReport × World}
    (h : SameOutcome id base id' base' r r') (b b' : Bool) :
    SameOutcome id base id' base' (r.1, r.2.setBuilding id b) (r'.1, r'.2.setBuilding id' b') where
  result := h.result
  files := h.files
  agree report hreport := by
    have hagree := h.agree report hreport
    rw [World.project_setBuilding (lt_size_of_base hagree.isBase),
      World.project_setBuilding (lt_size_of_base hagree.isBase')]
    exact hagree.mark (r.2.localizations_setProject id _) (r'.2.localizations_setProject id' _) b b'

theorem sameOutcome_build (hc : compiler.Answers id answer) (hc' : compiler'.Answers id' answer)
    (h : w.Alongside (w.project id) base w' (w'.project id') base')
    (hunmarked : (w.project id).building = false) (hunmarked' : (w'.project id').building = false)
    (hrepeats : ∀ text, w.files.Repeats text config.encoding) :
    SameOutcome id base id' base' ((build compiler config (some id)).exec w)
      ((build compiler' config (some id')).exec w') := by
  have hinput := sameInput h
  have hprecondition : precondition (w'.project id') = precondition (w.project id) := by
    rw [precondition, precondition, hinput.sources, hinput.name, h.isBase, h.isBase']
    rfl
  cases hadmitted : precondition (w.project id) with
  | error e =>
      rw [exec_build_of_error compiler config hadmitted,
        exec_build_of_error compiler' config (hprecondition.trans hadmitted)]
      exact ⟨rfl, h.files, fun _ _ =>
        (Alongside.of_sameStore h (.logged w _ _) (.logged w' _ _)).toAgree⟩
  | ok _ =>
      rw [exec_build_of_admitted compiler config hadmitted hunmarked,
        exec_build_of_admitted compiler' config (hprecondition.trans hadmitted) hunmarked']
      have hp := lt_size_of_base h.isBase
      have hp' := lt_size_of_base h.isBase'
      have hmarked : ((w.setBuilding id true).project id).building = true := by
        rw [World.project_setBuilding hp]
      have hmarked' : ((w'.setBuilding id' true).project id').building = true := by
        rw [World.project_setBuilding hp']
      have halongside : (w.setBuilding id true).Alongside ((w.setBuilding id true).project id) base
          (w'.setBuilding id' true) ((w'.setBuilding id' true).project id') base' := by
        rw [World.project_setBuilding hp, World.project_setBuilding hp']
        exact h.mark (w.localizations_setProject id _) (w'.localizations_setProject id' _) h.files
          true true
      exact (sameOutcome_run hc hc' halongside hmarked hmarked' hrepeats).unmark false false

end Build

end Build

/-! ## Restored projects -/

section Restored

variable {w w₀ : World} {p : Project} {base : LocalizationId} {d' : Draft} {path : Value}

theorem eq_of_count_le_one {ids : List LocalizationId} (h : ids.count base ≤ 1) {i j : Nat}
    (hi : ids[i]? = some base) (hj : ids[j]? = some base) : i = j := by
  obtain ⟨hilt, hi⟩ := List.getElem?_eq_some_iff.mp hi
  obtain ⟨hjlt, hj⟩ := List.getElem?_eq_some_iff.mp hj
  have htwice : ¬ ids.Duplicate base := fun hdup =>
    absurd (List.duplicate_iff_two_le_count.mp hdup) (by omega)
  rw [List.duplicate_iff_exists_distinct_get] at htwice
  rcases Nat.lt_trichotomy i j with hlt | heq | hgt
  · exact absurd ⟨⟨i, hilt⟩, ⟨j, hjlt⟩, hlt, hi.symm, hj.symm⟩ htwice
  · exact heq
  · exact absurd ⟨⟨j, hjlt⟩, ⟨i, hilt⟩, hgt, hj.symm, hi.symm⟩ htwice

/-- A localization of the new list is what is persisted of the one at its place. -/
theorem Draft.StoredAs.localization_installed (h : (w.draft p base).StoredAs path d')
    (w₀ : World) {i : Nat}
    (hi : i < p.localizations.length) :
    (w.localization p.localizations[i]).StoredAs
      ((d'.installed w₀).localization (w₀.localizations.size + i)) := by
  have hlength : i < d'.localizations.length := by
    rw [← h.localizations.length_eq]
    simpa [World.draft] using hi
  have hstored := h.localizations.get (by simpa [World.draft] using hi) hlength
  rw [Draft.localization_installed hlength]
  simpa [World.draft] using hstored

/-- The new base is what is persisted of the old one. -/
theorem Draft.StoredAs.base_installed (h : (w.draft p base).StoredAs path d') :
    (w.localization base).StoredAs
      ((d'.installed w₀).localization (d'.baseNumber w₀.localizations.size)) := by
  have hstored := h.base
  cases hplace : p.localizations.idxOf? base with
  | some place =>
      obtain ⟨hlt, hget, -⟩ := List.idxOf?_eq_some_iff.mp hplace
      have hlisted : d'.base = .listed place :=
        (h.listed_iff place).mpr (by simp only [World.draft, hplace])
      have hnumber := h.localization_installed w₀ hlt
      rw [hget] at hnumber
      rw [Draft.baseNumber, hlisted]
      exact hnumber
  | none =>
      have hown : (w.draft p base).base = .own (w.localization base) := by
        simp only [World.draft, hplace]
      rw [hown] at hstored
      cases hbase' : d'.base with
      | own l =>
          rw [hbase'] at hstored
          have hlocalization := Draft.localization_ownBase (w := w₀) (show d'.ownBase = some l by
            rw [Draft.ownBase, hbase'])
          rw [Draft.baseNumber, hbase', hlocalization]
          exact hstored
      | _ =>
          rw [hbase'] at hstored
          exact hstored.elim

/-- The new list has its base at the place of the old one, if this is listed at most once. -/
theorem Draft.StoredAs.list_installed (h : (w.draft p base).StoredAs path d')
    (hbase : p.base = some base) (typed : w.HasTyped p) (honce : p.localizations.count base ≤ 1) :
    List.Forall₂ (fun k k' => (k = base ↔ k' = d'.baseNumber w₀.localizations.size) ∧
        (w.localization k).SameDocument ((d'.installed w₀).localization k'))
      p.localizations (d'.installedProject w₀.localizations.size).localizations := by
  obtain ⟨-, hplace⟩ := h.base_present (typed.draft hbase)
  have hlength : d'.localizations.length = p.localizations.length := by
    rw [← h.localizations.length_eq, World.draft, List.length_map]
  refine List.forall₂_iff_get.mpr ⟨by simp [Draft.installedProject, hlength], fun i hi hi' => ?_⟩
  have hget : (d'.installedProject w₀.localizations.size).localizations.get ⟨i, hi'⟩ =
      w₀.localizations.size + i := by simp [Draft.installedProject]
  rw [hget]
  refine ⟨?_, (h.localization_installed w₀ hi).sameDocument⟩
  have hlisted : w₀.localizations.size + i = d'.baseNumber w₀.localizations.size ↔
      d'.base = .listed i := by
    rw [← getElem?_eq_base_iff hplace w₀.localizations.size i, List.getElem?_eq_getElem hi']
    exact (by rw [← hget]; exact Option.some_inj.symm)
  rw [hlisted, h.listed_iff, draft_base_iff]
  constructor
  · intro heq
    have hi? : p.localizations[i]? = some base := by
      rw [List.getElem?_eq_getElem hi]
      exact congrArg some heq
    refine ⟨hi?, fun j hj hbefore => ?_⟩
    exact absurd (eq_of_count_le_one honce hbefore hi?) (Nat.ne_of_lt hj)
  · rintro ⟨hi?, -⟩
    rw [List.getElem?_eq_getElem hi] at hi?
    exact Option.some.inj hi?

theorem Localization.StoredAs.quiet {l l' : Localization} (h : l.StoredAs l') :
    ∀ x ∈ l'.listeners, x.reaction ≠ .fail := by
  obtain ⟨texts, -, rfl⟩ := h
  simp [Localization.stored]

/-- Every number that the new project knows stands for a localization that has been added. -/
theorem Draft.StoredAs.listed_installed (h : (w.draft p base).StoredAs path d')
    (typed : (w.draft p base).WellTyped) {k : LocalizationId}
    (hk : k ∈ d'.baseNumber w₀.localizations.size ::
      (d'.installedProject w₀.localizations.size).localizations) :
    k < (d'.installed w₀).localizations.size := by
  have hsize : (d'.installed w₀).localizations.size =
      w₀.localizations.size + (d'.localizations.length + d'.ownBase.toList.length) := by
    simp [Draft.installed]
  rw [hsize]
  rcases List.mem_cons.mp hk with rfl | hk
  · obtain ⟨hpresent, hplace⟩ := h.base_present typed
    cases hbase : d'.base with
    | listed place =>
        have hlt := hplace place hbase
        rw [Draft.baseNumber, hbase]
        exact Nat.add_lt_add_left (Nat.lt_of_lt_of_le hlt (Nat.le_add_right _ _)) _
    | own l => simp [Draft.baseNumber, Draft.ownBase, hbase]
    | absent => exact absurd hbase hpresent
  · simp only [Draft.installedProject, List.mem_map, List.mem_range] at hk
    obtain ⟨i, hi, rfl⟩ := hk
    exact Nat.add_lt_add_left (Nat.lt_of_lt_of_le hi (Nat.le_add_right _ _)) _

/-- A restored project stands alongside the project that was written. -/
theorem Draft.StoredAs.alongside (h : (w.draft p base).StoredAs p.path d')
    (hbase : p.base = some base) (typed : w.HasTyped p) (honce : p.localizations.count base ≤ 1)
    (hlisted : ∀ k ∈ base :: p.localizations, k < w.localizations.size)
    (hquiet : ∀ l ∈ (w.localization base).listeners, l.reaction ≠ .fail)
    (hfiles : w₀.files = w.files) :
    w.Alongside p base (d'.installed w₀) (d'.installedProject w₀.localizations.size)
      (d'.baseNumber w₀.localizations.size) := by
  have hproject : d'.project = p.stored p.path := h.project
  constructor
  case toAgree =>
    constructor
    case isBase => exact hbase
    case isBase' => rfl
    case typed => exact typed
    case stored =>
      simp only [Draft.installedProject, hproject, Project.stored_eq]
    case bases => exact h.base_installed.sameDocument
    case list => exact h.list_installed hbase typed honce
  case path => simp only [Draft.installedProject, hproject, Project.stored_eq]
  case files => exact hfiles
  case nodup => exact (List.nodup_range).map fun i j hij => Nat.add_left_cancel hij
  case listed => exact hlisted
  case listed' => exact fun k hk => h.listed_installed (typed.draft hbase) hk
  case quiet => exact hquiet
  case quiet' => exact h.base_installed.quiet

end Restored

/-! ## Transparency -/

/-- Builds of two projects that come to the same: the same report, or the same fault. They leave the
same files, and if there is a report, equal documents. -/
structure BuiltAlike (id id' : ProjectId) (r r' : Except Fault BuildReport × World) : Prop where
  result : r'.1 = r.1
  files : r'.2.files = r.2.files
  documents : ∀ report, r.1 = .ok report → ∃ v v',
    r.2.projectDocument (r.2.project id) = .ok v ∧
    r'.2.projectDocument (r'.2.project id') = .ok v' ∧ v'.same v = true

/-- A project of one world can be written as JSON and restored in another one, and it is built there
as it is built here. -/
def TransparentIn (compiler compiler' : Compiler) (config : Config) (w : World) (id : ProjectId)
    (w₀ : World) : Prop :=
  ∃ text id' w₁, w.projectJson (w.project id) = .ok text ∧
    Action.exec (restoreJson text (w.project id).path) w₀ = (.ok id', w₁) ∧
    BuiltAlike id id' ((build compiler config (some id)).exec w)
      ((build compiler' config (some id')).exec w₁)

/-- A typed project is restored to one that is built like it from the same files, if its base is
listed at most once and has no listener that fails, and if it is not being built. -/
theorem restored_built_alike {compiler compiler' : Compiler} {config : Config} {id : ProjectId}
    {answer : Job → Except Fault Compilation} {w w₀ : World} (hw : w.Sound)
    (typed : w.HasTyped (w.project id))
    (honce : ∀ base ∈ (w.project id).base, (w.project id).localizations.count base ≤ 1)
    (hquiet : ∀ base ∈ (w.project id).base,
      ∀ l ∈ (w.localization base).listeners, l.reaction ≠ .fail)
    (hunmarked : (w.project id).building = false) (hfiles : w₀.files = w.files)
    (hrepeats : ∀ text, w.files.Repeats text config.encoding)
    (hc : compiler.Answers id answer) (hc' : compiler'.Answers w₀.projects.size answer) :
    TransparentIn compiler compiler' config w id w₀ := by
  obtain ⟨base, hbase, -⟩ := typed.base
  obtain ⟨text, d', htext, hstored, hrestore⟩ :=
    typed.exists_stored hbase (w.project id).path w₀
  have hlisted : ∀ k ∈ base :: (w.project id).localizations, k < w.localizations.size := by
    intro k hk
    rcases List.mem_cons.mp hk with rfl | hk
    · exact hw.base id k hbase
    · exact hw.listed id k hk
  have halongside :=
    hstored.alongside hbase typed (honce base hbase) hlisted (hquiet base hbase) hfiles
  have hproject := Draft.project_installed d' w₀
  have hunmarked' : ((d'.installed w₀).project w₀.projects.size).building = false := by
    have hdraft : d'.project = (w.project id).stored (w.project id).path := hstored.project
    rw [hproject]
    simp only [Draft.installedProject, hdraft, Project.stored_eq]
  rw [← hproject] at halongside
  have hsame : Build.SameOutcome id base w₀.projects.size _
      ((build compiler config (some id)).exec w)
      ((build compiler' config (some w₀.projects.size)).exec (d'.installed w₀)) :=
    Build.sameOutcome_build hc hc' halongside hunmarked hunmarked' hrepeats
  exact ⟨text, w₀.projects.size, d'.installed w₀, htext, hrestore, hsame.result, hsame.files,
    fun report hreport => (hsame.agree report hreport).documents⟩

/-- A localization of some language without a table and without texts. -/
theorem Localization.WellTyped.of_textless {l : Localization} (hcode : l.localeCode.IsText)
    (hpath : l.stringFile = .null) (hassets : l.containsAssets.IsFlag)
    (haddressable : l.addressableAssets.IsFlag) (htexts : l.texts = []) : l.WellTyped :=
  ⟨hcode, .inl hpath, hassets, haddressable, by simp [htexts, Table.Textual, Scalar.Named],
    by rw [htexts]; exact List.Pairwise.nil, by simp [htexts]⟩

theorem World.hasTyped_of_mem {w : World} {p : Project} (hproject : p.WellTyped)
    {base : LocalizationId}
    (hbase : p.base = some base) (h : ∀ l ∈ w.localizations, l.WellTyped) : w.HasTyped p := by
  have hlocalization : ∀ k, (w.localization k).WellTyped := by
    intro k
    by_cases hk : k < w.localizations.size
    · exact h _ (by simp [World.localization, hk])
    · rw [w.localization_of_size_le (Nat.le_of_not_lt hk)]
      exact .of_textless ⟨_, rfl⟩ rfl ⟨_, rfl⟩ ⟨_, rfl⟩ rfl
  exact ⟨hproject, ⟨base, hbase, hlocalization base⟩, fun k _ => hlocalization k⟩

theorem Project.WellTyped.of_source {p : Project} (hname : p.name.IsText) {source : String}
    (hsources : p.sources = [.text source]) (hdeclarations : p.declarations = [])
    (hlanguage : p.baseLanguage.IsText) (hassemblies : p.searchAssemblies = []) : p.WellTyped :=
  ⟨hname, by simp [hsources, Value.IsOptionalText, Value.IsText], by simp [hdeclarations],
    hlanguage,
    by simp [hassemblies]⟩

theorem World.hasTyped_untranslated :
    World.untranslated.HasTyped (World.untranslated.project 0) := by
  refine hasTyped_of_mem (.of_source ⟨_, rfl⟩ rfl rfl ⟨_, rfl⟩ rfl) rfl fun l hl => ?_
  simp only [untranslated, List.mem_toArray, List.mem_cons, List.not_mem_nil, or_false] at hl
  rcases hl with rfl | rfl
  all_goals exact .of_textless ⟨_, rfl⟩ rfl ⟨_, rfl⟩ ⟨_, rfl⟩ rfl

theorem restored_built_alike_untranslated :
    World.untranslated.Sound ∧ World.untranslated.HasTyped (World.untranslated.project 0) ∧
      TransparentIn (.returning .greeting) (.returning .greeting) {} World.untranslated 0
        World.untranslated :=
  ⟨World.sound_untranslated, World.hasTyped_untranslated,
    restored_built_alike World.sound_untranslated World.hasTyped_untranslated
      (by decide) (by decide) rfl rfl (FileSystem.repeats_memory _ · _)
      (Compiler.answers_returning .greeting 0) (Compiler.answers_returning .greeting _)⟩

/-! ## Projects that are built otherwise -/

section Otherwise

variable {compiler compiler' : Compiler} {config : Config} {id : ProjectId} {w w₀ : World}

def World.textlessDraft (w : World) (p : Project) (place : Nat) : Draft where
  project := p.stored p.path
  localizations := p.localizations.map fun k => (w.localization k).stored []
  base := .listed place

/-- Of a project without texts there is only one way to restore it. -/
theorem TransparentIn.builtAlike (h : TransparentIn compiler compiler' config w id w₀)
    (typed : w.HasTyped (w.project id)) {base : LocalizationId} {place : Nat}
    (hbase : (w.project id).base = some base)
    (hplace : (w.project id).localizations.idxOf? base = some place)
    (htextless : ∀ k ∈ (w.project id).localizations, (w.localization k).texts = []) :
    BuiltAlike id w₀.projects.size ((build compiler config (some id)).exec w)
      ((build compiler' config (some w₀.projects.size)).exec
        ((w.textlessDraft (w.project id) place).installed w₀)) := by
  obtain ⟨text, id', w₁, htext, hrestore, halike⟩ := h
  obtain ⟨text', d', htext', hstored, hrestore'⟩ :=
    typed.exists_stored hbase (w.project id).path w₀
  rw [htext] at htext'
  cases htext'
  rw [hrestore] at hrestore'
  obtain ⟨hid, rfl⟩ := Prod.mk.inj hrestore'
  cases hid
  have hlist : List.Forall₂ (fun k l' => (w.localization k).stored [] = l')
      (w.project id).localizations d'.localizations := by
    have hlocalizations := hstored.localizations
    rw [World.draft, List.forall₂_map_left_iff] at hlocalizations
    refine Build.forall₂_imp_of_mem hlocalizations fun k hk l' _ hl' => ?_
    obtain ⟨texts, hperm, rfl⟩ := hl'
    rw [htextless k hk] at hperm
    rw [hperm.eq_nil]
  rw [← List.forall₂_map_left_iff, List.forall₂_eq_eq_eq] at hlist
  have hlisted : d'.base = .listed place :=
    (hstored.listed_iff place).mpr (by simp only [World.draft, hplace])
  have hd' : d' = w.textlessDraft (w.project id) place := by
    obtain ⟨project, localizations, base⟩ := d'
    simp only at hlist hlisted
    have hproject : project = (w.project id).stored (w.project id).path := hstored.project
    rw [World.textlessDraft, hlist, hlisted, hproject]
  rwa [← hd']

theorem not_transparentIn {α : Type} (typed : w.HasTyped (w.project id)) {base : LocalizationId}
    {place : Nat} (hbase : (w.project id).base = some base)
    (hplace : (w.project id).localizations.idxOf? base = some place)
    (htextless : ∀ k ∈ (w.project id).localizations, (w.localization k).texts = [])
    (f : BuildReport → α)
    (hreports : ((build compiler' config (some w₀.projects.size)).exec
        ((w.textlessDraft (w.project id) place).installed w₀)).1.toOption.map f ≠
      ((build compiler config (some id)).exec w).1.toOption.map f) :
    ¬ TransparentIn compiler compiler' config w id w₀ := by
  intro h
  exact hreports (by rw [(h.builtAlike typed hbase hplace htextless).result])

end Otherwise

def World.alarmed : World where
  localizations := #[
    { localeCode := .text "en", listeners := [{ name := "alarm", reaction := .fail }] }]
  projects := #[{ sources := [.text "main"], base := some 0, localizations := [0] }]
  files := .memory { files := [("main", .bytes (Text.Utf8.encode "title: Start".toList))] }

def World.busy : World where
  localizations := #[{ localeCode := .text "en" }]
  projects :=
    #[{ sources := [.text "main"], base := some 0, localizations := [0], building := true }]
  files := .memory { files := [("main", .bytes (Text.Utf8.encode "title: Start".toList))] }

/-- A volume that stores one text and no more. -/
def Volume.narrow : Volume where
  existsAt _ path := path = "main"
  readText _ path _ := .ok (if path = "main" then "title: Start" else StringTable.encode [])
  writeText store _ _ _ :=
    if store.isEmpty then (.ok (), [1]) else (.error (.file (.medium "full")), store)
  absolute path := path

/-- A project that lists a localization without a table twice. -/
def World.crowded : World where
  localizations := #[{ localeCode := .text "en" }, { localeCode := .text "de" }]
  projects := #[
    { path := .text "intro.tres", sources := [.text "main"], base := some 0,
      localizations := [1, 1, 0] }]
  files := .volume .narrow

section Otherwise

theorem World.sound_alarmed : World.alarmed.Sound :=
  .of_mem (by simp [alarmed, Value.same, Scalar.same, Scalar.number?])
    (by simp [alarmed, Table.Distinct])

theorem World.sound_busy : World.busy.Sound :=
  .of_mem (by simp [busy, Value.same, Scalar.same, Scalar.number?])
    (by simp [busy, Table.Distinct])

theorem World.sound_crowded : World.crowded.Sound :=
  .of_mem (by simp [crowded, Value.same, Scalar.same, Scalar.number?])
    (by simp [crowded, Table.Distinct])

theorem World.hasTyped_alarmed : World.alarmed.HasTyped (World.alarmed.project 0) := by
  refine hasTyped_of_mem (.of_source ⟨_, rfl⟩ rfl rfl ⟨_, rfl⟩ rfl) rfl fun l hl => ?_
  obtain rfl : l = _ := by simpa [alarmed] using hl
  exact .of_textless ⟨_, rfl⟩ rfl ⟨_, rfl⟩ ⟨_, rfl⟩ rfl

theorem World.hasTyped_busy : World.busy.HasTyped (World.busy.project 0) := by
  refine hasTyped_of_mem (.of_source ⟨_, rfl⟩ rfl rfl ⟨_, rfl⟩ rfl) rfl fun l hl => ?_
  obtain rfl : l = _ := by simpa [busy] using hl
  exact .of_textless ⟨_, rfl⟩ rfl ⟨_, rfl⟩ ⟨_, rfl⟩ rfl

theorem World.hasTyped_crowded : World.crowded.HasTyped (World.crowded.project 0) := by
  refine hasTyped_of_mem (.of_source ⟨_, rfl⟩ rfl rfl ⟨_, rfl⟩ rfl) rfl fun l hl => ?_
  simp only [crowded, List.mem_toArray, List.mem_cons, List.not_mem_nil, or_false] at hl
  rcases hl with rfl | rfl
  all_goals exact .of_textless ⟨_, rfl⟩ rfl ⟨_, rfl⟩ ⟨_, rfl⟩ rfl

/-- A project as in the round trip, listed once with its base, that is built otherwise than its
restored copy. -/
def BuiltOtherwise (w : World) : Prop :=
  w.Sound ∧ w.HasTyped (w.project 0) ∧ (w.project 0).base = some 0 ∧
    (w.project 0).localizations.count 0 = 1 ∧
    ¬ TransparentIn (.returning .greeting) (.returning .greeting) {} w 0 w

/-- A restored project is built although the base of the project has a listener that fails, and
although the project is being built, and it generates the table of a localization as often as this
is listed. -/
theorem restored_built_otherwise :
    BuiltOtherwise .alarmed ∧ BuiltOtherwise .busy ∧ BuiltOtherwise .crowded := by
  refine ⟨⟨World.sound_alarmed, World.hasTyped_alarmed, rfl, rfl, ?_⟩,
    ⟨World.sound_busy, World.hasTyped_busy, rfl, rfl, ?_⟩,
    ⟨World.sound_crowded, World.hasTyped_crowded, rfl, rfl, ?_⟩⟩
  · exact not_transparentIn World.hasTyped_alarmed rfl rfl (by decide +kernel) BuildReport.status
      (by decide +kernel)
  · exact not_transparentIn World.hasTyped_busy rfl rfl (by decide +kernel) BuildReport.status
      (by decide +kernel)
  · exact not_transparentIn World.hasTyped_crowded rfl rfl (by decide +kernel)
      (fun report => report.skipped.length) (by decide +kernel)

end Otherwise

end Dialogue
