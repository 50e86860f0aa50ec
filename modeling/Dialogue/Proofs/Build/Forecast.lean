import Dialogue.Proofs.Build.Outcomes

/-! When it is known what the compiler comes to, what a build makes of a language can be said from
the world before the build, without running it. -/

namespace Dialogue

/-- A compiler that comes to the same compilation for every job and leaves the store alone. -/
def Compiler.Returns (compiler : Compiler) (id : ProjectId) (c : Compilation) : Prop :=
  ∀ (job : Job) (w : World), (w.project id).building = true →
    ∃ w', (compiler job).exec w = (.ok c, w') ∧ w.SameStore w'

theorem Compiler.returns_returning (c : Compilation) (id : ProjectId) :
    (Compiler.returning c).Returns id c :=
  fun _ w _ => ⟨w, rfl, .refl w⟩

theorem Compiler.Returns.keepsStore {compiler : Compiler} {id : ProjectId} {c : Compilation}
    (h : compiler.Returns id c) : compiler.KeepsStore id := by
  intro job w hbuilding
  obtain ⟨w', hcall, hsame⟩ := h job w hbuilding
  rw [hcall]
  exact hsame

theorem World.Sound.setBuilding {w : World} (h : w.Sound) (id : ProjectId) (b : Bool) :
    (w.setBuilding id b).Sound :=
  h.of_projects rfl fun k => by
    obtain ⟨b', hproject⟩ := w.project_setBuilding_eq id b k
    simp [hproject]

theorem World.Sound.of_sameStore {w u : World} (h : w.Sound) (hsame : w.SameStore u) : u.Sound :=
  h.of_projects hsame.localizations fun k => by simp [hsame.project]

theorem World.localizations_setBuilding (w : World) (id : ProjectId) (b : Bool) (k : ProjectId) :
    ((w.setBuilding id b).project k).localizations = (w.project k).localizations := by
  obtain ⟨b', hproject⟩ := w.project_setBuilding_eq id b k
  rw [hproject]

namespace Build

open FileSystem (SameFile)

/-- What the languages of a project have in common, as it stands before a build. -/
def prospect (config : Config) (id : ProjectId) (base : LocalizationId)
    (entries : List StringTable.Entry) (w : World) : Context :=
  ⟨config, id, w.project id, base, entries⟩

/-- A build in which the languages are about to be looked at: the store of `u` is that of `w`, but
for the mark of the project. -/
structure Begun (config : Config) (id : ProjectId) (w : World) (c : Compilation)
    (base : LocalizationId) (entries : List StringTable.Entry) (u : World) : Prop where
  isProject : id < w.projects.size
  isBase : (w.project id).base = some base
  rows : baseEntries (w.project id).baseLanguage config c.lines = .ok entries
  store : (w.setBuilding id true).SameStore u
  sound : u.Sound

/-! ## The world in which the languages are looked at -/

namespace Begun

variable {config : Config} {id : ProjectId} {w u : World} {c : Compilation} {blob : Bytes}
  {base : LocalizationId} {entries : List StringTable.Entry}
  (h : Begun config id w c base entries u)

include h

theorem project_eq : u.project id = { w.project id with building := true } := by
  rw [h.store.project, World.project_setBuilding h.isProject]

theorem hasBase : (u.project id).base = some base := by
  rw [h.project_eq]
  exact h.isBase

theorem baseRows : baseEntries (u.project id).baseLanguage config c.lines = .ok entries := by
  rw [h.project_eq]
  exact h.rows

theorem isRegistered (blob : Bytes) : Registered (context config id base blob entries u)
    (registerBase base (u.project id).localizations) (registered id base blob u) :=
  isRegistered_registered config blob entries h.hasBase h.sound

theorem files_registered : (registered id base blob u).files = w.files :=
  h.store.files

theorem localization_registered {k : LocalizationId} (hk : k ≠ base) :
    (registered id base blob u).localization k = w.localization k :=
  (localization_registered_of_ne hk).trans (h.store.localization k)

theorem localization_registered_base : (registered id base blob u).localization base =
    { w.localization base with localeCode := (w.project id).baseLanguage } := by
  rw [localization_registered_self (h.sound.base id base h.hasBase), h.store.localization,
    h.project_eq]
  rfl

/-- Nothing that a language depends on is changed before the languages are looked at. -/
theorem alike (blob : Bytes) :
    (prospect config id base entries w).Alike (context config id base blob entries u) := by
  have hproject : (registered id base blob u).project id =
      { (u.project id).setBlob (some blob) with
        localizations := registerBase base (u.project id).localizations } :=
    project_registered (lt_size_of_base h.hasBase)
  constructor
  case config => rfl
  case entries => rfl
  all_goals
    rw [context, hproject, h.project_eq]
    rfl

theorem settlementOf_eq {k : LocalizationId} (hk : k ≠ base) :
    settlementOf (context config id base blob entries u) k (registered id base blob u) =
      settlementOf (prospect config id base entries w) k w := by
  rw [settlementOf, settlementOf, h.localization_registered hk, h.files_registered,
    (h.alike blob).settle]

theorem dueAt {k : LocalizationId} {p : String}
    (hdue : DueAt (context config id base blob entries u) (registered id base blob u) k p) :
    k ≠ base ∧ DueAt (prospect config id base entries w) w k p := by
  have hr := h.isRegistered blob
  have hk : k ≠ base := by
    rintro rfl
    have htable := hdue.table
    have hcode : ((registered id k blob u).localization k).localeCode =
        (context config id k blob entries u).project.baseLanguage := hr.code
    simp [hasTable, hcode, hr.language] at htable
  refine ⟨hk, ?_, ?_, ?_⟩
  · rw [← h.localization_registered hk, ← (h.alike blob).hasTable]
    exact hdue.table
  · rw [← h.localization_registered hk]
    exact hdue.missing
  · rw [← h.localization_registered hk, ← (h.alike blob).target, ← h.files_registered]
    exact hdue.target

theorem spared (blob : Bytes) {path : Value}
    (hspared : Spared (prospect config id base entries w)
      ((w.project id).localizations.filter (· ≠ base)) w path) :
    Spared (context config id base blob entries u)
      (registerBase base (u.project id).localizations) (registered id base blob u) path := by
  intro k hk p hdue hp
  obtain ⟨hother, hdue'⟩ := h.dueAt hdue
  have hlisted : k ∈ (w.project id).localizations.filter (· ≠ base) := by
    have hfilter : k ∈ (registerBase base (u.project id).localizations).filter (· ≠ base) := by
      simp [hk, hother]
    rwa [filter_registerBase, h.project_eq] at hfilter
  rw [h.files_registered, (h.alike blob).writeTable]
  exact hspared k hlisted p hdue' hp

/-- Nothing that an outcome depends on is changed before the languages are looked at. -/
theorem foretold_eq (blob : Bytes) (k : LocalizationId) :
    foretold (context config id base blob entries u) (registered id base blob u) k =
      foretold (prospect config id base entries w) w k := by
  have halike := h.alike blob
  by_cases hk : k = base
  case pos =>
    have hcontext : k = (context config id base blob entries u).base := hk
    have hprospect : k = (prospect config id base entries w).base := hk
    rw [foretold_of_eq hcontext, foretold_of_eq hprospect, halike.language, halike.noCodeMessage]
  case neg =>
    have hcontext : k ≠ (context config id base blob entries u).base := hk
    have hprospect : k ≠ (prospect config id base entries w).base := hk
    rw [foretold_of_ne hcontext, foretold_of_ne hprospect, h.settlementOf_eq hk]

theorem allSpared (blob : Bytes)
    (hspared : AllSpared (prospect config id base entries w)
      ((w.project id).localizations.filter (· ≠ base)) w) :
    AllSpared (context config id base blob entries u)
      (registerBase base (u.project id).localizations) (registered id base blob u) := by
  intro k hk hother
  have hne : k ≠ base := hother
  rw [h.localization_registered hne]
  refine h.spared blob (hspared k ?_ hother)
  have hfilter : k ∈ (registerBase base (u.project id).localizations).filter (· ≠ base) :=
    List.mem_filter.mpr ⟨hk, by simpa using hne⟩
  rwa [filter_registerBase, h.project_eq] at hfilter

theorem exists_place {k : LocalizationId} (hk : k ∈ (w.project id).localizations)
    (hother : k ≠ base) : ∃ i : Nat, (registerBase base (u.project id).localizations)[i]? =
      some k := by
  have hfilter : k ∈ (registerBase base (u.project id).localizations).filter (· ≠ base) := by
    rw [filter_registerBase, h.project_eq]
    simp [hk, hother]
  exact List.mem_iff_getElem?.mp (List.mem_filter.mp hfilter).1

end Begun

/-- A build that has been published by a compiler with a known compilation. -/
structure Foreseen (compiler : Compiler) (config : Config) (id : ProjectId) (w : World)
    (report : BuildReport) (w' : World) (c : Compilation) (blob : Bytes) (base : LocalizationId)
    (entries : List StringTable.Entry) (u v : World) : Prop
    extends Published compiler config id w report w' c blob base entries u v where
  begun : Begun config id w c base entries u

section Foreseen

variable {compiler : Compiler} {config : Config} {id : ProjectId} {w w' u v : World}
  {report : BuildReport} {c : Compilation} {blob : Bytes} {base : LocalizationId}
  {entries : List StringTable.Entry}

/-- A compiler that leaves the store alone leaves it to the languages as it was, but for the mark of
the project. -/
theorem sameStore_of_compiled (hcompiler : compiler.KeepsStore id) (hp : id < w.projects.size)
    (h : Stage.exec (compile compiler config ((w.setBuilding id true).project id))
      (w.setBuilding id true) = (.ok (.ok (c, blob)), u)) :
    (w.setBuilding id true).SameStore u := by
  have hharmless := harmless_compile (Action.ignoresLog_sameStore _)
    (hcompiler.keeps (by rw [World.project_setBuilding hp])) config
    ((w.setBuilding id true).project id) (w.setBuilding id true) (.refl _)
  rw [h] at hharmless
  exact hharmless.1

theorem begun_of_compiled (hw : w.Sound) (hcompiler : compiler.KeepsStore id)
    (hp : id < w.projects.size) (hbase : (w.project id).base = some base)
    (hrows : baseEntries (w.project id).baseLanguage config c.lines = .ok entries)
    (h : Stage.exec (compile compiler config ((w.setBuilding id true).project id))
      (w.setBuilding id true) = (.ok (.ok (c, blob)), u)) : Begun config id w c base entries u :=
  have hstore := sameStore_of_compiled hcompiler hp h
  ⟨hp, hbase, hrows, hstore, (hw.setBuilding id true).of_sameStore hstore⟩

theorem foreseen_of_published (hw : w.Sound) (hcompiler : compiler.KeepsStore id)
    (hp : id < w.projects.size)
    (h : Published compiler config id w report w' c blob base entries u v) :
    Foreseen compiler config id w report w' c blob base entries u v := by
  have hbase := h.hasBase
  have hrows := h.baseRows
  have hproject : u.project id = { w.project id with building := true } := by
    rw [(sameStore_of_compiled hcompiler hp h.compiled).project, World.project_setBuilding hp]
  rw [hproject] at hbase hrows
  exact { h with begun := begun_of_compiled hw hcompiler hp hbase hrows h.compiled }

theorem foreseen_of_build (hw : w.Sound) (hreturns : compiler.Returns id c)
    (h : (build compiler config (some id)).exec w = (.ok report, w'))
    (hok : report.status = .ok) :
    ∃ blob base entries u v,
      Foreseen compiler config id w report w' c blob base entries u v := by
  obtain ⟨c', blob, base, entries, u, v, hpublished⟩ := published_of_build h hok
  have hp := lt_size_of_precondition (precondition_of_build h hok)
  obtain ⟨job, w₁, output, -, hcall, -⟩ := called_of_compiled hpublished.compiled
  obtain ⟨w₂, hcall', -⟩ := hreturns job (w.setBuilding id true)
    (by rw [World.project_setBuilding hp])
  rw [hcall] at hcall'
  rw [Except.ok.inj (Prod.mk.inj hcall').1] at hpublished
  exact ⟨blob, base, entries, u, v, foreseen_of_published hw hreturns.keepsStore hp hpublished⟩

namespace Foreseen

variable (h : Foreseen compiler config id w report w' c blob base entries u v)

include h

/-! ## Languages at the end -/

section End

variable {i : Nat} {k : LocalizationId} (hsep : w.files.Separate)
  (hi : (registerBase base (u.project id).localizations)[i]? = some k) (hother : k ≠ base)
  (hspared : Spared (prospect config id base entries w)
    ((w.project id).localizations.filter (· ≠ base)) w (w.localization k).stringFile)

include hsep hi hother hspared

/-- The path and the file of a language at the end of a build. -/
theorem file_eq :
    (w'.localization k).stringFile =
        (settlementOf (prospect config id base entries w) k w).path ∧
      SameFile (settlementOf (prospect config id base entries w) k w).path
        (settlementOf (prospect config id base entries w) k w).files w'.files := by
  have hr := h.begun.isRegistered blob
  have hsep' : (registered id base blob u).files.Separate := by rwa [h.begun.files_registered]
  have hspared' := h.begun.spared blob hspared
  rw [← h.begun.localization_registered hother] at hspared'
  have hpath := path_of_run hr h.languages hi hsep' hspared'
  have hfile := file_of_run hr h.languages hi hsep' hspared'
  rw [h.begun.settlementOf_eq hother] at hpath hfile
  rw [h.final]
  exact ⟨hpath, hfile⟩

omit hi hother hspared in
/-- A file that is spared is at the end what it was. -/
theorem file_of_spared {path : Value} (hpath : Spared (prospect config id base entries w)
      ((w.project id).localizations.filter (· ≠ base)) w path) :
    SameFile path w.files w'.files := by
  have hr := h.begun.isRegistered blob
  have hsep' : (registered id base blob u).files.Separate := by rwa [h.begun.files_registered]
  have hend := progress_of_run hr hsep' h.languages (Nat.le_refl _)
  rw [worldAt_length h.languages] at hend
  have hfile := hend.spared (h.begun.spared blob hpath)
  rw [h.begun.files_registered] at hfile
  rw [h.final]
  exact hfile

/-- The outcome of a language, and the localization that stands in its slot at the end of a
build. -/
theorem outcome_eq :
    ∃ o, (settlementOf (prospect config id base entries w) k w).outcome = .ok o ∧
      Accounted (context config id base blob entries u)
        (registerBase base (u.project id).localizations) (registered id base blob u) w' i k o ∧
      ∃ k', (w'.project id).localizations[i]? = some k' ∧
        w'.localization k' = settled (w.localization k) o
          (settlementOf (prospect config id base entries w) k w).path := by
  have hr := h.begun.isRegistered blob
  have hsep' : (registered id base blob u).files.Separate := by rwa [h.begun.files_registered]
  have hspared' := h.begun.spared blob hspared
  rw [← h.begun.localization_registered hother] at hspared'
  obtain ⟨o, ho, hpassage⟩ := passage_of_run hr h.languages hi hsep' hspared' hother
  have hpassage' := hpassage.setBuilding false
  obtain ⟨k', hslot, hfinal⟩ := final_of_passage hr hi hother hpassage'
  obtain ⟨hpath, -⟩ := h.file_eq hsep hi hother hspared
  have hw' : w' = v.setBuilding id false := h.final
  rw [h.begun.settlementOf_eq hother] at ho
  rw [h.begun.localization_registered hother] at hfinal
  rw [hw'] at hpath ⊢
  exact ⟨o, ho, accounted_of_passage hr hi hpassage', k', hslot, by rw [← hpath]; exact hfinal⟩

end End

/-! ## All languages -/

/-- The code of a localization while the languages are looked at. -/
theorem code_registered (k : LocalizationId) :
    ((registered id base blob u).localization k).localeCode =
      if k = base then (w.project id).baseLanguage else (w.localization k).localeCode := by
  by_cases hk : k = base
  · subst hk
    rw [h.begun.localization_registered_base, if_pos rfl]
  · rw [h.begun.localization_registered hk, if_neg hk]

section Whole

variable (hsep : w.files.Separate)

include hsep

theorem quiet : Quiet (prospect config id base entries w) w' := by
  have hr := h.begun.isRegistered blob
  have hsep' : (registered id base blob u).files.Separate := by rwa [h.begun.files_registered]
  obtain ⟨i, hi⟩ := List.mem_iff_getElem?.mp hr.mem
  have hquiet := quiet_of_run hr h.languages hsep' hi
  rw [Quiet, (h.begun.alike blob).language] at hquiet
  rw [h.final]
  exact hquiet

theorem base_alike :
    (refilled (prospect config id base entries w)
      { w.localization base with localeCode := (w.project id).baseLanguage }).Alike
      (w'.localization base) := by
  have hr := h.begun.isRegistered blob
  have hsep' : (registered id base blob u).files.Separate := by rwa [h.begun.files_registered]
  obtain ⟨i, hi⟩ := List.mem_iff_getElem?.mp hr.mem
  have hbase := base_of_run hr h.languages hsep' hi
  rw [(h.begun.alike blob).refilled] at hbase
  change (refilled _ ((registered id base blob u).localization base)).Alike _ at hbase
  rw [h.begun.localization_registered_base] at hbase
  rw [h.final]
  exact hbase

variable (hspared : AllSpared (prospect config id base entries w)
  ((w.project id).localizations.filter (· ≠ base)) w)

include hspared

/-- The report of a build can be told before it. -/
theorem report_eq :
    let ids := registerBase base (w.project id).localizations
    ∃ outcomes : List Outcome,
      ids.map (foretold (prospect config id base entries w) w) = outcomes.map Except.ok ∧
      report = noteAll {} ((ids.map fun k => if k = base then (w.project id).baseLanguage
        else (w.localization k).localeCode).zip outcomes) := by
  have hr := h.begun.isRegistered blob
  have hsep' : (registered id base blob u).files.Separate := by rwa [h.begun.files_registered]
  obtain ⟨outcomes, houtcomes, hreport⟩ :=
    report_of_run hr h.languages hsep' (h.begun.allSpared blob hspared)
  rw [funext (h.begun.foretold_eq blob)] at houtcomes
  simp only [h.code_registered, h.begun.project_eq] at houtcomes hreport
  exact ⟨outcomes, houtcomes, hreport⟩

theorem succession :
    List.Forall₂ (Succession (prospect config id base entries w) w w')
      (registerBase base (w.project id).localizations) (w'.project id).localizations := by
  have hr := h.begun.isRegistered blob
  have hsep' : (registered id base blob u).files.Separate := by rwa [h.begun.files_registered]
  have hslots := succession_of_run hr h.languages hsep' (h.begun.allSpared blob hspared)
  have hlist : registerBase base (u.project id).localizations =
      registerBase base (w.project id).localizations := by rw [h.begun.project_eq]
  have hw' : w' = v.setBuilding id false := h.final
  rw [hlist] at hslots
  rw [hw', World.localizations_setBuilding]
  refine hslots.imp fun k k' hslot => ⟨hslot.isBase, fun hother => ?_, fun hother => ?_⟩
  · obtain ⟨o, ho, hfinal⟩ := hslot.final hother
    rw [h.begun.settlementOf_eq hother] at ho hfinal
    rw [h.begun.localization_registered hother] at hfinal
    exact ⟨o, ho, hfinal⟩
  · have hfile := hslot.file hother
    rwa [h.begun.settlementOf_eq hother] at hfile

end Whole

end Foreseen

end Foreseen

end Build

end Dialogue
