import Dialogue.Document
import Dialogue.Proofs.Build.Forecast

/-! A build that is done once more with the same compilation comes to the same report and changes
nothing that is kept. The first build may generate tables, record their paths and replace
localizations; the second one reads these tables, and whatever was refused in the first one is
refused again. -/

namespace Dialogue

/-- The document of a project depends on its localizations only through what is persisted of them,
and on the base only through its place. -/
theorem World.projectDocument_congr {w v : World} {p : Project} {base : LocalizationId}
    {ids : List LocalizationId} (version : Nat) (building : Bool) (hbase : p.base = some base)
    (hown : (w.localization base).Alike (v.localization base))
    (hlist : List.Forall₂ (fun k k' => (k = base ↔ k' = base) ∧
      (w.localization k).Alike (v.localization k')) p.localizations ids) :
    v.projectDocument { p with blobVersion := version, localizations := ids, building } =
      w.projectDocument p := by
  have hplace : ids.idxOf? base = p.localizations.idxOf? base :=
    Build.idxOf?_eq_of_forall₂ (hlist.imp fun _ _ => And.left)
  have hvalues : (ids.map v.localization).map Localization.toValue =
      (p.localizations.map w.localization).map Localization.toValue := by
    rw [List.map_map, List.map_map]
    exact Build.map_eq_of_forall₂ (hlist.imp fun _ _ h => h.2.toValue)
  simp only [projectDocument, Draft.ofProject, hbase, hplace]
  cases p.localizations.idxOf? base with
  | none =>
      change Draft.toValue _ = Draft.toValue _
      simp only [Draft.toValue, hvalues, hown.toValue]
  | some place =>
      change Draft.toValue _ = Draft.toValue _
      simp only [Draft.toValue, hvalues]

namespace Build

open FileSystem (SameFile)

/-! ## Languages looked at again -/

section Again

variable {c : Context} {fs fs' : FileSystem} {code path : Value}

/-- A language comes to the same when it is looked at again with the path and the file that have
been left for it, and its path stays. -/
theorem settle_again (horderly : fs.Orderly) (hlater : fs.Later fs')
    (hfile : SameFile (settle c fs code path).path (settle c fs code path).files fs') :
    (settle c fs' code (settle c fs code path).path).outcome = (settle c fs code path).outcome ∧
      (settle c fs' code (settle c fs code path).path).path = (settle c fs code path).path := by
  cases htable : hasTable c code with
  | false =>
      rw [settle_of_hasTable_eq_false htable, settle_of_hasTable_eq_false htable]
      exact ⟨rfl, rfl⟩
  | true =>
      rw [settle_of_hasTable htable] at hfile ⊢
      rw [settle_of_hasTable htable]
      have htarget := target_of_later hlater (c := c) code
      rcases resolve_cases c fs code path with
        ⟨hpath, hr⟩ | ⟨-, e, hnone, hr⟩ | ⟨-, p, e, hp, hwrite, hr⟩ | ⟨-, p, hp, hwrite, hr⟩ <;>
        rw [hr] at hfile ⊢
      · rw [resolve_of_ne_null hpath, rowsAt_of_sameFile _ hfile]
        exact ⟨rfl, rfl⟩
      · rw [resolve_of_noTarget (htarget.trans hnone)]
        exact ⟨rfl, rfl⟩
      · have hwrite' : (writeTable c fs' p).1 = .error e :=
          (horderly.steady hlater p _ _).trans hwrite
        rw [resolve_of_refused (htarget.trans hp) hwrite']
        exact ⟨rfl, rfl⟩
      · rw [resolve_of_ne_null (by simp), rowsAt_of_sameFile _ hfile]
        exact ⟨rfl, rfl⟩

/-- A table for which no path is on record after it has been looked for has been refused. -/
theorem refused_of_settled {p : String} (htable : hasTable c code = true)
    (htarget : target c fs code = .ok p) (hpath : (settle c fs code path).path = .null) :
    ∃ e, (writeTable c fs p).1 = .error e := by
  rw [settle_of_hasTable htable] at hpath
  rcases resolve_cases c fs code path with
    ⟨hne, hr⟩ | ⟨-, e, hnone, -⟩ | ⟨-, p', e, hp', hwrite, -⟩ | ⟨-, p', -, -, hr⟩
  · rw [hr] at hpath
    exact absurd hpath hne
  · rw [htarget] at hnone
    cases hnone
  · rw [htarget] at hp'
    exact ⟨e, by rw [Except.ok.inj hp', hwrite]⟩
  · rw [hr] at hpath
    cases hpath

end Again

section Succession

variable {c : Context} {w w' : World} {k k' : LocalizationId} (h : Succession c w w' k k')
  (hother : k ≠ c.base) (horderly : w.files.Orderly) (hlater : w.files.Later w'.files)

include h hother

theorem Succession.localeCode :
    (w'.localization k').localeCode = (w.localization k).localeCode := by
  obtain ⟨o, -, hfinal⟩ := h.final hother
  rw [hfinal]
  cases o <;> rfl

theorem Succession.stringFile : (w'.localization k').stringFile = (settlementOf c k w).path := by
  obtain ⟨o, -, hfinal⟩ := h.final hother
  rw [hfinal, stringFile_settled]

include horderly hlater

theorem Succession.again : (settlementOf c k' w').outcome = (settlementOf c k w).outcome ∧
    (settlementOf c k' w').path = (w'.localization k').stringFile := by
  rw [settlementOf, h.localeCode hother, h.stringFile hother]
  exact settle_again horderly hlater (h.file hother)

/-- A table that is still due is refused once more, and nothing is stored. -/
theorem Succession.refused {p : String} (hdue : DueAt c w' k' p) :
    (writeTable c w'.files p).2 = w'.files := by
  have htable := hdue.table
  have htarget := hdue.target
  have hmissing := hdue.missing
  rw [h.localeCode hother] at htable htarget
  rw [target_of_later hlater] at htarget
  rw [h.stringFile hother] at hmissing
  obtain ⟨e, he⟩ := refused_of_settled htable htarget hmissing
  exact horderly.refused hlater p _ _ e ((horderly.steady hlater p _ _).trans he)

end Succession

/-! ## Generated tables -/

/-- A localization had no table, and then one is on record at a path. -/
structure Generated (w w' : World) (k : LocalizationId) (p : String) : Prop where
  missing : (w.localization k).stringFile = .null
  recorded : (w'.localization k).stringFile = .text p

section First

variable {compiler : Compiler} {config : Config} {id : ProjectId} {w w' u v : World}
  {report : BuildReport} {c : Compilation} {blob : Bytes} {base : LocalizationId}
  {entries : List StringTable.Entry}
  (h : Foreseen compiler config id w report w' c blob base entries u v)

namespace Foreseen

include h

/-! ## After the first build -/

/-- Of the project itself the program, the list and the mark are written. -/
theorem project_eq : w'.project id = { (w.project id).setBlob (some blob) with
    localizations := (w'.project id).localizations
    building := false } := by
  obtain ⟨hframe, -⟩ := h.toPublished.passages h.begun.sound
  have hproject : w'.project id = { (registered id base blob u).project id with
      localizations := (w'.project id).localizations
      building := (w'.project id).building } := hframe.project
  have hbuilding : (w'.project id).building = false := by
    have hlt : id < (v.setBuilding id false).projects.size := by
      rw [← h.final, hframe.projects, size_projects_registered]
      exact lt_size_of_base h.hasBase
    rw [World.setBuilding, World.size_setProject] at hlt
    rw [h.final, World.project_setBuilding hlt]
  rw [hbuilding, project_registered (lt_size_of_base h.hasBase), h.begun.project_eq] at hproject
  exact hproject

theorem sound_final : w'.Sound := by
  rw [h.final]
  exact (sound_of_run
    (sound_registered h.begun.sound h.hasBase blob) h.languages).setBuilding id false

theorem later (hsep : w.files.Separate) : w.files.Later w'.files := by
  have hr := h.begun.isRegistered blob
  have hsep' : (registered id base blob u).files.Separate := by rwa [h.begun.files_registered]
  have hlater := (advanced_of_run hr h.languages hsep').later
  rw [h.begun.files_registered] at hlater
  rw [h.final]
  exact hlater

/-- What the languages have in common is the same as before. -/
theorem prospect_alike :
    (prospect config id base entries w).Alike (prospect config id base entries w') := by
  constructor
  case config => rfl
  case entries => rfl
  all_goals
    rw [prospect, h.project_eq]
    rfl

/-- A table that is due and is taken is generated. -/
theorem generated (hsep : w.files.Separate) {k : LocalizationId}
    (hk : k ∈ (w.project id).localizations) (hother : k ≠ base) {p : String}
    (hdue : DueAt (prospect config id base entries w) w k p)
    (hwrite : (writeTable (prospect config id base entries w) w.files p).1 = .ok ()) :
    Generated w w' k p := by
  obtain ⟨i, hi⟩ := h.begun.exists_place hk hother
  have hspared : Spared (prospect config id base entries w)
      ((w.project id).localizations.filter (· ≠ base)) w (w.localization k).stringFile := by
    rw [hdue.missing]
    exact spared_null _ _ _
  obtain ⟨hpath, -⟩ := h.file_eq hsep hi hother hspared
  exact ⟨hdue.missing, by rw [hpath, (settlementOf_of_dueAt hdue hwrite).1]⟩

variable (horderly : w.files.Orderly)

include horderly

/-- A path at which no table is generated is spared. -/
theorem spared_of_not_generated {path : Value}
    (hpath : ∀ k ∈ (w.project id).localizations, ∀ p, Generated w w' k p → path ≠ .text p) :
    Spared (prospect config id base entries w) ((w.project id).localizations.filter (· ≠ base)) w
      path := by
  intro k hk p hdue hp
  obtain ⟨hlisted, hother⟩ := List.mem_filter.mp hk
  cases hwrite : (writeTable (prospect config id base entries w) w.files p).1 with
  | ok _ =>
      have hgenerated := h.generated horderly.separate hlisted (by simpa using hother) hdue hwrite
      exact absurd hp (hpath k hlisted p hgenerated)
  | error e =>
      have hstored : (writeTable (prospect config id base entries w) w.files p).2 = w.files :=
        horderly.refused .refl p _ _ e hwrite
      rw [hstored]
      exact .refl _ _

variable (hspared : AllSpared (prospect config id base entries w)
  ((w.project id).localizations.filter (· ≠ base)) w)

include hspared

/-! ## Before the second build -/

theorem spared_again (path : Value) : Spared (prospect config id base entries w')
    ((w'.project id).localizations.filter (· ≠ base)) w' path := by
  have hsep := horderly.separate
  have halike := h.prospect_alike
  intro k' hk' p hdue _
  obtain ⟨hlisted, hother'⟩ := List.mem_filter.mp hk'
  obtain ⟨k, -, hslot⟩ := exists_of_forall₂ (h.succession hsep hspared) hlisted
  have hisBase : k = base ↔ k' = base := hslot.isBase
  have hother : k ≠ base := fun hbase => absurd (hisBase.mp hbase) (by simpa using hother')
  have hdue' : DueAt (prospect config id base entries w) w' k' p :=
    ⟨by rw [← halike.hasTable, hdue.table], hdue.missing, by rw [← halike.target, hdue.target]⟩
  rw [halike.writeTable, hslot.refused hother horderly (h.later hsep) hdue']
  exact .refl _ _

/-- Every localization comes to what that in its place has come to before. -/
theorem foretold_again :
    (w'.project id).localizations.map (foretold (prospect config id base entries w') w') =
      (registerBase base (w.project id).localizations).map
        (foretold (prospect config id base entries w) w) := by
  have hsep := horderly.separate
  have halike := h.prospect_alike
  refine map_eq_of_forall₂ ((h.succession hsep hspared).imp fun k k' hslot => ?_)
  by_cases hbase : k = (prospect config id base entries w).base
  case pos =>
    have hbase' : k' = (prospect config id base entries w').base := hslot.isBase.mp hbase
    rw [foretold_of_eq hbase, foretold_of_eq hbase', halike.language, halike.noCodeMessage]
  case neg =>
    have hbase' : k' ≠ (prospect config id base entries w').base := fun h' =>
      hbase (hslot.isBase.mpr h')
    rw [foretold_of_ne hbase, foretold_of_ne hbase', settlementOf, halike.settle]
    exact (hslot.again hbase horderly (h.later hsep)).1

theorem codes_again :
    ((w'.project id).localizations.map fun k => if k = base then (w'.project id).baseLanguage
      else (w'.localization k).localeCode) =
    (registerBase base (w.project id).localizations).map fun k =>
      if k = base then (w.project id).baseLanguage else (w.localization k).localeCode := by
  refine map_eq_of_forall₂ ((h.succession horderly.separate hspared).imp fun k k' hslot => ?_)
  have hisBase : k = base ↔ k' = base := hslot.isBase
  by_cases hbase : k = base
  case pos =>
    rw [if_pos hbase, if_pos (hisBase.mp hbase), h.project_eq]
    rfl
  case neg =>
    rw [if_neg hbase, if_neg fun h' => hbase (hisBase.mpr h'), hslot.localeCode hbase]

/-- The base is listed, and only once. -/
theorem registerBase_again :
    registerBase base (w'.project id).localizations = (w'.project id).localizations := by
  have hslots : List.Forall₂ (fun k k' => k = base ↔ k' = base)
      (registerBase base (w.project id).localizations) (w'.project id).localizations :=
    (h.succession horderly.separate hspared).imp fun _ _ hslot => hslot.isBase
  refine registerBase_of_count ?_
  rw [count_eq_of_forall₂ hslots, count_registerBase]

omit horderly hspared in
theorem base_final : (w'.project id).base = some base := by
  rw [h.project_eq]
  exact h.begun.isBase

omit horderly hspared in
/-- What has been compiled is compiled again from sources that are the same. -/
theorem compiled_again {compiler' : Compiler} (hreturns : compiler'.Returns id c)
    (hsources : ∀ path ∈ (w.project id).sources, SameFile path w.files w'.files) :
    ∃ text declarations u, Compiled compiler' config ((w'.setBuilding id true).project id) c blob
      text declarations (w'.setBuilding id true) u ∧ (w'.setBuilding id true).SameStore u := by
  have hmarked := World.project_setBuilding (b := true) h.begun.isProject
  have hmarked' := World.project_setBuilding (b := true) (lt_size_of_base h.base_final)
  obtain ⟨text, declarations, w₁, hcompiled, -⟩ := compiled_of_exec h.compiled
  obtain ⟨w₁', hcall, hstore⟩ := hreturns
    ⟨((w'.setBuilding id true).project id).sourceName, text, declarations⟩
    (w'.setBuilding id true) (by rw [hmarked'])
  refine ⟨text, declarations, w₁', ⟨?_, hcompiled.content, ?_, hcall, hcompiled.errors,
    hcompiled.program⟩, hstore⟩
  · have hlisted : ((w'.setBuilding id true).project id).sources = (w.project id).sources := by
      rw [hmarked', h.project_eq]
      rfl
    have hgathered := exec_gatherText_fst config.encoding
      (w := w.setBuilding id true) (u := w'.setBuilding id true)
      (fun path hpath => (hsources path hpath).sameAt.existsAt)
      fun path hpath => (hsources path hpath).readText config.encoding
    have hsources := hcompiled.sources
    rw [hmarked] at hsources
    rw [hlisted]
    refine Prod.ext ?_ (exec_gatherText_snd config.encoding _ _)
    rw [hgathered, hsources]
  · have hadapted := hcompiled.adapted
    rw [hmarked] at hadapted
    rw [hmarked', h.project_eq]
    exact hadapted

omit horderly hspared in
/-- The build can be done again, and it comes to the compilation that it has come to before. -/
theorem begun_again {compiler' : Compiler} (hreturns : compiler'.Returns id c)
    (hadmitted : precondition (w.project id) = .ok ())
    (hsources : ∀ path ∈ (w.project id).sources, SameFile path w.files w'.files) :
    ∃ u', Begun config id w' c base entries u' ∧
      (build compiler' config (some id)).exec w' =
        (((publish config id c blob).exec u').1,
          ((publish config id c blob).exec u').2.setBuilding id false) := by
  have hproject := h.project_eq
  obtain ⟨text, declarations, u, hcompiled, hstore⟩ := h.compiled_again hreturns hsources
  have hadmitted' : precondition (w'.project id) = .ok () := by
    rw [hproject]
    exact hadmitted
  obtain ⟨u', hsame, hbuild⟩ :=
    exec_build_of_compiled hadmitted' (by rw [hproject]) hcompiled
  refine ⟨u', ⟨lt_size_of_base h.base_final, h.base_final, ?_, hstore.trans hsame, ?_⟩, hbuild⟩
  · rw [hproject]
    exact h.begun.rows
  · exact (h.sound_final.setBuilding id true).of_sameStore (hstore.trans hsame)

/-- The languages can be looked at again without an end to the build. -/
theorem run_again {u' : World} (hbegun : Begun config id w' c base entries u') :
    ∃ report' v', (publish config id c blob).exec u' = (.ok report', v') := by
  have hsep := horderly.separate
  have hr := hbegun.isRegistered blob
  have hsep' : (registered id base blob u').files.Separate := by
    rw [hbegun.files_registered]
    exact (horderly.later (h.later hsep)).separate
  have hspared' := hbegun.allSpared blob fun _ _ _ => h.spared_again horderly hspared _
  have hquiet : Quiet (context config id base blob entries u') (registered id base blob u') := by
    have hlisteners : ((registered id base blob u').localization base).listeners =
        (w'.localization base).listeners := by rw [hbegun.localization_registered_base]
    have hquiet := h.quiet hsep
    rw [Quiet, ← h.prospect_alike.language, ← (hbegun.alike blob).language] at hquiet
    rw [Quiet, show (context config id base blob entries u').base = base from rfl, hlisteners]
    exact hquiet
  have hforetold : ∀ k ∈ registerBase base (u'.project id).localizations, ∃ o,
      foretold (context config id base blob entries u') (registered id base blob u') k = .ok o := by
    intro k hk
    obtain ⟨outcomes, houtcomes, -⟩ := h.report_eq hsep hspared
    have hlist : registerBase base (u'.project id).localizations =
      (w'.project id).localizations := by
      rw [hbegun.project_eq]
      exact h.registerBase_again horderly hspared
    rw [hlist] at hk
    have hmem := List.mem_map_of_mem (f := foretold (prospect config id base entries w') w') hk
    rw [h.foretold_again horderly hspared, houtcomes] at hmem
    obtain ⟨o, -, ho⟩ := List.mem_map.mp hmem
    exact ⟨o, by rw [hbegun.foretold_eq, ho]⟩
  obtain ⟨report', v', hrun⟩ := returns_of_foretold hr hsep' hspared' hquiet hforetold
  rw [exec_publish hbegun.hasBase, hbegun.baseRows]
  exact ⟨report', v', hrun⟩

/-- A language is not changed by what it comes to again. -/
theorem settled_again {k' : LocalizationId} (hk' : k' ∈ (w'.project id).localizations)
    (hother' : k' ≠ base) :
    ∃ o, (settlementOf (prospect config id base entries w') k' w').outcome = .ok o ∧
      settled (w'.localization k') o
        (settlementOf (prospect config id base entries w') k' w').path = w'.localization k' := by
  have hsep := horderly.separate
  obtain ⟨k, -, hslot⟩ := exists_of_forall₂ (h.succession hsep hspared) hk'
  have hisBase : k = base ↔ k' = base := hslot.isBase
  have hother : k ≠ base := fun hbase => hother' (hisBase.mp hbase)
  obtain ⟨o, ho, hfinal⟩ := hslot.final hother
  obtain ⟨houtcome, hpath⟩ := hslot.again hother horderly (h.later hsep)
  rw [settlementOf, h.prospect_alike.settle]
  refine ⟨o, houtcome.trans ho, ?_⟩
  change settled _ o (settlementOf (prospect config id base entries w) k' w').path = _
  rw [hpath, hslot.stringFile hother, hfinal, settled_settled]

omit hspared in
theorem refilled_again :
    (w'.localization base).Alike (refilled (prospect config id base entries w')
      { w'.localization base with localeCode := (w'.project id).baseLanguage }) := by
  have hbase := h.base_alike horderly.separate
  have hlanguage : (w'.project id).baseLanguage = (w.project id).baseLanguage := by
    rw [h.project_eq]
    rfl
  rw [h.prospect_alike.refilled, hlanguage]
  rw [refilled] at hbase ⊢
  split at hbase
  · rename_i htruthy
    rw [if_pos htruthy]
    exact ⟨hbase.localeCode.symm, rfl, rfl, rfl, hbase.texts.symm, hbase.assets.symm⟩
  · rename_i htruthy
    rw [if_neg htruthy]
    exact ⟨hbase.localeCode.symm, rfl, rfl, rfl, rfl, rfl⟩

end Foreseen

end First

/-! ## After the second build -/

section Second

variable {compiler compiler' : Compiler} {config : Config} {id : ProjectId}
  {w w' w'' u v u' v' : World}
  {report report' : BuildReport} {c : Compilation} {blob blob' : Bytes} {base : LocalizationId}
  {entries : List StringTable.Entry}
  (h : Foreseen compiler config id w report w' c blob base entries u v)
  (h' : Foreseen compiler' config id w' report' w'' c blob' base entries u' v')
  (horderly : w.files.Orderly)
  (hspared : AllSpared (prospect config id base entries w)
    ((w.project id).localizations.filter (· ≠ base)) w)

include h h'

/-- The program is the same again, for both come from one compilation. -/
theorem blob_again : blob' = blob := by
  obtain ⟨_, _, output, _, _, _, _, hprogram, hserialize⟩ := called_of_compiled h.compiled
  obtain ⟨_, _, output', _, _, _, _, hprogram', hserialize'⟩ := called_of_compiled h'.compiled
  rw [hprogram] at hprogram'
  rw [← Option.some.inj hprogram', hserialize] at hserialize'
  exact (Except.ok.inj hserialize').symm

include horderly

theorem sameFile_again
    (hspared : AllSpared (prospect config id base entries w)
      ((w.project id).localizations.filter (· ≠ base)) w) (path : Value) :
    SameFile path w'.files w''.files :=
  h'.file_of_spared (horderly.later (h.later horderly.separate)).separate
    (h.spared_again horderly hspared path)

theorem base_again : (w'.localization base).Alike (w''.localization base) :=
  (h.refilled_again horderly).trans (h'.base_alike
    (horderly.later (h.later horderly.separate)).separate)

include hspared

theorem report_again : report' = report := by
  have hsep := horderly.separate
  have hsep' := (horderly.later (h.later hsep)).separate
  obtain ⟨outcomes, houtcomes, hreport⟩ := h.report_eq hsep hspared
  obtain ⟨outcomes', houtcomes', hreport'⟩ :=
    h'.report_eq hsep' fun _ _ _ => h.spared_again horderly hspared _
  rw [h.registerBase_again horderly hspared] at houtcomes' hreport'
  rw [h.foretold_again horderly hspared, houtcomes] at houtcomes'
  have hsame : outcomes = outcomes' :=
    List.map_injective_iff.mpr (fun _ _ => Except.ok.inj) houtcomes'
  rw [hreport', h.codes_again horderly hspared, ← hsame, hreport]

/-- In every place of the list stands a localization like the one before. -/
theorem alike_again :
    List.Forall₂ (fun k k' => (k = base ↔ k' = base) ∧
      (w'.localization k).Alike (w''.localization k'))
      (w'.project id).localizations (w''.project id).localizations := by
  have hsep' := (horderly.later (h.later horderly.separate)).separate
  have hslots := h'.succession hsep' fun _ _ _ => h.spared_again horderly hspared _
  rw [h.registerBase_again horderly hspared] at hslots
  have hlisted := (List.forall₂_and_left (p := (· ∈ (w'.project id).localizations)) _ _).mpr
    ⟨fun _ hk => hk, hslots⟩
  refine hlisted.imp fun k k' ⟨hk, hslot⟩ => ?_
  have hisBase : k = base ↔ k' = base := hslot.isBase
  refine ⟨hisBase, ?_⟩
  by_cases hbase : k = base
  case pos =>
    rw [hbase, hisBase.mp hbase]
    exact base_again h h' horderly
  case neg =>
    obtain ⟨o, ho, hfinal⟩ := hslot.final hbase
    obtain ⟨o', ho', hsettled⟩ := h.settled_again horderly hspared hk hbase
    rw [ho] at ho'
    rw [hfinal, Except.ok.inj ho', hsettled]
    exact .refl _

omit hspared in
/-- No localization there is has other assets than before, listed or not. -/
theorem assets_again {k : LocalizationId} (hk : k < w'.localizations.size) :
    (w''.localization k).assets = (w'.localization k).assets := by
  by_cases hbase : k = base
  case pos =>
    rw [hbase]
    exact (base_again h h' horderly).assets
  case neg =>
    obtain ⟨hframe, -⟩ := h'.toPublished.passages h'.begun.sound
    have hlt : k < (registered id base blob' u').localizations.size := by
      rw [size_registered, h'.begun.store.localizations]
      exact hk
    rw [(hframe.recorded k hlt hbase).assets, h'.begun.localization_registered hbase]

theorem document_again :
    w''.projectDocument (w''.project id) = w'.projectDocument (w'.project id) := by
  have hproject := h'.project_eq
  have hblob : (w'.project id).blob = some blob := by rw [h.project_eq]; rfl
  rw [blob_again h h', ← hblob] at hproject
  rw [hproject]
  exact World.projectDocument_congr _ _ h'.begun.isBase (base_again h h' horderly)
    (alike_again h h' horderly hspared)

end Second

end Build

/-- A build that reports success can be done again with the same compilation: it comes to the same
report, and neither the document of the project nor an asset table nor a file is changed. In every
place of the list stands a localization like the one before. -/
theorem build_idempotent {compiler compiler' : Compiler} {config : Config} {id : ProjectId}
    {w w' : World} {report : BuildReport} {c : Compilation} (hsound : w.Sound)
    (horderly : w.files.Orderly) (hreturns : compiler.Returns id c)
    (hreturns' : compiler'.Returns id c)
    (hgenerated : ∀ k ∈ (w.project id).localizations, ∀ p, Build.Generated w w' k p →
      .text p ∉ (w.project id).sources ∧
      ∀ k' ∈ (w.project id).localizations, (w.localization k').stringFile ≠ .text p)
    (h : (build compiler config (some id)).exec w = (.ok report, w'))
    (hok : report.status = .ok) :
    ∃ w'', (build compiler' config (some id)).exec w' = (.ok report, w'') ∧
      w''.projectDocument (w''.project id) = w'.projectDocument (w'.project id) ∧
      List.Forall₂ (fun k k' => (w'.localization k).Alike (w''.localization k'))
        (w'.project id).localizations (w''.project id).localizations ∧
      (∀ k < w'.localizations.size, (w''.localization k).assets = (w'.localization k).assets) ∧
      ∀ path, FileSystem.SameFile path w'.files w''.files := by
  obtain ⟨blob, base, entries, u, v, hforeseen⟩ := Build.foreseen_of_build hsound hreturns h hok
  have hspared : Build.AllSpared (Build.prospect config id base entries w)
      ((w.project id).localizations.filter (· ≠ base)) w := fun k hk _ =>
    hforeseen.spared_of_not_generated horderly fun j hj p hp =>
      (hgenerated j hj p hp).2 k (List.mem_filter.mp hk).1
  have hsources : ∀ path ∈ (w.project id).sources, FileSystem.SameFile path w.files w'.files :=
    fun path hpath => hforeseen.file_of_spared horderly.separate
      (hforeseen.spared_of_not_generated horderly fun j hj p hp hsame =>
        (hgenerated j hj p hp).1 (hsame ▸ hpath))
  obtain ⟨u', hbegun, hbuild⟩ :=
    hforeseen.begun_again hreturns' (Build.precondition_of_build h hok) hsources
  obtain ⟨report', v', hpublish⟩ := hforeseen.run_again horderly hspared hbegun
  rw [hpublish] at hbuild
  obtain ⟨blob', base', entries', u₂, v₂, hforeseen'⟩ := Build.foreseen_of_build
    hforeseen.sound_final hreturns' hbuild (Build.status_publish hpublish)
  obtain rfl : base = base' := by
    have hbase := hforeseen'.begun.isBase
    rw [hbegun.isBase] at hbase
    exact Option.some.inj hbase
  obtain rfl : entries = entries' := by
    have hrows := hforeseen'.begun.rows
    rw [hbegun.rows] at hrows
    exact Except.ok.inj hrows
  rw [Build.report_again hforeseen hforeseen' horderly hspared] at hbuild
  exact ⟨_, hbuild, Build.document_again hforeseen hforeseen' horderly hspared,
    (Build.alike_again hforeseen hforeseen' horderly hspared).imp fun _ _ => And.right,
    fun k => Build.assets_again hforeseen hforeseen' horderly,
    Build.sameFile_again hforeseen hforeseen' horderly hspared⟩

theorem build_idempotent_untranslated :
    ∃ report w' w'',
      (build (.returning .greeting) {} (some 0)).exec World.untranslated = (.ok report, w') ∧
      Build.Generated World.untranslated w' 1 "intro(de).csv.tres" ∧
      (build (.returning .greeting) {} (some 0)).exec w' = (.ok report, w'') ∧
      w''.projectDocument (w''.project 0) = w'.projectDocument (w'.project 0) ∧
      ∀ path, FileSystem.SameFile path w'.files w''.files := by
  obtain ⟨report, w', h, hok⟩ := Action.exec_eq_ok_of_map
    (a := build (.returning .greeting) {} (some 0)) (w := World.untranslated)
    (f := BuildReport.status) (y := .ok) (by decide +kernel)
  have hpath : (((build (.returning .greeting) {} (some 0)).exec World.untranslated).2.localization
      1).stringFile.text? = some "intro(de).csv.tres" := by decide +kernel
  rw [h] at hpath
  have hrecorded : (w'.localization 1).stringFile = .text "intro(de).csv.tres" := by
    unfold Value.text? at hpath
    split at hpath
    · rename_i p hp
      rw [hp, Option.some.inj hpath]
    · cases hpath
  obtain ⟨w'', hagain, hdocument, -, -, hfiles⟩ :=
    build_idempotent World.sound_untranslated (FileSystem.orderly_memory _)
      (Compiler.returns_returning _ _) (Compiler.returns_returning _ _)
      (fun k hk p hp => by
        obtain rfl : k = 1 := List.mem_singleton.mp hk
        have hsame := hp.recorded
        rw [hrecorded] at hsame
        rw [← hsame]
        exact ⟨by simp [World.untranslated, World.project],
          by simp [World.untranslated, World.project, World.localization]⟩) h hok
  exact ⟨report, w', w'', h, ⟨rfl, hrecorded⟩, hagain, hdocument, hfiles⟩

end Dialogue
