import Dialogue.Proofs.Build.Forecast
import Dialogue.Proofs.Config
import Dialogue.Proofs.Files.Answers

/-! Whatever fails in a build is reported: it rejects the build, or it skips a language. Two kinds
of faults are neither, and end the build when the program has been published: that of a listener,
and that of a text that the encoding of a generated table cannot take. -/

namespace Dialogue

/-- A project whose paths and defaults are texts. Paths may be missing. -/
structure World.Typed (w : World) (id : ProjectId) : Prop where
  path : (w.project id).path.IsPath
  sources : ∀ source ∈ (w.project id).sources, source.IsPath
  defaults : ∀ d ∈ (w.project id).declarations, ∃ text, d.default = .text text
  stringFiles : ∀ k ∈ (w.project id).localizations, (w.localization k).stringFile.IsPath

/-- A text that is read as a default is refused as a default only. -/
theorem Declaration.typedDefault_error {d : Declaration} {type : VariableType} {text : String}
    {e : Fault} (hdefault : d.default = .text text) (h : d.typedDefault type = .error e) :
    ∃ f, e = .default f := by
  have hreading : ∀ {result : Except DefaultFault Value},
      (result.mapError fun f => Fault.default (.within d.name f)) = .error e →
      ∃ f, e = .default f := by
    intro result hresult
    cases result with
    | error f => exact ⟨_, (Except.error.inj hresult).symm⟩
    | ok v => cases hresult
  unfold typedDefault at h
  simp only [hdefault] at h
  cases type with
  | string => cases h
  | boolean | number => exact hreading h

/-- A declaration with a text for its default is refused for its type or for its default. -/
theorem Declaration.adapt_error {d : Declaration} {text : String} {e : Fault}
    (hdefault : d.default = .text text) (h : d.adapt = .error e) :
    (∃ f, e = .project f) ∨ ∃ f, e = .default f := by
  rw [adapt] at h
  cases htype : d.type with
  | unknown value =>
      simp only [htype] at h
      exact .inl ⟨_, (Except.error.inj h).symm⟩
  | known type =>
      simp only [htype] at h
      cases hvalue : d.typedDefault type with
      | ok value =>
          rw [hvalue] at h
          cases h
      | error f =>
          rw [hvalue] at h
          obtain rfl : f = e := Except.error.inj h
          exact .inr (typedDefault_error hdefault hvalue)

theorem Declaration.adaptAll_error {ds : List Declaration} {e : Fault}
    (hdefaults : ∀ d ∈ ds, ∃ text, d.default = .text text) (h : adaptAll ds = .error e) :
    (∃ f, e = .project f) ∨ ∃ f, e = .default f := by
  rw [adaptAll] at h
  induction ds with
  | nil => cases h
  | cons d ds ih =>
      obtain ⟨text, hdefault⟩ := hdefaults d (by simp)
      rw [List.mapM_cons] at h
      cases hadapt : d.adapt with
      | error f =>
          rw [hadapt] at h
          obtain rfl : f = e := Except.error.inj h
          exact adapt_error hdefault hadapt
      | ok adapted =>
          rw [hadapt] at h
          cases hrest : ds.mapM adapt with
          | error f =>
              rw [hrest] at h
              obtain rfl : f = e := Except.error.inj h
              exact ih (fun d' hd' => hdefaults d' (by simp [hd'])) hrest
          | ok rest =>
              rw [hrest] at h
              cases h

namespace Build

/-! ## The compile stage -/

namespace Stage

variable {α β : Type} {w : World}

def Concludes (s : Stage α) (w : World) : Prop :=
  ∃ r, (exec s w).1 = .ok r

theorem Concludes.pure (x : α) (w : World) : Concludes (Pure.pure x) w :=
  ⟨_, rfl⟩

theorem Concludes.throw (r : Rejection) (w : World) : Concludes (MonadExcept.throw r : Stage α) w :=
  ⟨_, rfl⟩

theorem Concludes.bind {s : Stage α} {f : α → Stage β} (hs : Concludes s w)
    (hf : ∀ x w', exec s w = (.ok (.ok x), w') → Concludes (f x) w') : Concludes (s >>= f) w := by
  obtain ⟨r, hr⟩ := hs
  rw [Concludes, exec_bind]
  rcases hexec : exec s w with ⟨e | r' | x, w'⟩
  · rw [hexec] at hr
    cases hr
  · exact ⟨_, rfl⟩
  · exact hf x w' hexec

theorem Concludes.liftM {a : Action α} {x : α} {w' : World} (h : a.exec w = (.ok x, w')) :
    Concludes (liftM a) w := by
  rw [Concludes, exec_liftM, h]
  exact ⟨_, rfl⟩

end Stage

section Compile

open Stage

variable {w : World}

theorem concludes_gatherText {encoding : Value} {sources : List Value}
    (hfiles : w.files.Answers encoding) (hsources : ∀ source ∈ sources, source.IsPath) :
    Concludes (gatherText encoding sources) w := by
  induction sources with
  | nil => exact .pure _ _
  | cons source rest ih =>
      have ih := ih fun s hs => hsources s (by simp [hs])
      rcases hsources source (by simp) with rfl | ⟨p, rfl⟩
      · exact ih
      · obtain ⟨found, hfound⟩ := hfiles.existsAt .refl p
        have hexists : (Action.existsAt (.text p)).exec w = (.ok found, w) := by
          rw [Action.exec_existsAt, hfound]
        simp only [gatherText, Bool.false_eq_true, if_false]
        refine Concludes.bind (.liftM hexists) fun found' w' hw' => ?_
        rw [exec_liftM, hexists] at hw'
        cases hw'
        cases found with
        | false => exact ih
        | true =>
            simp only [if_true]
            have hread : Concludes (sourceText encoding (.text p)) w := by
              rw [Concludes, exec_sourceText]
              cases hreading : w.files.readText (.text p) encoding with
              | ok text => exact ⟨_, rfl⟩
              | error e =>
                  rw [sourceOutcome, hfiles.readText .refl p e hreading]
                  exact ⟨_, rfl⟩
            refine Concludes.bind hread fun text w' hw' => ?_
            rw [exec_sourceText] at hw'
            obtain ⟨-, rfl⟩ := Prod.mk.inj hw'
            exact Concludes.bind ih fun _ _ _ => .pure _ _

theorem concludes_adaptDeclarations {p : Project}
    (hdefaults : ∀ d ∈ p.declarations, ∃ text, d.default = .text text) :
    Concludes (adaptDeclarations p) w := by
  rw [adaptDeclarations]
  cases hadapt : Declaration.adaptAll p.declarations with
  | ok ds => exact .pure _ _
  | error e =>
      rcases Declaration.adaptAll_error hdefaults hadapt with ⟨f, rfl⟩ | ⟨f, rfl⟩ <;>
        exact Concludes.bind (.liftM (Action.exec_log _ _ _)) fun _ _ _ => .throw _ _

theorem concludes_callCompiler (compiler : Compiler) (p : Project) (job : Job) :
    Concludes (callCompiler compiler p job) w := by
  refine Concludes.bind (.liftM (Action.exec_attempt _ _)) fun result _ _ => ?_
  cases result with
  | ok c => exact .pure _ _
  | error e => exact Concludes.bind (.liftM (Action.exec_log _ _ _)) fun _ _ _ => .throw _ _

theorem concludes_serializedProgram (p : Project) (c : Compilation) :
    Concludes (serializedProgram p c) w := by
  refine Concludes.bind (.liftM (Action.exec_updateJournal _ _)) fun _ w' _ => ?_
  dsimp only
  split
  · refine Concludes.bind (.liftM (Action.exec_updateJournal _ _)) fun _ _ _ => ?_
    rw [throw_bind]
    exact .throw _ _
  · split
    · exact Concludes.bind (.liftM (Action.exec_log _ _ _)) fun _ _ _ => .throw _ _
    · split
      · exact .pure _ _
      · exact Concludes.bind (.liftM (Action.exec_log _ _ _)) fun _ _ _ => .throw _ _

theorem concludes_compile (compiler : Compiler) {config : Config} {p : Project}
    (hfiles : w.files.Answers config.encoding) (hsources : ∀ source ∈ p.sources, source.IsPath)
    (hdefaults : ∀ d ∈ p.declarations, ∃ text, d.default = .text text) :
    Concludes (compile compiler config p) w := by
  refine Concludes.bind (concludes_gatherText hfiles hsources) fun text _ _ => ?_
  split
  · exact .throw _ _
  · refine Concludes.bind (concludes_adaptDeclarations hdefaults) fun ds _ _ => ?_
    refine Concludes.bind (concludes_callCompiler compiler p _) fun c _ _ => ?_
    exact Concludes.bind (concludes_serializedProgram p c) fun _ _ _ => .pure _ _

end Compile

/-! ## Languages -/

section Settle

variable {c : Context} {fs : FileSystem} {code path : Value} {e : Fault}

/-- What a language is skipped for does not end the build. -/
theorem judge_error {rows : Except Fault (List StringTable.Entry)}
    (h : judge c code rows = .error e) :
    rows = .error e ∧ (∀ f, e ≠ .source f) ∧ e.skipsLanguage = false := by
  unfold judge at h
  split at h
  · cases h
  · rename_i f
    split at h
    · cases h
    · rename_i hnone
      obtain rfl := Except.error.inj h
      unfold skipMessage? at hnone
      split at hnone
      · cases hnone
      · rename_i hsource
        split at hnone
        · cases hnone
        · rename_i hskips
          exact ⟨rfl, hsource, by simpa using hskips⟩

theorem target_error (hfiles : fs.Answers c.config.encoding) (hpath : c.project.path.IsPath)
    (hsuffix : ∃ suffix, c.config.projectSuffix = .text suffix)
    (h : target c fs code = .error e) : ∃ f, e = .source f := by
  unfold target at h
  split at h
  case isFalse => exact ⟨_, (Except.error.inj h).symm⟩
  case isTrue =>
    rw [tablePath] at h
    split at h
    · exact ⟨_, (Except.error.inj h).symm⟩
    · rename_i htruthy
      rcases hpath with hnull | ⟨p, hp⟩
      · simp [hnull, Value.truthy, Scalar.truthy] at htruthy
      · obtain ⟨q, hq⟩ := hfiles.absolute p
        obtain ⟨suffix, hsuffix⟩ := hsuffix
        rw [hp, hq] at h
        simp only [hsuffix] at h
        cases h

theorem rowsAt_error (hfiles : fs.Answers c.config.encoding) {p : String}
    (h : rowsAt c.config fs (.text p) = .error e) : e.skipsLanguage = true := by
  rw [rowsAt] at h
  cases hread : fs.readText (.text p) c.config.encoding with
  | error f =>
      simp only [hread] at h
      obtain rfl := Except.error.inj h
      exact Fault.skipsLanguage_of_isUnreadable (hfiles.readText .refl p f hread)
  | ok text =>
      simp only [hread] at h
      cases hdecode : StringTable.decode text with
      | ok rows =>
          rw [hdecode] at h
          cases h
      | error f =>
          rw [hdecode] at h
          cases h
          rfl

/-- A language ends the build only when its table is due and cannot be encoded. -/
theorem settle_error (hfiles : fs.Answers c.config.encoding) (hproject : c.project.path.IsPath)
    (hsuffix : ∃ suffix, c.config.projectSuffix = .text suffix) (hpath : path.IsPath)
    (h : (settle c fs code path).outcome = .error e) :
    hasTable c code = true ∧ path = .null ∧ e.isUnencodable = true ∧
      ∃ p, target c fs code = .ok p ∧ (writeTable c fs p).1 = .error e := by
  cases htable : hasTable c code with
  | false =>
      rw [settle_of_hasTable_eq_false htable] at h
      cases h
  | true =>
      rw [settle_of_hasTable htable] at h
      obtain ⟨hrows, hsource, hskips⟩ := judge_error h
      have hread : ∀ {fs' : FileSystem} {p : String}, fs.Later fs' →
          rowsAt c.config fs' (.text p) ≠ .error e := fun hlater hrows => by
        rw [rowsAt_error (hfiles.later hlater) hrows] at hskips
        cases hskips
      rcases resolve_cases c fs code path with
        ⟨hne, hr⟩ | ⟨-, f, hnone, hr⟩ | ⟨hnull, p, f, hp, hwrite, hr⟩ | ⟨-, p, -, -, hr⟩ <;>
        rw [hr] at hrows
      · rcases hpath with hnull | ⟨p, rfl⟩
        · exact absurd hnull hne
        · exact absurd hrows (hread .refl)
      · obtain ⟨g, rfl⟩ := target_error hfiles hproject hsuffix hnone
        exact absurd (Except.error.inj hrows).symm (hsource g)
      · obtain rfl := Except.error.inj hrows
        refine ⟨rfl, hnull, ?_, p, hp, hwrite⟩
        rcases hfiles.writeText .refl p _ f hwrite with hunreadable | hunencodable
        · rw [Fault.skipsLanguage_of_isUnreadable hunreadable] at hskips
          cases hskips
        · exact hunencodable
      · exact absurd hrows (hread (.write .refl p _ _))

end Settle

/-! ## Runs -/

/-- The fault of a table that is due and that the encoding cannot take. -/
structure Unencodable (c : Context) (w : World) (k : LocalizationId) (e : Fault) : Prop where
  isUnencodable : e.isUnencodable = true
  refused : ∃ p fs, DueAt c w k p ∧ w.files.Later fs ∧ (writeTable c fs p).1 = .error e

/-- What a run that was begun in `w` has left of it in `u`. -/
structure Reached (c : Context) (ids : List LocalizationId) (w u : World) : Prop
    extends Underway c ids w u where
  paths : ∀ k ∈ ids, k ≠ c.base → (u.localization k).stringFile.IsPath
  listeners : (u.localization c.base).listeners ⊆ (w.localization c.base).listeners

section Run

variable {c : Context} {ids : List LocalizationId} {w u v : World} {k : LocalizationId}
  (hr : Registered c ids w)

include hr

theorem Reached.slot (h : Reached c ids w u) {i : Nat} (hi : ids[i]? = some k)
    {r r' : BuildReport} (hslot : (syncSlot c (0 + i) k r).exec u = (.ok r', v)) :
    Reached c ids w v := by
  obtain ⟨hunderway, hframe, -, hpath⟩ := h.toUnderway.slot hr hi hslot
  refine ⟨hunderway, fun j hj hother => ?_, ?_⟩
  · by_cases hjk : j = k
    case pos =>
      rw [hjk, hpath]
      rcases settlement_cases c k u with ⟨hkept, -⟩ | ⟨p, -, -, hkept | ⟨-, htext⟩⟩
      · rw [hkept, ← hjk]
        exact h.paths j hj hother
      · rw [hkept, ← hjk]
        exact h.paths j hj hother
      · exact .inr ⟨p, htext⟩
    case neg =>
      have hsize := Nat.lt_of_lt_of_le (hr.listed j hj) h.frame.size
      rw [hframe.untouched j hsize (by simpa using hjk)]
      exact h.paths j hj hother
  · exact List.Subset.trans (h.toUnderway.listeners_base hr hslot) h.listeners

/-- A table that is due now was due at the beginning. -/
theorem Reached.dueAt (h : Reached c ids w u) (hk : k ∈ ids) (hother : k ≠ c.base) {p : String}
    (hdue : DueAt c u k p) : DueAt c w k p := by
  have hsize := hr.listed k hk
  have hcode := h.frame.localeCode k hsize
  refine ⟨by rw [← hcode, hdue.table], ?_, by rw [← hcode, ← target_of_later h.later, hdue.target]⟩
  by_contra hne
  have hpath := (h.frame.recorded k hsize hother).stringFile hne
  rw [hdue.missing] at hpath
  exact hne hpath.symm

/-- The build ends in the slot of the base with one of its listeners. -/
theorem Reached.failureOf_base (h : Reached c ids w u) {slot : Nat} {r : BuildReport} {e : Fault}
    (hslot : (syncSlot c slot c.base r).exec u = (.error e, v)) :
    Action.FailureOf (w.localization c.base).listeners e := by
  have hcode := h.code_base hr rfl
  cases htruthy : c.project.baseLanguage.truthy with
  | false =>
      rw [exec_syncSlot_of_noCode c slot c.base r (by rw [hcode, htruthy])] at hslot
      cases hslot
  | true =>
      have hends := endsIn_syncSlot_of_base (by rw [hcode, htruthy])
        (by rw [hcode]; exact hr.language) rfl slot r
      rw [Action.endsIn_of_error hslot] at hends
      exact hends.2.mono h.listeners

variable (hfiles : w.files.Answers c.config.encoding) (hproject : c.project.path.IsPath)
  (hsuffix : ∃ suffix, c.config.projectSuffix = .text suffix)

include hfiles hproject hsuffix

/-- The build ends in another slot with a table that is due and cannot be encoded. -/
theorem Reached.unencodable_other (h : Reached c ids w u) (hk : k ∈ ids) (hother : k ≠ c.base)
    {slot : Nat} {r : BuildReport} {e : Fault}
    (hslot : (syncSlot c slot k r).exec u = (.error e, v)) : Unencodable c w k e := by
  obtain ⟨v', hslot', -⟩ := settles_of_other (w := u) slot r hother
  rw [hslot] at hslot'
  have houtcome : (settlementOf c k u).outcome = .error e := by
    cases ho : (settlementOf c k u).outcome with
    | ok o =>
        rw [ho] at hslot'
        cases hslot'
    | error f =>
        rw [ho] at hslot'
        cases hslot'
        rfl
  obtain ⟨htable, hmissing, hunencodable, p, htarget, hwrite⟩ := settle_error
    (hfiles.later h.later) hproject hsuffix (h.paths k hk hother) houtcome
  exact ⟨hunencodable, p, u.files, h.dueAt hr hk hother ⟨htable, hmissing, htarget⟩, h.later,
    hwrite⟩

theorem Reached.endsIn_slot (h : Reached c ids w u) {i : Nat} (hi : ids[i]? = some k)
    (r : BuildReport) :
    Action.EndsIn (Reached c ids w) (fun e =>
      Action.FailureOf (w.localization c.base).listeners e ∨
      ∃ k ∈ ids, k ≠ c.base ∧ Unencodable c w k e) (syncSlot c (0 + i) k r) u := by
  have hk := List.mem_of_getElem? hi
  rcases hslot : (syncSlot c (0 + i) k r).exec u with ⟨e | r', v⟩
  case ok =>
    rw [Action.endsIn_of_ok hslot]
    exact h.slot hr hi hslot
  case error =>
    rw [Action.endsIn_of_error hslot]
    by_cases hbase : k = c.base
    case pos =>
      subst hbase
      exact .inl (h.failureOf_base hr hslot)
    case neg =>
      exact .inr ⟨k, hk, hbase, h.unencodable_other hr hfiles hproject hsuffix hk hbase hslot⟩

/-- A run ends the build only with a listener of the base, or with a generated table that cannot be
encoded. -/
theorem endsIn_run (hpaths : ∀ k ∈ ids, k ≠ c.base → (w.localization k).stringFile.IsPath) :
    Action.EndsIn (Reached c ids w) (fun e =>
      Action.FailureOf (w.localization c.base).listeners e ∨
      ∃ k ∈ ids, k ≠ c.base ∧ Unencodable c w k e) (syncSlots c {} 0 ids) w :=
  endsIn_syncSlots ⟨.refl _ _ _, hpaths, fun _ hl => hl⟩ fun r hi hu =>
    hu.endsIn_slot hr hfiles hproject hsuffix hi r

end Run

end Build

theorem Build.exists_baseEntries {config : Config}
    (h : Config.isLockLength config.lockLength = true)
    (language : Value) (lines : Table Line) :
    ∃ entries, baseEntries language config lines = .ok entries := by
  obtain ⟨length, hlength⟩ := exists_lockLength h
  exact ⟨_, baseEntries_of_lockLength hlength language lines⟩

namespace Build

section Published

variable {config : Config} {id : ProjectId} {w u : World} {c : Compilation} {base : LocalizationId}
  {entries : List StringTable.Entry} (h : Begun config id w c base entries u)

include h

/-- A table that is due and cannot be encoded when the languages are looked at was so before. -/
theorem Begun.unencodable {blob : Bytes} {k : LocalizationId} {e : Fault}
    (hk : k ∈ registerBase base (u.project id).localizations) (hother : k ≠ base)
    (he : Unencodable (context config id base blob entries u) (registered id base blob u) k e) :
    k ∈ (w.project id).localizations ∧
      Unencodable (prospect config id base entries w) w k e := by
  obtain ⟨p, fs, hdue, hlater, hwrite⟩ := he.refused
  rw [h.files_registered] at hlater
  rw [(h.alike blob).writeTable] at hwrite
  refine ⟨?_, he.isUnencodable, p, fs, (h.dueAt hdue).2, hlater, hwrite⟩
  rcases mem_registerBase base _ hk with hbase | hlisted
  · exact absurd hbase hother
  · rwa [h.project_eq] at hlisted

/-- What a compilation that has been published ends in. -/
theorem Begun.endsIn_languages (htyped : w.Typed id) (hfiles : w.files.Answers config.encoding)
    (hsuffix : ∃ suffix, config.projectSuffix = .text suffix) (blob : Bytes) :
    Action.EndsIn (fun _ => True) (fun e =>
      Action.FailureOf (w.localization base).listeners e ∨
      ∃ k ∈ (w.project id).localizations, k ≠ base ∧
        Unencodable (prospect config id base entries w) w k e)
      (syncSlots (context config id base blob entries u) {} 0
        (registerBase base (u.project id).localizations)) (registered id base blob u) := by
  have hr := h.isRegistered blob
  have hproject : (context config id base blob entries u).project.path.IsPath := by
    rw [(h.alike blob).path]
    exact htyped.path
  have hfiles' : (registered id base blob u).files.Answers config.encoding := by
    rwa [h.files_registered]
  have hpaths : ∀ k ∈ registerBase base (u.project id).localizations, k ≠ base →
      ((registered id base blob u).localization k).stringFile.IsPath := by
    intro k hk hother
    rw [h.localization_registered hother]
    rcases mem_registerBase base _ hk with hbase | hlisted
    · exact absurd hbase hother
    · rw [h.project_eq] at hlisted
      exact htyped.stringFiles k hlisted
  refine (endsIn_run hr hfiles' hproject hsuffix hpaths).mono (fun _ _ => trivial) fun e he => ?_
  rcases he with hfailure | ⟨k, hk, hother, he⟩
  · rw [show (context config id base blob entries u).base = base from rfl,
      h.localization_registered_base] at hfailure
    exact .inl hfailure
  · obtain ⟨hlisted, he'⟩ := h.unencodable hk hother he
    exact .inr ⟨k, hlisted, hother, he'⟩

end Published

end Build

/-- A build reports whatever fails, unless a listener of the base does or the table that is due for
a language cannot be encoded. What its compile stage has succeeded with is published, and it reports
success, whatever fails with single languages. -/
theorem build_reports {compiler : Compiler} {config : Config} {settings : Value} {id : ProjectId}
    {w : World} (hsound : w.Sound) (htyped : w.Typed id) (hidle : (w.project id).building = false)
    (hsettings : Config.ofValue settings = .ok config)
    (hsuffix : ∃ suffix, config.projectSuffix = .text suffix)
    (hcompiler : compiler.KeepsStore id) (hfiles : w.files.Answers config.encoding) :
    (∃ report w', (build compiler config (some id)).exec w = (.ok report, w') ∧
      (Build.precondition (w.project id) = .ok () →
        ∀ c blob u, Build.Stage.exec
          (Build.compile compiler config ((w.setBuilding id true).project id))
          (w.setBuilding id true) = (.ok (.ok (c, blob)), u) → report.status = .ok)) ∨
    ∃ e w' base entries, (build compiler config (some id)).exec w = (.error e, w') ∧
      (w.project id).base = some base ∧
      (Action.FailureOf (w.localization base).listeners e ∨
        ∃ k ∈ (w.project id).localizations, k ≠ base ∧
          Build.Unencodable (Build.prospect config id base entries w) w k e) := by
  cases hadmitted : Build.precondition (w.project id) with
  | error f =>
      refine .inl ⟨_, _, Build.exec_build_of_error compiler config hadmitted, fun h => ?_⟩
      cases h
  | ok _ =>
      have hp := Build.lt_size_of_precondition hadmitted
      have hmarked := World.project_setBuilding (b := true) hp
      rw [Build.exec_build_of_admitted compiler config hadmitted hidle, Build.exec_run]
      obtain ⟨r, hr⟩ := Build.concludes_compile compiler
        (w := w.setBuilding id true) (p := (w.setBuilding id true).project id) hfiles
        (by rw [hmarked]; exact htyped.sources) (by rw [hmarked]; exact htyped.defaults)
      rcases hstage : Build.Stage.exec (Build.compile compiler config
        ((w.setBuilding id true).project id)) (w.setBuilding id true) with ⟨f | r' | ⟨c, blob⟩, u⟩
      · rw [hstage] at hr
        cases hr
      · refine .inl ⟨r'.report, _, rfl, fun _ c blob u h => ?_⟩
        cases h
      · obtain ⟨base, hbase⟩ := Build.exists_base_of_precondition hadmitted
        obtain ⟨entries, hrows⟩ := Build.exists_baseEntries
          (Config.isLockLength_of_ofValue hsettings) (w.project id).baseLanguage c.lines
        have hbegun := Build.begun_of_compiled hsound hcompiler hp hbase hrows hstage
        have hends := hbegun.endsIn_languages htyped hfiles hsuffix blob
        dsimp only
        rw [Build.exec_publish hbegun.hasBase, hbegun.baseRows]
        dsimp only
        rcases hrun : (Build.syncSlots (Build.context config id base blob entries u) {} 0
          (Build.registerBase base (u.project id).localizations)).exec
          (Build.registered id base blob u) with ⟨e | report, v⟩
        · rw [Action.endsIn_of_error hrun] at hends
          exact .inr ⟨e, _, base, entries, rfl, hbase, hends⟩
        · exact .inl ⟨report, _, rfl, fun _ _ _ _ _ => Build.status_syncSlots hrun⟩

/-- A program with one line that is no text in ASCII. -/
def Compilation.accented : Compilation where
  program := some (.bytes [1])
  lines := [(.text "line:1", { text := "Café" })]

def Config.ascii : Config := { encoding := .text "ascii" }

theorem World.typed_untranslated : World.untranslated.Typed 0 where
  path := .inr ⟨"intro.tres", rfl⟩
  sources source h := .inr ⟨"main", List.mem_singleton.mp h⟩
  defaults d h := by cases h
  stringFiles k h := by
    obtain rfl := List.mem_singleton.mp h
    exact .inl rfl

/-- The table of a language cannot be encoded: the program is published, and no report is made. -/
theorem no_report_accented :
    (¬ ∃ report w', (build (.returning .accented) .ascii (some 0)).exec World.untranslated =
      (.ok report, w')) ∧
    (((build (.returning .accented) .ascii (some 0)).exec World.untranslated).2.project 0).blob =
      some [1] := by
  have herror : ((build (.returning .accented) .ascii (some 0)).exec
      World.untranslated).1.toOption.isNone = true := by decide +kernel
  refine ⟨fun ⟨report, w', h⟩ => ?_, by decide +kernel⟩
  rw [h] at herror
  cases herror

theorem build_reports_accented :
    ∃ e w' base entries,
      (build (.returning .accented) .ascii (some 0)).exec World.untranslated = (.error e, w') ∧
      Build.Unencodable (Build.prospect .ascii 0 base entries World.untranslated)
        World.untranslated 1 e := by
  have herror : ((build (.returning .accented) .ascii (some 0)).exec
      World.untranslated).1.toOption.isNone = true := by decide +kernel
  rcases build_reports World.sound_untranslated World.typed_untranslated rfl
    (show Config.ofValue (.mapping [(.text "encoding", .text "ascii")]) = .ok .ascii from rfl)
    ⟨".tres", rfl⟩ (Compiler.keepsStore_returning .accented 0)
    (FileSystem.answers_memory _ (show FileSystem.encodingOf (.text "ascii") = .ok .ascii from rfl))
    with ⟨report, w', h, -⟩ | ⟨e, w', base, entries, h, hbase, hfailure | ⟨k, hk, -, he⟩⟩
  · rw [h] at herror
    cases herror
  · obtain rfl : base = 0 := (Option.some.inj hbase).symm
    obtain ⟨l, hl, hfail, -⟩ := hfailure
    obtain rfl := List.mem_singleton.mp hl
    cases hfail
  · obtain rfl := List.mem_singleton.mp hk
    exact ⟨e, w', base, entries, h, he⟩

end Dialogue
