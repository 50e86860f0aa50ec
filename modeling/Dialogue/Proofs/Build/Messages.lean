import Dialogue.Proofs.Build.Atomicity
import Dialogue.Proofs.Build.Jobs
import Dialogue.Proofs.Value.Grouping

/-! What the lists of a report are made of. The warnings are the messages of the skipped languages,
each once. The diagnostics are the errors of the compiler as they come, or else one message at most.
Errors that are rendered alike are therefore repeated, which no warning is. -/

namespace Dialogue

namespace Build

open Stage

/-! ## Rejections -/

section Rejections

variable {α β : Type} {s : Stage α} {f : α → Stage β} {w v : World} {r : Rejection}

/-- A sequence is rejected by its first part or, if that comes to a result, by the rest. -/
theorem exec_bind_eq_rejected : exec (s >>= f) w = (.ok (.error r), v) ↔
    exec s w = (.ok (.error r), v) ∨
      ∃ x u, exec s w = (.ok (.ok x), u) ∧ exec (f x) u = (.ok (.error r), v) := by
  rw [exec_bind]
  rcases exec s w with ⟨_ | _ | x, u⟩ <;> simp

/-- A stage that rejects a build with one message at most. -/
def Terse (s : Stage α) : Prop :=
  ∀ w r v, exec s w = (.ok (.error r), v) → r.diagnostics.length ≤ 1

namespace Terse

theorem pure (x : α) : Terse (Pure.pure x) := by
  simp [Terse]

theorem throw {r : Rejection} (h : r.diagnostics.length ≤ 1) :
    Terse (MonadExcept.throw r : Stage α) := by
  intro w r' v hr
  simp only [exec_throw, Prod.mk.injEq, Except.ok.injEq, Except.error.injEq] at hr
  rwa [← hr.1]

theorem throwThe (e : Fault) : Terse (throwThe Fault e : Stage α) := by
  simp [Terse]

theorem liftM (a : Action α) : Terse (liftM a : Stage α) := by
  intro w r v hr
  rw [exec_liftM] at hr
  split at hr <;> cases hr

theorem bind (hs : Terse s) (hf : ∀ x, Terse (f x)) : Terse (s >>= f) := by
  intro w r v hr
  rcases exec_bind_eq_rejected.mp hr with hr | ⟨x, u, -, hr⟩
  · exact hs w r v hr
  · exact hf x u r v hr

end Terse

theorem terse_failed (reason message : String) :
    Terse (throw (failed reason [message]) : Stage α) :=
  Terse.throw (Nat.le_refl 1)

theorem terse_gatherText (encoding : Value) (sources : List Value) :
    Terse (gatherText encoding sources) := by
  induction sources with
  | nil => exact Terse.pure _
  | cons source rest ih =>
      have hsource : Terse (sourceText encoding source) := by
        intro w r v hr
        rw [exec_sourceText] at hr
        obtain ⟨hr, -⟩ := Prod.mk.inj hr
        unfold sourceOutcome at hr
        split at hr
        · cases hr
        · split at hr
          · cases hr
            exact Nat.le_refl 1
          · cases hr
      simp only [gatherText]
      split
      · exact ih
      · refine Terse.bind (Terse.liftM _) fun found => ?_
        split
        · exact Terse.bind hsource fun _ => Terse.bind ih fun _ => Terse.pure _
        · exact ih

theorem terse_adaptDeclarations (p : Project) : Terse (adaptDeclarations p) := by
  rw [adaptDeclarations]
  split
  · exact Terse.pure _
  · split
    · exact Terse.bind (Terse.liftM _) fun _ => Terse.throw (Nat.zero_le 1)
    · exact Terse.bind (Terse.liftM _) fun _ => terse_failed _ _
    · exact Terse.throwThe _

theorem terse_callCompiler (compiler : Compiler) (p : Project) (job : Job) :
    Terse (callCompiler compiler p job) := by
  refine Terse.bind (Terse.liftM _) fun result => ?_
  cases result with
  | ok c => exact Terse.pure _
  | error e => exact Terse.bind (Terse.liftM _) fun _ => terse_failed _ _

theorem terse_serializedProgram (p : Project) {c : Compilation} (h : c.errors = []) :
    Terse (serializedProgram p c) := by
  refine Terse.bind (Terse.liftM _) fun _ => ?_
  simp only [h, List.isEmpty_nil, Bool.not_true, Bool.false_eq_true, if_false]
  split
  · exact Terse.bind (Terse.liftM _) fun _ => terse_failed _ _
  · split
    · exact Terse.pure _
    · exact Terse.bind (Terse.liftM _) fun _ => terse_failed _ _

end Rejections

/-! ## Errors of the compiler -/

section Errors

variable {compiler : Compiler} {config : Config} {p : Project} {c : Compilation} {text : String}
  {declarations : List AdaptedDeclaration} {w v u : World} {r : Rejection}

def errorsFound (c : Compilation) : Rejection :=
  failed ("Compiler reported " ++ toString c.errors.length ++ " error(s)")
    (c.errors.map Diagnostic.render)

theorem exec_serializedProgram_of_errors (h : c.errors ≠ []) (w : World) :
    ∃ v, exec (serializedProgram p c) w = (.ok (.error (errorsFound c)), v) := by
  have hnonempty : c.errors.isEmpty = false := by simpa using h
  rw [serializedProgram, exec_bind, exec_liftM, logAll, Action.exec_updateJournal]
  simp only [hnonempty, Bool.not_false, if_true]
  rw [exec_bind, exec_liftM, logAll, Action.exec_updateJournal]
  simp only [throw_bind, exec_throw, errorsFound, List.length_map]
  exact ⟨_, rfl⟩

/-- A compile stage that calls its compiler, with what the compiler returns. -/
structure Called (compiler : Compiler) (config : Config) (p : Project) (c : Compilation)
    (text : String) (declarations : List AdaptedDeclaration) (w v : World) : Prop where
  sources : exec (gatherText config.encoding p.sources) w = (.ok (.ok text), w)
  content : text ≠ ""
  adapted : Declaration.adaptAll p.declarations = .ok declarations
  returned : (compiler ⟨p.sourceName, text, declarations⟩).exec w = (.ok c, v)

theorem Called.exec_compile (h : Called compiler config p c text declarations w v) :
    exec (compile compiler config p) w =
      exec (do return (c, ← serializedProgram p c)) v := by
  have hadapted : exec (adaptDeclarations p) w = (.ok (.ok declarations), w) :=
    adaptDeclarations_eq_ok.mpr ⟨h.adapted, rfl⟩
  have hcalled : exec (callCompiler compiler p ⟨p.sourceName, text, declarations⟩) w =
      (.ok (.ok c), v) := callCompiler_eq_ok.mpr h.returned
  rw [compile, exec_bind, h.sources]
  simp only [if_neg h.content]
  rw [exec_bind, hadapted]
  simp only
  rw [exec_bind, hcalled]

theorem Called.exec_compile_of_errors (h : Called compiler config p c text declarations w v)
    (herrors : c.errors ≠ []) :
    ∃ u, exec (compile compiler config p) w = (.ok (.error (errorsFound c)), u) := by
  obtain ⟨u, hu⟩ := exec_serializedProgram_of_errors (p := p) herrors v
  refine ⟨u, ?_⟩
  rw [h.exec_compile, exec_bind, hu]

/-- A compile stage is rejected with one message at most, unless its compiler reports errors. -/
theorem compile_eq_rejected (h : exec (compile compiler config p) w = (.ok (.error r), v)) :
    r.diagnostics.length ≤ 1 ∨
      ∃ c text declarations u, Called compiler config p c text declarations w u ∧
        c.errors ≠ [] ∧ r = errorsFound c := by
  rcases exec_bind_eq_rejected.mp h with hgather | ⟨text, w₁, htext, hrest⟩
  · exact .inl (terse_gatherText _ _ w r v hgather)
  obtain rfl : w = w₁ := by
    rw [← exec_gatherText_snd config.encoding p.sources w, htext]
  dsimp only at hrest
  split at hrest
  · exact .inl (Terse.throw (r := failed _) (Nat.zero_le 1) w r v hrest)
  rename_i hcontent
  rcases exec_bind_eq_rejected.mp hrest with hadapt | ⟨declarations, w₁, hdeclarations, hjob⟩
  · exact .inl (terse_adaptDeclarations p w r v hadapt)
  obtain ⟨hadapted, hw₁⟩ := adaptDeclarations_eq_ok.mp hdeclarations
  rw [hw₁] at hjob
  rcases exec_bind_eq_rejected.mp hjob with hcall | ⟨c, u, hcall, hserialized⟩
  · exact .inl (terse_callCompiler compiler p _ w r v hcall)
  by_cases herrors : c.errors = []
  · have hterse := (terse_serializedProgram p herrors).bind fun blob => Terse.pure (c, blob)
    exact .inl (hterse u r v hserialized)
  · have hcalled : Called compiler config p c text declarations w u :=
      ⟨htext, hcontent, hadapted, callCompiler_eq_ok.mp hcall⟩
    obtain ⟨u', hu'⟩ := exec_serializedProgram_of_errors (p := p) herrors u
    rw [exec_bind, hu'] at hserialized
    obtain ⟨hr, -⟩ := Prod.mk.inj hserialized
    exact .inr ⟨c, text, declarations, u, hcalled, herrors,
      (Except.error.inj (Except.ok.inj hr)).symm⟩

end Errors

/-! ## Notes of skipped languages -/

section Notes

variable {c : Context} {slot : Nat} {k : LocalizationId} {ids : List LocalizationId}
  {report report' : BuildReport} {w w' v : World} {message : String}

theorem exec_skip (report : BuildReport) (code : Value) (message : String) (w : World) :
    (skip report code message).exec w =
      (.ok (report.skip code message), w.logged .warning message) := rfl

/-- A language that there is a reason to skip is skipped. -/
theorem SkipReason.exec_syncSlot (h : SkipReason c k w message) (slot : Nat)
    (report : BuildReport) :
    ∃ u, (syncSlot c slot k report).exec w =
      (.ok (report.skip (w.localization k).localeCode message), u) := by
  cases h with
  | noCode code => exact ⟨_, exec_syncSlot_of_noCode c slot k report code⟩
  | duplicate code same other =>
      exact ⟨_, exec_syncSlot_of_duplicate c slot k report code same other⟩
  | unread code foreign load skips =>
      rw [exec_syncSlot_of_foreign c slot k report code foreign]
      rcases hload : (loadTable c.config c.project k c.entries).exec (announced k w) with ⟨_, u⟩
      rw [hload] at load
      obtain rfl := load
      simp only [skips]
      exact ⟨_, exec_skip ..⟩

/-- The report tells by its length whether a language has been skipped. -/
theorem note_ne_skip {o : Outcome} (h : o.message? = none) (code : Value) (report : BuildReport)
    (message : String) : o.note code report ≠ report.skip code message := by
  intro heq
  have hlength := congrArg (fun r => r.skipped.length) heq
  cases o with
  | skipped => cases h
  | loaded | rebuilt => simp [Outcome.note, BuildReport.skip] at hlength

/-- A slot is noted exactly if there is a reason to skip its language. -/
theorem syncSlot_noted (h : (syncSlot c slot k report).exec w = (.ok report', v)) :
    ∃ o : Outcome, report' = o.note (w.localization k).localeCode report ∧
      ∀ message, o.message? = some message ↔ SkipReason c k w message := by
  obtain ⟨o, hsynced, hreport⟩ := syncSlot_eq_ok h
  refine ⟨o, hreport, fun message => ?_⟩
  cases hmessage : o.message? with
  | some noted =>
      cases hsynced with
      | skipped reason _ =>
          obtain rfl := Option.some.inj hmessage
          rw [Option.some.injEq]
          constructor
          · rintro rfl
            exact reason
          · exact fun hreason => hreason.unique reason
      | loaded => cases hmessage
      | rebuilt => cases hmessage
  | none =>
      simp only [reduceCtorEq, false_iff]
      intro hreason
      obtain ⟨u, hskip⟩ := hreason.exec_syncSlot slot report
      rw [h] at hskip
      obtain ⟨heq, -⟩ := Prod.mk.inj hskip
      rw [hreport] at heq
      exact note_ne_skip hmessage _ _ _ (Except.ok.inj heq)

theorem syncSlots_noted (h : (syncSlots c report slot ids).exec w = (.ok report', w')) :
    ∃ outcomes : List (Value × Outcome), outcomes.length = ids.length ∧
      report' = noteAll report outcomes ∧
      ∀ i k, ids[i]? = some k → ∃ o : Outcome,
        outcomes[i]? = some (((worldAt c report slot ids w i).localization k).localeCode, o) ∧
        ∀ message, o.message? = some message ↔
          SkipReason c k (worldAt c report slot ids w i) message := by
  induction ids generalizing slot report w with
  | nil =>
      cases h
      exact ⟨[], rfl, rfl, by simp⟩
  | cons id ids ih =>
      obtain ⟨report₁, v, hslot, hrest⟩ := Action.exec_bind_eq_ok.mp h
      obtain ⟨o, hreport₁, ho⟩ := syncSlot_noted hslot
      obtain ⟨outcomes, hlength, hreport, hnoted⟩ := ih hrest
      refine ⟨((w.localization id).localeCode, o) :: outcomes, by simp [hlength], ?_, ?_⟩
      · rw [hreport, hreport₁]
        rfl
      · intro i k hk
        cases i with
        | zero =>
            obtain rfl : id = k := by simpa using hk
            exact ⟨o, rfl, ho⟩
        | succ i =>
            rw [worldAt_succ hslot]
            exact hnoted i k (by simpa using hk)

/-- What is noted of the slots of a run: the code of each language, and the message if it is
skipped. -/
structure NotesOf (c : Context) (ids : List LocalizationId) (start : World)
    (notes : List (Value × Option String)) : Prop where
  length : notes.length = ids.length
  note : ∀ i k, ids[i]? = some k → ∃ message?,
    notes[i]? = some (((worldAt c {} 0 ids start i).localization k).localeCode, message?) ∧
      ∀ message, message? = some message ↔ SkipReason c k (worldAt c {} 0 ids start i) message

/-- A report of nothing but notes: the codes of all that is skipped, and each message once. -/
structure NotedIn (report : BuildReport) (notes : List (Value × Option String)) : Prop where
  skipped : report.skipped = (notes.filter fun note => note.2.isSome).map (·.1)
  warnings : report.warnings = (notes.filterMap (·.2)).eraseDups

theorem exists_notes (h : (syncSlots c {} 0 ids).exec w = (.ok report, w')) :
    ∃ notes, NotesOf c ids w notes ∧ NotedIn report notes := by
  obtain ⟨outcomes, hlength, rfl, hnoted⟩ := syncSlots_noted h
  refine ⟨outcomes.map fun e => (e.1, e.2.message?), ⟨by simp [hlength], fun i k hk => ?_⟩,
    ?_, ?_⟩
  · obtain ⟨o, ho, hmessage⟩ := hnoted i k hk
    exact ⟨o.message?, by simp [ho], hmessage⟩
  · rw [skipped_noteAll, List.filter_map, List.map_map]
    rfl
  · rw [warnings_noteAll _ _ [] rfl, List.filterMap_map]
    rfl

/-- The message of every skipped language is among the warnings. -/
theorem NotesOf.mem {notes : List (Value × Option String)} (h : NotesOf c ids w notes)
    (hnoted : NotedIn report notes) {i : Nat} (hk : ids[i]? = some k)
    (hreason : SkipReason c k (worldAt c {} 0 ids w i) message) :
    ((worldAt c {} 0 ids w i).localization k).localeCode ∈ report.skipped ∧
      message ∈ report.warnings := by
  obtain ⟨message?, hnote, hiff⟩ := h.note i k hk
  obtain rfl := (hiff message).mpr hreason
  have hmem := List.mem_of_getElem? hnote
  rw [hnoted.skipped, hnoted.warnings, List.mem_eraseDups]
  exact ⟨List.mem_map.mpr ⟨_, List.mem_filter.mpr ⟨hmem, rfl⟩, rfl⟩,
    List.mem_filterMap.mpr ⟨_, hmem, rfl⟩⟩

theorem diagnostics_syncSlots (h : (syncSlots c report slot ids).exec w = (.ok report', w')) :
    report'.diagnostics = report.diagnostics := by
  obtain ⟨outcomes, -, rfl, -⟩ := syncSlots_noted h
  clear h
  induction outcomes generalizing report with
  | nil => rfl
  | cons e outcomes ih =>
      change (noteAll (e.2.note e.1 report) outcomes).diagnostics = _
      rw [ih]
      cases e.2 <;> rfl

end Notes

/-! ## Whole builds -/

/-- A build that calls its compiler, with what the compiler returns. -/
def Answered (compiler : Compiler) (config : Config) (target : Option ProjectId) (w : World)
    (c : Compilation) : Prop :=
  ∃ id, target = some id ∧ precondition (w.project id) = .ok () ∧
    (w.project id).building = false ∧
    ∃ text declarations v, Called compiler config ((w.setBuilding id true).project id) c text
      declarations (w.setBuilding id true) v

/-- What the messages of a report are. -/
structure Messages (compiler : Compiler) (config : Config) (target : Option ProjectId) (w : World)
    (report : BuildReport) (w' : World) : Prop where
  once : report.warnings.Nodup
  failed : report.status ≠ .ok → report.warnings = [] ∧ report.skipped = []
  succeeded : report.status = .ok → report.diagnostics = [] ∧
    ∃ id c blob base entries u v, target = some id ∧
      Published compiler config id w report w' c blob base entries u v ∧
      let ctx := context config id base blob entries u
      let ids := registerBase base (u.project id).localizations
      let start := registered id base blob u
      (∃ notes, NotesOf ctx ids start notes ∧ NotedIn report notes) ∧
      ∀ i k message, ids[i]? = some k → SkipReason ctx k (worldAt ctx {} 0 ids start i) message →
        message ∈ report.warnings
  errors : ∀ c, Answered compiler config target w c → c.errors ≠ [] →
    report.diagnostics = c.errors.map Diagnostic.render
  other : (∀ c, Answered compiler config target w c → c.errors = []) →
    report.diagnostics.length ≤ 1
  /-- A diagnostic is repeated only where two errors are rendered alike. -/
  repeated : ¬ report.diagnostics.Nodup ↔ ∃ c, Answered compiler config target w c ∧
    ¬ (c.errors.map Diagnostic.render).Nodup

section Whole

variable {compiler : Compiler} {config : Config} {target : Option ProjectId} {id : ProjectId}
  {c : Compilation} {w w' : World} {report : BuildReport}

/-- Errors of the compiler are reported, each of them and as they come. -/
theorem Answered.exec_build (h : Answered compiler config target w c) (herrors : c.errors ≠ []) :
    ∃ w', (build compiler config target).exec w = (.ok (errorsFound c).report, w') := by
  obtain ⟨id, rfl, hadmitted, hidle, text, declarations, v, hcalled⟩ := h
  obtain ⟨u, hu⟩ := hcalled.exec_compile_of_errors herrors
  refine ⟨u.setBuilding id false, ?_⟩
  rw [exec_build_of_admitted compiler config hadmitted hidle, exec_run, hu]

/-- A report of a rejection. It is short, or lists the errors of the compiler. -/
structure Rejected (compiler : Compiler) (config : Config) (p : Project) (w : World)
    (report : BuildReport) : Prop where
  status : report.status ≠ .ok
  warnings : report.warnings = []
  skipped : report.skipped = []
  diagnostics : report.diagnostics.length ≤ 1 ∨
    ∃ c text declarations v, Called compiler config p c text declarations w v ∧ c.errors ≠ [] ∧
      report = (errorsFound c).report

theorem rejected_of_run (h : (run compiler config id).exec w = (.ok report, w'))
    (hfailed : report.status ≠ .ok) : Rejected compiler config (w.project id) w report := by
  rcases run_eq_ok h with ⟨r, hrejected, rfl⟩ | ⟨c, blob, u, -, hpublish⟩
  · refine ⟨hfailed, rfl, rfl, ?_⟩
    rcases compile_eq_rejected hrejected with hterse |
      ⟨c, text, declarations, v, hcalled, herrors, rfl⟩
    · exact .inl hterse
    · exact .inr ⟨c, text, declarations, v, hcalled, herrors, rfl⟩
  · exact absurd (status_publish hpublish) hfailed

/-- A build that fails has warned of nothing. It reports one message at most, or the errors of its
compiler. -/
theorem build_eq_failed (h : (build compiler config target).exec w = (.ok report, w'))
    (hfailed : report.status ≠ .ok) :
    report.warnings = [] ∧ report.skipped = [] ∧ (report.diagnostics.length ≤ 1 ∨
      ∃ c, Answered compiler config target w c ∧ c.errors ≠ [] ∧
        report = (errorsFound c).report) := by
  cases target with
  | none =>
      obtain ⟨reason, hnone⟩ := exec_build_none compiler config w
      rw [hnone] at h
      obtain ⟨hreport, -⟩ := Prod.mk.inj h
      obtain rfl := Except.ok.inj hreport
      exact ⟨rfl, rfl, .inl (Nat.zero_le 1)⟩
  | some id =>
      cases hadmitted : precondition (w.project id) with
      | error e =>
          rw [exec_build_of_error compiler config hadmitted] at h
          obtain ⟨hreport, -⟩ := Prod.mk.inj h
          obtain rfl := Except.ok.inj hreport
          exact ⟨rfl, rfl, .inl (Nat.zero_le 1)⟩
      | ok _ =>
          rcases build_eq_ok h with ⟨e, rfl, -⟩ | ⟨-, hidle, v, hrun, -⟩
          · exact ⟨rfl, rfl, .inl (Nat.zero_le 1)⟩
          obtain ⟨-, hwarnings, hskipped, hdiagnostics⟩ := rejected_of_run hrun hfailed
          refine ⟨hwarnings, hskipped, hdiagnostics.imp_right ?_⟩
          rintro ⟨c, text, declarations, u, hcalled, herrors, hreport⟩
          exact ⟨c, ⟨id, rfl, hadmitted, hidle, text, declarations, u, hcalled⟩, herrors, hreport⟩

theorem nodup_of_length_le_one {α : Type} {l : List α} (h : l.length ≤ 1) : l.Nodup := by
  rcases l with _ | ⟨a, _ | ⟨b, l⟩⟩
  · exact List.nodup_nil
  · exact List.nodup_singleton a
  · simp at h

theorem not_nodup_iff_of_errors
    (herrors : ∀ c, Answered compiler config target w c → c.errors ≠ [] →
      report.diagnostics = c.errors.map Diagnostic.render)
    (hother : (∀ c, Answered compiler config target w c → c.errors = []) →
      report.diagnostics.length ≤ 1) :
    ¬ report.diagnostics.Nodup ↔ ∃ c, Answered compiler config target w c ∧
      ¬ (c.errors.map Diagnostic.render).Nodup := by
  constructor
  · intro hrepeated
    by_contra hnone
    refine hrepeated (nodup_of_length_le_one (hother fun c hc => ?_))
    by_contra hreported
    refine hnone ⟨c, hc, ?_⟩
    rwa [← herrors c hc hreported]
  · rintro ⟨c, hc, hrepeated⟩
    have hreported : c.errors ≠ [] := by
      rintro hnil
      simp [hnil] at hrepeated
    rwa [herrors c hc hreported]

/-- What a build reports of the errors of its compiler, if it calls it. -/
theorem diagnostics_of_answered (h : (build compiler config target).exec w = (.ok report, w'))
    (hc : Answered compiler config target w c) (herrors : c.errors ≠ []) :
    report = (errorsFound c).report := by
  obtain ⟨v, hbuild⟩ := hc.exec_build herrors
  rw [h] at hbuild
  exact Except.ok.inj (Prod.mk.inj hbuild).1

theorem messages_of_failed (h : (build compiler config target).exec w = (.ok report, w'))
    (hfailed : report.status ≠ .ok) : Messages compiler config target w report w' := by
  obtain ⟨hwarnings, hskipped, hdiagnostics⟩ := build_eq_failed h hfailed
  have herrors : ∀ c, Answered compiler config target w c → c.errors ≠ [] →
      report.diagnostics = c.errors.map Diagnostic.render := fun c hc hreported =>
    congrArg BuildReport.diagnostics (diagnostics_of_answered h hc hreported)
  have hother : (∀ c, Answered compiler config target w c → c.errors = []) →
      report.diagnostics.length ≤ 1 := fun hnone =>
    hdiagnostics.resolve_right fun ⟨c, hc, hreported, _⟩ => hreported (hnone c hc)
  constructor
  case once =>
    rw [hwarnings]
    exact List.nodup_nil
  case failed => exact fun _ => ⟨hwarnings, hskipped⟩
  case succeeded => exact fun hok => absurd hok hfailed
  case errors => exact herrors
  case other => exact hother
  case repeated => exact not_nodup_iff_of_errors herrors hother

theorem messages_of_ok (h : (build compiler config target).exec w = (.ok report, w'))
    (hok : report.status = .ok) : Messages compiler config target w report w' := by
  have hnone : ∀ c, Answered compiler config target w c → c.errors = [] := by
    intro c hc
    by_contra hreported
    rw [diagnostics_of_answered h hc hreported] at hok
    cases hok
  cases target with
  | none =>
      obtain ⟨reason, hrefused⟩ := exec_build_none compiler config w
      rw [hrefused] at h
      obtain ⟨hreport, -⟩ := Prod.mk.inj h
      obtain rfl := Except.ok.inj hreport
      cases hok
  | some id =>
      obtain ⟨c, blob, base, entries, u, v, hpublished⟩ := published_of_build h hok
      obtain ⟨notes, hnotes, hnoted⟩ := exists_notes hpublished.languages
      have hdiagnostics := diagnostics_syncSlots hpublished.languages
      have herrors : ∀ c, Answered compiler config (some id) w c → c.errors ≠ [] →
          report.diagnostics = c.errors.map Diagnostic.render := fun c hc hreported =>
        absurd (hnone c hc) hreported
      have hother : (∀ c, Answered compiler config (some id) w c → c.errors = []) →
          report.diagnostics.length ≤ 1 := fun _ => by simp [hdiagnostics]
      constructor
      case once =>
        rw [hnoted.warnings]
        exact nodup_eraseDups _
      case failed => exact fun hfailed => absurd hok hfailed
      case succeeded =>
        exact fun _ => ⟨hdiagnostics, id, c, blob, base, entries, u, v, rfl, hpublished,
          ⟨notes, hnotes, hnoted⟩, fun i k message hk hreason =>
            (hnotes.mem hnoted hk hreason).2⟩
      case errors => exact herrors
      case other => exact hother
      case repeated => exact not_nodup_iff_of_errors herrors hother

end Whole

end Build

/-- Every report of a build, or of one with new sources, has the messages that are due to it. The
warnings are those of the skipped languages, each once; the diagnostics are the errors of the
compiler, each as often as it is reported. -/
theorem build_messages (compiler : Compiler) (config : Config) (target : Option ProjectId)
    (w : World) :
    (∀ report w', (build compiler config target).exec w = (.ok report, w') →
      Build.Messages compiler config target w report w') ∧
    (∀ sources report w', (setSources compiler config target sources).exec w = (.ok report, w') →
      ∃ u, Build.Messages compiler config target (w.withSources target sources) report u) ∧
    ∀ c, Build.Answered compiler config target w c → c.errors ≠ [] →
      ∃ report w', (build compiler config target).exec w = (.ok report, w') ∧
        report.status = .compilationFailed ∧
        report.diagnostics = c.errors.map Diagnostic.render := by
  have hbuild : ∀ w report w', (build compiler config target).exec w = (.ok report, w') →
      Build.Messages compiler config target w report w' := by
    intro w report w' h
    by_cases hok : report.status = .ok
    · exact Build.messages_of_ok h hok
    · exact Build.messages_of_failed h hok
  refine ⟨hbuild w, fun sources report w' h => ?_, fun c hc herrors => ?_⟩
  · obtain ⟨u, hreport, -⟩ := Build.setSources_eq_ok h
    exact ⟨u, hbuild _ report u hreport⟩
  · obtain ⟨w', h⟩ := hc.exec_build herrors
    exact ⟨_, w', h, rfl, rfl⟩

/-- Errors that are rendered alike are reported twice. -/
theorem not_forall_diagnostics_nodup : ¬ ∀ (compiler : Compiler) (config : Config)
    (target : Option ProjectId) (w w' : World) (report : BuildReport),
    (build compiler config target).exec w = (.ok report, w') → report.diagnostics.Nodup := by
  intro hall
  let compiler : Compiler := .returning
    { diagnostics := [⟨.error, "Bad", none, none⟩, ⟨.error, "Bad", none, none⟩] }
  have hdiagnostics : ((build compiler {} (some 0)).exec World.bilingual).1.toOption.map
      BuildReport.diagnostics = some ["error: Bad", "error: Bad"] := by decide +kernel
  obtain ⟨report, w', h, hreport⟩ := Action.exec_eq_ok_of_map hdiagnostics
  have hnodup := hall compiler {} (some 0) World.bilingual w' report h
  rw [hreport] at hnodup
  exact absurd hnodup (by decide)

end Dialogue
