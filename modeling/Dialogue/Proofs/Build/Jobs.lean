import Dialogue.Proofs.Build.Faults
import Dialogue.Proofs.Build.Inheritance

/-! How the sources and the declarations of a project become a job, what keeps them from becoming
one, and what the compile stage makes of what the compiler returns for it. -/

namespace Dialogue

/-! ## Files -/

namespace FileSystem

/-- Files that can be asked for: of each path it is known whether there is a file, and a file that
there is cannot be read only for the medium or for its bytes. -/
structure Reports (fs : FileSystem) (encoding : Value) : Prop where
  existsAt : ∀ path : String, ∃ found, fs.existsAt (.text path) = .ok found
  readText : ∀ (path : String) (e : Fault), fs.existsAt (.text path) = .ok true →
    fs.readText (.text path) encoding = .error e → e.isUnreadable = true

theorem Answers.reports {fs : FileSystem} {encoding : Value} (h : fs.Answers encoding) :
    fs.Reports encoding where
  existsAt := h.existsAt .refl
  readText path e _ := h.readText .refl path e

theorem reports_memory (m : MemoryFiles) {encoding : Value} {e : Text.Encoding}
    (hencoding : encodingOf encoding = .ok e) : (memory m).Reports encoding :=
  (answers_memory m hencoding).reports

theorem openEncoding_of_encodingOf {encoding : Value} {e : Text.Encoding}
    (h : encodingOf encoding = .ok e) : openEncoding encoding = .ok (.ok e) := by
  unfold encodingOf at h
  split at h
  · rename_i name
    exact congrArg Except.ok (show encodingOf (.text name) = .ok e from h)
  · cases h

/-- In a directory tree a file that there is can be read. -/
theorem reports_directory (t : DirectoryTree) {encoding : Value} {e : Text.Encoding}
    (hencoding : encodingOf encoding = .ok e) : (directory t).Reports encoding where
  existsAt path := ⟨_, rfl⟩
  readText path fault hexists hread := by
    have hfile : t.isFile path = true := Except.ok.inj hexists
    have hcontent : ∃ content, t.read path = .ok content := by
      unfold DirectoryTree.isFile at hfile
      unfold DirectoryTree.read
      split at hfile
      · rename_i place slash hlocate
        rw [Bool.and_eq_true, Option.isSome_iff_exists, Bool.not_eq_true'] at hfile
        obtain ⟨⟨content, hcontent⟩, hslash⟩ := hfile
        exact ⟨content, by simp only [hlocate, hcontent, hslash, Bool.false_eq_true, if_false]⟩
      · cases hfile
    obtain ⟨content, hcontent⟩ := hcontent
    simp only [FileSystem.readText, openEncoding_of_encodingOf hencoding, hcontent] at hread
    unfold Text.Encoding.decodeStream at hread
    split at hread
    · cases hread
    · cases hdecode : e.decode content with
      | ok text =>
          rw [hdecode] at hread
          cases hread
      | error f =>
          rw [hdecode] at hread
          cases hread
          exact Fault.isUnreadable_of_isUndecodable
            (Text.Encoding.isUndecodable_of_decode hdecode)

end FileSystem

/-! ## Declarations -/

namespace Declaration

/-- The first declaration of a list that becomes nothing. -/
inductive FirstRefused : List Declaration → Declaration → Prop where
  | here {d : Declaration} {ds : List Declaration} : (¬ ∃ a, d.Gives a) → FirstRefused (d :: ds) d
  | later {d d' : Declaration} {ds : List Declaration} : (∃ a, d.Gives a) → FirstRefused ds d' →
    FirstRefused (d :: ds) d'

namespace FirstRefused

variable {ds : List Declaration} {d d' : Declaration}

theorem mem (h : FirstRefused ds d) : d ∈ ds := by
  induction h with
  | here _ => exact List.mem_cons_self
  | later _ _ ih => exact List.mem_cons_of_mem _ ih

theorem unique (h : FirstRefused ds d) (h' : FirstRefused ds d') : d = d' := by
  induction h with
  | here hrefused =>
      cases h' with
      | here _ => rfl
      | later hgives _ => exact absurd hgives hrefused
  | later hgives _ ih =>
      cases h' with
      | here hrefused => exact absurd hgives hrefused
      | later _ hlater => exact ih hlater

/-- The first declaration that becomes nothing decides what becomes of the list. -/
theorem adaptAll (h : FirstRefused ds d) :
    ∃ e, d.adapt = .error e ∧ Declaration.adaptAll ds = .error e := by
  induction h with
  | @here d ds hrefused =>
      cases hd : d.adapt with
      | ok a => exact absurd ⟨a, adapt_eq_ok.mp hd⟩ hrefused
      | error e =>
          refine ⟨e, rfl, ?_⟩
          rw [adaptAll_cons, hd]
          rfl
  | later hgives _ ih =>
      obtain ⟨a, ha⟩ := hgives
      obtain ⟨e, he, hall⟩ := ih
      refine ⟨e, he, ?_⟩
      rw [adaptAll_cons, adapt_eq_ok.mpr ha, hall]
      rfl

end FirstRefused

theorem gives_or_firstRefused (ds : List Declaration) :
    (∃ as, List.Forall₂ Gives ds as) ∨ ∃ d, FirstRefused ds d := by
  induction ds with
  | nil => exact .inl ⟨[], .nil⟩
  | cons d ds ih =>
      by_cases hd : ∃ a, d.Gives a
      · rcases ih with ⟨as, has⟩ | ⟨d', hd'⟩
        · obtain ⟨a, ha⟩ := hd
          exact .inl ⟨a :: as, .cons ha has⟩
        · exact .inr ⟨d', .later hd hd'⟩
      · exact .inr ⟨d, .here hd⟩

end Declaration

namespace Build

open Stage

/-! ## Sources -/

section Sources

variable {encoding source : Value} {sources rest : List Value} {w : World}

theorem exists_text_of_isPresent {fs : FileSystem} (hpath : source.IsPath)
    (h : isPresent fs source = true) :
    ∃ p, source = .text p ∧ fs.existsAt (.text p) = .ok true := by
  rcases hpath with rfl | ⟨p, rfl⟩
  · cases h
  · refine ⟨p, rfl, ?_⟩
    unfold isPresent at h
    obtain ⟨-, hfound⟩ := Bool.and_eq_true_iff.mp h
    split at hfound
    · assumption
    · cases hfound

theorem exec_gatherText_of_absent (hpath : source.IsPath) (hfiles : w.files.Reports encoding)
    (h : isPresent w.files source = false) :
    exec (gatherText encoding (source :: rest)) w = exec (gatherText encoding rest) w := by
  rcases hpath with rfl | ⟨p, rfl⟩
  · rfl
  · obtain ⟨found, hfound⟩ := hfiles.existsAt p
    have hpresent : isPresent w.files (.text p) = found := isPresent_of_existsAt (by simp) hfound
    obtain rfl : found = false := hpresent.symm.trans h
    simp only [gatherText, Bool.false_eq_true, if_false, exec_bind, exec_liftM,
      Action.exec_existsAt, hfound]

theorem exec_gatherText_of_isPresent (hpath : source.IsPath)
    (h : isPresent w.files source = true) :
    exec (gatherText encoding (source :: rest)) w =
      match sourceOutcome source (w.files.readText source encoding) with
      | .ok (.ok text) => exec (do return text ++ (← gatherText encoding rest)) w
      | .ok (.error r) => (.ok (.error r), w)
      | .error e => (.error e, w) := by
  obtain ⟨p, rfl, hexists⟩ := exists_text_of_isPresent hpath h
  simp only [gatherText, Bool.false_eq_true, if_false]
  rw [exec_bind, exec_liftM, Action.exec_existsAt, hexists]
  dsimp only
  rw [if_pos rfl, exec_bind, exec_sourceText]
  rcases sourceOutcome (.text p) (w.files.readText (.text p) encoding) with _ | _ | text <;> rfl

theorem exec_gatherText_of_readable (hpaths : ∀ s ∈ sources, s.IsPath)
    (hfiles : w.files.Reports encoding)
    (h : ∀ s ∈ presentSources w.files sources, ∃ text, w.files.readText s encoding = .ok text) :
    exec (gatherText encoding sources) w =
      (.ok (.ok (contentOf w.files encoding sources)), w) := by
  induction sources with
  | nil => rfl
  | cons source rest ih =>
      have hpath := hpaths source (by simp)
      have ih := ih (fun s hs => hpaths s (by simp [hs]))
      cases hpresent : isPresent w.files source with
      | false =>
          have hsources := presentSources_of_absent rest hpresent
          rw [hsources] at h
          rw [exec_gatherText_of_absent hpath hfiles hpresent, ih h, contentOf, contentOf, hsources]
      | true =>
          have hsources := presentSources_of_isPresent rest hpresent
          rw [hsources] at h
          obtain ⟨text, htext⟩ := h source (by simp)
          rw [exec_gatherText_of_isPresent hpath hpresent, htext, sourceOutcome]
          dsimp only
          rw [exec_bind, ih fun s hs => h s (by simp [hs]), contentOf, contentOf, hsources,
            List.map_cons, String.join_cons, htext]
          rfl

/-- A source that cannot be read rejects the build. -/
theorem exec_gatherText_of_unreadable (hpaths : ∀ s ∈ sources, s.IsPath)
    (hfiles : w.files.Reports encoding)
    (h : ∃ s ∈ presentSources w.files sources, ∃ e, w.files.readText s encoding = .error e) :
    ∃ r, exec (gatherText encoding sources) w = (.ok (.error r), w) ∧
      r.status = .compilationFailed := by
  induction sources with
  | nil =>
      obtain ⟨s, hs, -⟩ := h
      cases hs
  | cons source rest ih =>
      have hpath := hpaths source (by simp)
      have ih := ih (fun s hs => hpaths s (by simp [hs]))
      cases hpresent : isPresent w.files source with
      | false =>
          have hsources := presentSources_of_absent rest hpresent
          rw [hsources] at h
          rw [exec_gatherText_of_absent hpath hfiles hpresent]
          exact ih h
      | true =>
          rw [exec_gatherText_of_isPresent hpath hpresent]
          cases hread : w.files.readText source encoding with
          | error e =>
              obtain ⟨p, rfl, hexists⟩ := exists_text_of_isPresent hpath hpresent
              rw [sourceOutcome, if_pos (hfiles.readText p e hexists hread)]
              exact ⟨_, rfl, rfl⟩
          | ok text =>
              have hsources := presentSources_of_isPresent rest hpresent
              rw [hsources] at h
              obtain ⟨s, hs, e, he⟩ := h
              rcases List.mem_cons.mp hs with rfl | hs
              · rw [hread] at he
                cases he
              · obtain ⟨r, hr, hstatus⟩ := ih ⟨s, hs, e, he⟩
                refine ⟨r, ?_, hstatus⟩
                rw [sourceOutcome]
                dsimp only
                rw [exec_bind, hr]

end Sources

/-! ## Jobs -/

def compileJob (compiler : Compiler) (p : Project) (job : Job) : Stage (Compilation × Bytes) := do
  let c ← callCompiler compiler p job
  return (c, ← serializedProgram p c)

theorem exec_adaptDeclarations_of_firstRefused {p : Project} {w : World} {d : Declaration}
    (hd : Declaration.FirstRefused p.declarations d) (hdefault : ∃ text, d.default = .text text) :
    ∃ r v, exec (adaptDeclarations p) w = (.ok (.error r), v) ∧
      v.journal.calls = w.journal.calls ∧
      r.status = match d.type with
        | .known _ => .compilationFailed
        | .unknown _ => .invalidData := by
  obtain ⟨e, hadapt, hall⟩ := hd.adaptAll
  obtain ⟨text, htext⟩ := hdefault
  rw [adaptDeclarations, hall]
  rw [Declaration.adapt] at hadapt
  cases htype : d.type with
  | unknown value =>
      simp only [htype] at hadapt
      obtain rfl := Except.error.inj hadapt
      exact ⟨⟨.invalidData, _, []⟩, w.logged .error _, rfl, rfl, rfl⟩
  | known type =>
      simp only [htype] at hadapt
      cases hvalue : d.typedDefault type with
      | ok value =>
          rw [hvalue] at hadapt
          cases hadapt
      | error f =>
          obtain ⟨fault, rfl⟩ := Declaration.typedDefault_error htext hvalue
          rw [hvalue] at hadapt
          obtain rfl := Except.error.inj hadapt
          exact ⟨failed _ _, w.logged .error _, rfl, rfl, rfl⟩

section Jobs

variable {config : Config} {p : Project} {w : World}
  (hpaths : ∀ s ∈ p.sources, s.IsPath) (hfiles : w.files.Reports config.encoding)

include hpaths hfiles

theorem exec_compile_of_unreadable (h : ∃ s ∈ presentSources w.files p.sources,
      ∃ e, w.files.readText s config.encoding = .error e) :
    ∃ r, (∀ compiler, exec (compile compiler config p) w = (.ok (.error r), w)) ∧
      r.status = .compilationFailed := by
  obtain ⟨r, hr, hstatus⟩ := exec_gatherText_of_unreadable hpaths hfiles h
  exact ⟨r, fun compiler => by rw [compile, exec_bind, hr], hstatus⟩

variable (hreadable : ∀ s ∈ presentSources w.files p.sources,
  ∃ text, w.files.readText s config.encoding = .ok text)

include hreadable

theorem exec_compile_of_empty (h : contentOf w.files config.encoding p.sources = "") :
    ∃ r, (∀ compiler, exec (compile compiler config p) w = (.ok (.error r), w)) ∧
      r.status = .compilationFailed := by
  refine ⟨failed ("Project " ++ p.name.quoted ++ " has no source content"), fun compiler => ?_, rfl⟩
  rw [compile, exec_bind, exec_gatherText_of_readable hpaths hfiles hreadable, h]
  rfl

variable (hcontent : contentOf w.files config.encoding p.sources ≠ "")

include hcontent

theorem exec_compile_of_content (compiler : Compiler) :
    exec (compile compiler config p) w =
      exec (do compileJob compiler p ⟨p.sourceName, contentOf w.files config.encoding p.sources,
        ← adaptDeclarations p⟩) w := by
  rw [compile, exec_bind, exec_gatherText_of_readable hpaths hfiles hreadable]
  dsimp only
  rw [if_neg hcontent]
  rfl

/-- A declaration whose type there is not is invalid; otherwise it is its default that fails. -/
theorem exec_compile_of_firstRefused {d : Declaration}
    (hd : Declaration.FirstRefused p.declarations d) (hdefault : ∃ text, d.default = .text text) :
    ∃ r v, (∀ compiler, exec (compile compiler config p) w = (.ok (.error r), v)) ∧
      v.journal.calls = w.journal.calls ∧
      r.status = match d.type with
        | .known _ => .compilationFailed
        | .unknown _ => .invalidData := by
  obtain ⟨r, v, hr, hcalls, hstatus⟩ := exec_adaptDeclarations_of_firstRefused (w := w) hd hdefault
  refine ⟨r, v, fun compiler => ?_, hcalls, hstatus⟩
  rw [exec_compile_of_content hpaths hfiles hreadable hcontent, exec_bind, hr]

theorem exec_compile_of_job {job : Job} (hjob : IsJob w.files config.encoding p job)
    (compiler : Compiler) :
    exec (compile compiler config p) w = exec (compileJob compiler p job) w := by
  have hadapted := adaptDeclarations_eq_ok (w := w).mpr
    ⟨Declaration.adaptAll_eq_ok.mpr hjob.declarations, rfl⟩
  rw [exec_compile_of_content hpaths hfiles hreadable hcontent, exec_bind, hadapted,
    ← hjob.sourceName, ← hjob.sourceText]

end Jobs

/-! ## What the compiler returns -/

section Returns

variable {compiler : Compiler} {p : Project} {job : Job} {w v : World} {c : Compilation}

theorem exec_compileJob_of_crash {e : Fault} (h : (compiler job).exec w = (.error e, v)) :
    ∃ r u, exec (compileJob compiler p job) w = (.ok (.error r), u) ∧
      r.status = .compilationFailed := by
  refine ⟨failed ("Compiler failed: " ++ e.message) [e.message],
    v.logged .error ("Compiler failed on project " ++ p.name.display), ?_, rfl⟩
  rw [compileJob, exec_bind, callCompiler, exec_bind, exec_liftM, Action.exec_attempt, h]
  rfl

/-- A program with errors, none at all, and one that refuses to become bytes. -/
theorem exec_serializedProgram_of_fails (w : World)
    (h : c.errors ≠ [] ∨ c.program = none ∨
      ∃ output e, c.program = some output ∧ output.serialize = .error e) :
    ∃ r u, exec (serializedProgram p c) w = (.ok (.error r), u) ∧
      r.status = .compilationFailed := by
  rw [serializedProgram, exec_bind, exec_liftM, logAll, Action.exec_updateJournal]
  dsimp only
  by_cases herrors : c.errors = []
  · simp only [herrors, List.isEmpty_nil, Bool.not_true, Bool.false_eq_true, if_false]
    rcases h with h | hnone | ⟨output, e, hprogram, hserialize⟩
    · exact absurd herrors h
    · rw [hnone]
      exact ⟨failed missingProgram [missingProgram], _, rfl, rfl⟩
    · simp only [hprogram, hserialize]
      exact ⟨failed _ [e.message], _, rfl, rfl⟩
  · have hsome : (!c.errors.isEmpty) = true := by simpa using herrors
    rw [if_pos hsome]
    exact ⟨failed _ (c.errors.map Diagnostic.render), _, rfl, rfl⟩

theorem exec_compileJob_of_returned (h : (compiler job).exec w = (.ok c, v))
    (hfails : c.errors ≠ [] ∨ c.program = none ∨
      ∃ output e, c.program = some output ∧ output.serialize = .error e) :
    ∃ r u, exec (compileJob compiler p job) w = (.ok (.error r), u) ∧
      r.status = .compilationFailed := by
  obtain ⟨r, u, hr, hstatus⟩ := exec_serializedProgram_of_fails (p := p) v hfails
  refine ⟨r, u, ?_, hstatus⟩
  rw [compileJob, exec_bind, callCompiler_eq_ok.mpr h]
  dsimp only
  rw [exec_bind, hr]

theorem exec_compileJob_of_serialized {output : Output} {blob : Bytes}
    (h : (compiler job).exec w = (.ok c, v)) (herrors : c.errors = [])
    (hprogram : c.program = some output) (hserialize : output.serialize = .ok blob) :
    ∃ u, exec (compileJob compiler p job) w = (.ok (.ok (c, blob)), u) := by
  obtain ⟨u, hu⟩ := exec_serializedProgram (p := p) herrors hprogram hserialize v
  refine ⟨u, ?_⟩
  rw [compileJob, exec_bind, callCompiler_eq_ok.mpr h]
  dsimp only
  rw [exec_bind, hu]
  rfl

end Returns

end Build

/-! ## Calls of the compiler -/

/-- An action that leaves the record of calls as it is. -/
def Action.Silent {α : Type} (a : Action α) : Prop :=
  ∀ w, (a.exec w).2.journal.calls = w.journal.calls

/-- The compiler with a record of the jobs that it is called with. -/
def Compiler.recorded (compiler : Compiler) : Compiler := fun job => do
  Action.recordCall (.job job)
  compiler job

namespace Action.Silent

variable {α β : Type}

theorem bind {a : Action α} {f : α → Action β} (ha : Silent a) (hf : ∀ x, Silent (f x)) :
    Silent (a >>= f) := by
  intro w
  have hw := ha w
  rw [exec_bind]
  rcases h : a.exec w with ⟨e | x, v⟩ <;> rw [h] at hw
  · exact hw
  · exact (hf x v).trans hw

theorem attempt {a : Action α} (ha : Silent a) : Silent (attempt a) := by
  intro w
  rw [exec_attempt]
  exact ha w

/-- No step of a build but the call of its compiler is recorded as a call. -/
theorem inherited (id : ProjectId) : Inherited id Silent where
  pure _ _ := rfl
  throw _ _ := rfl
  bind := bind
  attempt := attempt
  files {_ f} hf w := by
    rw [exec_bind_of_ok (exec_get _)]
    exact hf w.files w
  writeText _ _ _ w := by rw [exec_writeText]
  localization _ _ := rfl
  updateLocalization _ _ _ := rfl
  newLocalization _ _ := rfl
  project _ := rfl
  updateProject _ _ := rfl
  logAll _ _ _ := rfl
  event _ _ := rfl

end Action.Silent

namespace Build

open Stage

/-- Once the compiler has been called, no other call is recorded while the job is finished. -/
theorem calls_compileJob (compiler : Compiler) (p : Project) (job : Job) (w : World) :
    (exec (compileJob compiler p job) w).2.journal.calls =
      ((compiler job).exec w).2.journal.calls := by
  rw [compileJob, exec_bind, callCompiler, exec_bind, exec_liftM, Action.exec_attempt]
  rcases (compiler job).exec w with ⟨e | c, v⟩
  · rfl
  · have hserialized : (exec (serializedProgram p c) v).2.journal.calls = v.journal.calls :=
      (Action.Silent.inherited 0).serializedProgram p c v
    dsimp only [exec_pure]
    rw [exec_bind]
    rcases hexec : exec (serializedProgram p c) v with ⟨e | r | blob, u⟩ <;>
      rw [hexec] at hserialized <;> exact hserialized

end Build

end Dialogue
