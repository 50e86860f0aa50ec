import Dialogue.Proofs.Build.Jobs
import Mathlib.Data.Nat.Find

/-! A build whose compile stage fails is judged by the first thing in its way. Whatever is in the
way of a job keeps the compiler from being called; otherwise it is called once, with the job. -/

namespace Dialogue.Build

open Stage

/-! ## What is in the way of a build -/

/-- What can be in the way of a build, in the order in which it counts. -/
inductive Obstacle where
  /-- There is no project, or it has no sources or no base. -/
  | unbuildable
  /-- A source cannot be read. -/
  | unreadable
  /-- The sources have no text. -/
  | empty
  /-- The first declaration that cannot be adapted has no type that there is. -/
  | unsupported
  /-- The default of the first declaration that cannot be adapted is not of its type. -/
  | misread
  /-- The compiler fails. -/
  | crash
  /-- The compiler reports errors. -/
  | errors
  /-- The compiler returns no program. -/
  | noProgram
  /-- The program does not become bytes. -/
  | unserializable
  deriving DecidableEq

namespace Obstacle

def rank : Obstacle → Nat
  | unbuildable => 0
  | unreadable => 1
  | empty => 2
  | unsupported => 3
  | misread => 4
  | crash => 5
  | errors => 6
  | noProgram => 7
  | unserializable => 8

def isEarly (o : Obstacle) : Bool :=
  o.rank < rank crash

def status : Obstacle → BuildStatus
  | unbuildable | unsupported => .invalidData
  | _ => .compilationFailed

theorem rank_injective {o o' : Obstacle} (h : o.rank = o'.rank) : o = o' := by
  cases o <;> cases o' <;> first | rfl | cases h

end Obstacle

def subject (target : Option ProjectId) (w : World) : Project :=
  target.elim {} w.project

def marked (target : Option ProjectId) (w : World) : World :=
  target.elim w fun id => w.setBuilding id true

/-- What the compiler comes to when it is called with the job of a project. -/
def Comes (compiler : Compiler) (config : Config) (target : Option ProjectId) (w : World)
    (result : Except Fault Compilation) : Prop :=
  ∃ job, IsJob w.files config.encoding (subject target w) job ∧
    ((compiler job).exec (marked target w)).1 = result

/-- Whether an obstacle is in the way of a build, whatever else is. -/
def Obstacle.Applies (compiler : Compiler) (config : Config) (target : Option ProjectId)
    (w : World) : Obstacle → Prop
  | .unbuildable => target = none ∨ (subject target w).sources = [] ∨ (subject target w).base = none
  | .unreadable => ∃ source ∈ presentSources w.files (subject target w).sources,
      ∃ e, w.files.readText source config.encoding = .error e
  | .empty => contentOf w.files config.encoding (subject target w).sources = ""
  | .unsupported => ∃ d, Declaration.FirstRefused (subject target w).declarations d ∧
      ∃ value, d.type = .unknown value
  | .misread => ∃ d, Declaration.FirstRefused (subject target w).declarations d ∧
      ∃ type, d.type = .known type
  | .crash => ∃ e, Comes compiler config target w (.error e)
  | .errors => ∃ c, Comes compiler config target w (.ok c) ∧ c.errors ≠ []
  | .noProgram => ∃ c, Comes compiler config target w (.ok c) ∧ c.program = none
  | .unserializable => ∃ c output e, Comes compiler config target w (.ok c) ∧
      c.program = some output ∧ output.serialize = .error e

structure Obstacle.IsFirst (compiler : Compiler) (config : Config) (target : Option ProjectId)
    (w : World) (o : Obstacle) : Prop where
  applies : o.Applies compiler config target w
  first : ∀ o' : Obstacle, o'.rank < o.rank → ¬ o'.Applies compiler config target w

section Verdict

variable {compiler : Compiler} {config : Config} {target : Option ProjectId}
  {id : ProjectId} {w : World} {o o' : Obstacle}

theorem Obstacle.IsFirst.unique (h : o.IsFirst compiler config target w)
    (h' : o'.IsFirst compiler config target w) : o = o' := by
  rcases Nat.lt_trichotomy o.rank o'.rank with hlt | heq | hlt
  · exact absurd h.applies (h'.first o hlt)
  · exact rank_injective heq
  · exact absurd h'.applies (h.first o' hlt)

theorem precondition_eq_ok {p : Project} (hsources : p.sources ≠ []) (hbase : p.base ≠ none) :
    precondition p = .ok () := by
  rw [precondition, if_neg (by simpa using hsources), if_neg (by simpa using hbase)]

theorem precondition_eq_error {p : Project} (h : p.sources = [] ∨ p.base = none) :
    ∃ e, precondition p = .error e := by
  rw [precondition]
  split
  · exact ⟨_, rfl⟩
  · rename_i hsources
    rcases h with h | h
    · exact absurd (by simp [h]) hsources
    · exact ⟨_, if_pos (by simp [h])⟩

/-- The obstacle is reported by a build, whatever the compiler, which is not called. -/
def Obstacle.Reported (config : Config) (target : Option ProjectId) (w : World) (o : Obstacle) :
    Prop :=
  ∃ report w', (∀ compiler, (build compiler config target).exec w = (.ok report, w')) ∧
    w'.journal.calls = w.journal.calls ∧ report.status = o.status

/-- A project without sources or base, or none at all, is refused. -/
theorem reported_unbuildable (h : Obstacle.unbuildable.Applies compiler config target w) :
    Obstacle.unbuildable.Reported config target w := by
  cases target with
  | none =>
      exact ⟨{ status := .invalidData, reason := some (Fault.project .missing).message },
        w.logged .error _, fun _ => rfl, rfl, rfl⟩
  | some id =>
      obtain ⟨e, he⟩ := precondition_eq_error (h.resolve_left (by simp))
      exact ⟨_, _, fun compiler => exec_build_of_error compiler config he, rfl, rfl⟩

theorem admitted_of_buildable (h : ¬ Obstacle.unbuildable.Applies compiler config target w) :
    ∃ id, target = some id ∧ precondition (w.project id) = .ok () := by
  obtain ⟨hsome, hfilled, hbase⟩ : target ≠ none ∧ (subject target w).sources ≠ [] ∧
      (subject target w).base ≠ none := by simpa only [Obstacle.Applies, not_or] using h
  obtain ⟨id, rfl⟩ := Option.ne_none_iff_exists'.mp hsome
  exact ⟨id, rfl, precondition_eq_ok hfilled hbase⟩

theorem readable_of_not_applies (h : ¬ Obstacle.unreadable.Applies compiler config (some id) w) :
    ∀ s ∈ presentSources w.files (w.project id).sources,
      ∃ text, w.files.readText s config.encoding = .ok text := by
  intro s hs
  cases hread : w.files.readText s config.encoding with
  | ok text => exact ⟨text, rfl⟩
  | error e => exact absurd ⟨s, hs, e, hread⟩ h

/-- A rejection is reported. -/
theorem reported_of_rejected {r : Rejection} {v : World}
    (hadmitted : precondition (w.project id) = .ok ()) (hidle : (w.project id).building = false)
    (h : ∀ compiler, exec (compile compiler config { w.project id with building := true })
      (w.setBuilding id true) = (.ok (.error r), v))
    (hcalls : v.journal.calls = w.journal.calls) (hstatus : r.status = o.status) :
    o.Reported config (some id) w := by
  refine ⟨r.report, v.setBuilding id false, fun compiler => ?_, hcalls, hstatus⟩
  rw [exec_build_of_admitted compiler config hadmitted hidle, exec_run,
    World.project_setBuilding (lt_size_of_precondition hadmitted), h]

/-- If something is in the way of a job, one thing is the first. -/
theorem exists_isFirst (h : ∃ o : Obstacle, o.isEarly = true ∧ o.Applies compiler config target w) :
    ∃ o : Obstacle, o.isEarly = true ∧ o.IsFirst compiler config target w := by
  classical
  have hrank : ∃ n, ∃ o : Obstacle, o.rank = n ∧ o.isEarly = true ∧
      o.Applies compiler config target w := h.imp' Obstacle.rank fun o ho => ⟨o, rfl, ho⟩
  obtain ⟨o, ho, hearly, happlies⟩ := Nat.find_spec hrank
  refine ⟨o, hearly, happlies, fun o' hlt happlies' => ?_⟩
  have hearly' : o'.isEarly = true :=
    decide_eq_true (Nat.lt_trans hlt (of_decide_eq_true hearly))
  exact Nat.find_min hrank (ho ▸ hlt) ⟨o', rfl, hearly', happlies'⟩

/-- A project that has a job. What is left of its compile stage is to compile the job. -/
structure Ready (config : Config) (target : Option ProjectId) (w : World) (id : ProjectId)
    (job : Job) : Prop where
  target : target = some id
  admitted : precondition (w.project id) = .ok ()
  idle : (w.project id).building = false
  isJob : IsJob w.files config.encoding (w.project id) job
  stage : ∀ compiler, exec (compile compiler config { w.project id with building := true })
      (w.setBuilding id true) =
    exec (compileJob compiler { w.project id with building := true } job) (w.setBuilding id true)

variable (hidle : ∀ id ∈ target, (w.project id).building = false)
  (hfiles : w.files.Reports config.encoding)
  (hsources : ∀ source ∈ (subject target w).sources, source.IsPath)
  (hdefaults : ∀ d ∈ (subject target w).declarations, ∃ text, d.default = .text text)

include hidle hfiles hsources hdefaults

/-- The first thing in the way of a job is reported without a call of the compiler. -/
theorem Obstacle.IsFirst.reported (h : o.IsFirst compiler config target w)
    (hearly : o.isEarly = true) : o.Reported config target w := by
  cases o with
  | unbuildable => exact reported_unbuildable h.applies
  | unreadable =>
      obtain ⟨id, rfl, hadmitted⟩ := admitted_of_buildable (h.first .unbuildable (by decide))
      obtain ⟨r, hr, hstatus⟩ := exec_compile_of_unreadable (w := w.setBuilding id true)
        (p := { w.project id with building := true }) hsources hfiles h.applies
      exact reported_of_rejected hadmitted (hidle id rfl) hr rfl hstatus
  | empty =>
      obtain ⟨id, rfl, hadmitted⟩ := admitted_of_buildable (h.first .unbuildable (by decide))
      have hreadable := readable_of_not_applies (h.first .unreadable (by decide))
      obtain ⟨r, hr, hstatus⟩ := exec_compile_of_empty (w := w.setBuilding id true)
        (p := { w.project id with building := true }) hsources hfiles hreadable h.applies
      exact reported_of_rejected hadmitted (hidle id rfl) hr rfl hstatus
  | unsupported | misread =>
      obtain ⟨id, rfl, hadmitted⟩ := admitted_of_buildable (h.first .unbuildable (by decide))
      have hreadable := readable_of_not_applies (h.first .unreadable (by decide))
      obtain ⟨d, hd, value, htype⟩ := h.applies
      obtain ⟨r, v, hr, hcalls, hstatus⟩ := exec_compile_of_firstRefused
        (w := w.setBuilding id true)
        (p := { w.project id with building := true }) hsources hfiles hreadable
        (h.first .empty (by decide)) hd (hdefaults d hd.mem)
      rw [htype] at hstatus
      exact reported_of_rejected hadmitted (hidle id rfl) hr hcalls hstatus
  | crash | errors | noProgram | unserializable => cases hearly

omit hdefaults in
theorem exists_ready
    (h : ∀ o : Obstacle, o.isEarly = true → ¬ o.Applies compiler config target w) :
    ∃ id job, Ready config target w id job := by
  obtain ⟨id, rfl, hadmitted⟩ := admitted_of_buildable (h .unbuildable rfl)
  have hreadable := readable_of_not_applies (h .unreadable rfl)
  rcases Declaration.gives_or_firstRefused (w.project id).declarations with ⟨as, has⟩ | ⟨d, hd⟩
  case inl =>
    let job : Job := ⟨(w.project id).sourceName,
      contentOf w.files config.encoding (w.project id).sources, as⟩
    have hjob : IsJob w.files config.encoding (w.project id) job := ⟨rfl, rfl, has⟩
    refine ⟨id, job, rfl, hadmitted, hidle id rfl, hjob, fun compiler' => ?_⟩
    exact exec_compile_of_job (w := w.setBuilding id true)
      (p := { w.project id with building := true }) hsources hfiles hreadable (h .empty rfl)
      ⟨hjob.sourceName, hjob.sourceText, hjob.declarations⟩ compiler'
  case inr =>
    cases htype : d.type with
    | known type => exact absurd ⟨d, hd, type, htype⟩ (h .misread rfl)
    | unknown value => exact absurd ⟨d, hd, value, htype⟩ (h .unsupported rfl)

end Verdict

theorem IsJob.unique {fs : FileSystem} {encoding : Value} {p : Project} {job job' : Job}
    (h : IsJob fs encoding p job) (h' : IsJob fs encoding p job') : job = job' := by
  have hdeclarations : job.declarations = job'.declarations := by
    have hall := Declaration.adaptAll_eq_ok.mpr h.declarations
    rw [Declaration.adaptAll_eq_ok.mpr h'.declarations] at hall
    exact (Except.ok.inj hall).symm
  rcases job with ⟨name, text, declarations⟩
  rcases job' with ⟨name', text', declarations'⟩
  rw [Job.mk.injEq]
  exact ⟨h.sourceName.trans h'.sourceName.symm, h.sourceText.trans h'.sourceText.symm,
    hdeclarations⟩

namespace Ready

variable {compiler : Compiler} {config : Config} {target : Option ProjectId} {id : ProjectId}
  {job : Job} {w : World} {o : Obstacle} (hready : Ready config target w id job)

include hready

theorem comes_iff {result : Except Fault Compilation} :
    Comes compiler config target w result ↔
      ((compiler job).exec (w.setBuilding id true)).1 = result := by
  obtain rfl := hready.target
  constructor
  · rintro ⟨job', hjob', hresult⟩
    rw [hready.isJob.unique hjob']
    exact hresult
  · exact fun h => ⟨job, hready.isJob, h⟩

/-- What comes of a build is what comes of its job. -/
theorem exec_build (compiler : Compiler) :
    (build compiler config target).exec w =
      match exec (compileJob compiler { w.project id with building := true } job)
        (w.setBuilding id true) with
      | (.ok (.ok (c, blob)), u) =>
        (((publish config id c blob).exec u).1,
          ((publish config id c blob).exec u).2.setBuilding id false)
      | (.ok (.error r), u) => (.ok r.report, u.setBuilding id false)
      | (.error e, u) => (.error e, u.setBuilding id false) := by
  obtain rfl := hready.target
  rw [exec_build_of_admitted compiler config hready.admitted hready.idle, exec_run,
    World.project_setBuilding (lt_size_of_precondition hready.admitted), hready.stage]
  rcases exec (compileJob compiler { w.project id with building := true } job)
    (w.setBuilding id true) with ⟨e | r | ⟨c, blob⟩, u⟩ <;> rfl

/-- A build asks its compiler for nothing but the job, and only where the project has been
marked. -/
theorem exec_build_congr {compiler' : Compiler}
    (h : (compiler' job).exec (w.setBuilding id true) =
      (compiler job).exec (w.setBuilding id true)) :
    (build compiler' config target).exec w = (build compiler config target).exec w := by
  have hstage : exec (compileJob compiler' { w.project id with building := true } job)
      (w.setBuilding id true) =
      exec (compileJob compiler { w.project id with building := true } job)
        (w.setBuilding id true) := by
    simp only [compileJob, callCompiler, exec_bind, exec_liftM, Action.exec_attempt, h]
  rw [hready.exec_build, hready.exec_build, hstage]

theorem exec_compileJob_of_applies (h : o.Applies compiler config target w)
    (hlate : o.isEarly = false) :
    ∃ r u, exec (compileJob compiler { w.project id with building := true } job)
      (w.setBuilding id true) = (.ok (.error r), u) ∧ r.status = o.status := by
  have hreturned : ∀ {c}, Comes compiler config target w (.ok c) →
      (compiler job).exec (w.setBuilding id true) =
        (.ok c, ((compiler job).exec (w.setBuilding id true)).2) :=
    fun hc => Prod.ext (hready.comes_iff.mp hc) rfl
  cases o with
  | unbuildable | unreadable | empty | unsupported | misread => cases hlate
  | crash =>
      obtain ⟨e, he⟩ := h
      exact exec_compileJob_of_crash (Prod.ext (hready.comes_iff.mp he) rfl)
  | errors =>
      obtain ⟨c, hc, herrors⟩ := h
      exact exec_compileJob_of_returned (hreturned hc) (.inl herrors)
  | noProgram =>
      obtain ⟨c, hc, hnone⟩ := h
      exact exec_compileJob_of_returned (hreturned hc) (.inr (.inl hnone))
  | unserializable =>
      obtain ⟨c, output, e, hc, hprogram, hserialize⟩ := h
      exact exec_compileJob_of_returned (hreturned hc)
        (.inr (.inr ⟨output, e, hprogram, hserialize⟩))

theorem exists_compiled (h : ∀ o : Obstacle, ¬ o.Applies compiler config target w) :
    ∃ c blob u, exec (compileJob compiler { w.project id with building := true } job)
      (w.setBuilding id true) = (.ok (.ok (c, blob)), u) := by
  rcases hcall : (compiler job).exec (w.setBuilding id true) with ⟨e | c, v⟩
  · exact absurd ⟨e, hready.comes_iff.mpr (by rw [hcall])⟩ (h .crash)
  · have hcomes : Comes compiler config target w (.ok c) := hready.comes_iff.mpr (by rw [hcall])
    have herrors : c.errors = [] := by
      by_contra herrors
      exact h .errors ⟨c, hcomes, herrors⟩
    cases hprogram : c.program with
    | none => exact absurd ⟨c, hcomes, hprogram⟩ (h .noProgram)
    | some output =>
        cases hserialize : output.serialize with
        | error e => exact absurd ⟨c, output, e, hcomes, hprogram, hserialize⟩ (h .unserializable)
        | ok blob =>
            obtain ⟨u, hu⟩ := exec_compileJob_of_serialized hcall herrors hprogram hserialize
            exact ⟨c, blob, u, hu⟩

/-- After a build no calls are recorded but those that have been when the compiler returns. -/
theorem calls_build (compiler : Compiler) :
    ((build compiler config target).exec w).2.journal.calls =
      ((compiler job).exec (w.setBuilding id true)).2.journal.calls := by
  rw [hready.exec_build, ← calls_compileJob compiler { w.project id with building := true }]
  rcases exec (compileJob compiler { w.project id with building := true } job)
    (w.setBuilding id true) with ⟨e | r | ⟨c, blob⟩, u⟩
  · rfl
  · rfl
  · exact (Action.Silent.inherited id).publish config c blob u

end Ready

end Build

/-- A project with three declarations. The first can be adapted; the default of the second is not of
its type, and the third has no type that there is. -/
def World.undeclarable : World where
  localizations := #[{ localeCode := .text "en" }]
  projects := #[{
    sources := [.null, .text "main"], base := some 0, localizations := [0]
    declarations := [{ name := .text "$name", type := .known .string },
      { name := .text "$met", type := .known .boolean, default := .text "maybe" },
      { name := .text "$odd", type := .unknown (.text "list") }] }]
  files := .memory { files := [("main", .bytes (Text.Utf8.encode "title: Start".toList))] }

end Dialogue
