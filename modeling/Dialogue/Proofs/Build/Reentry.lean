import Dialogue.Proofs.Build.Marks
import Dialogue.Proofs.World.Sound
import Dialogue.Session.Script

/-! A compiler may ask for builds while it is called. Those of the project that is being built are
refused without a trace, and those of other projects go on as ever. -/

namespace Dialogue

/-- What a compiler does when it is called for a project: it does something of its own, or asks for
a build of the same project, and goes on with what it finds. -/
inductive Course (α : Type) where
  | done (result : Except Fault α)
  | act (change : World → World) (next : World → Course α)
  | reenter (compiler : Compiler) (config : Config) (next : Except Fault BuildReport → Course α)

namespace Course

variable {α : Type} (id : ProjectId)

/-- A course as it is taken. -/
def run : Course α → Action α
  | .done result => Action.ofExcept result
  | .act change next => do
    modify change
    (next (← get)).run
  | .reenter compiler config next => do
    (next (← Action.attempt (build compiler config (some id)))).run

/-- The course without any further build: it goes on as after a refusal. -/
def plain : Course α → Action α
  | .done result => Action.ofExcept result
  | .act change next => do
    modify change
    (next (← get)).plain
  | .reenter _ _ next => do
    (next (.error (.inProgress (← Action.project id).name))).plain

/-- A course that leaves the mark of the project alone, and asks for builds only while the project
can be built. -/
def Proper : Course α → World → Prop
  | .done _, _ => True
  | .act change next, w =>
    ((change w).project id).building = true ∧ (next (change w)).Proper (change w)
  | .reenter _ _ next, w =>
    Build.precondition (w.project id) = .ok () ∧
      (next (.error (.inProgress (w.project id).name))).Proper w

variable {id}

theorem exec_run_act (change : World → World) (next : World → Course α) (w : World) :
    ((act change next).run id).exec w = ((next (change w)).run id).exec (change w) := rfl

theorem exec_run_reenter (compiler : Compiler) (config : Config)
    (next : Except Fault BuildReport → Course α) (w : World) :
    ((reenter compiler config next).run id).exec w =
      ((next ((build compiler config (some id)).exec w).1).run id).exec
        ((build compiler config (some id)).exec w).2 := by
  rw [run, Action.exec_bind_of_ok (Action.exec_attempt _ _)]

/-- Asking for builds makes no difference to a course. -/
theorem exec_run {course : Course α} {w : World} (hbuilding : (w.project id).building = true)
    (hproper : course.Proper id w) : (course.run id).exec w = (course.plain id).exec w := by
  induction course generalizing w with
  | done result => rfl
  | act change next ih => exact ih (change w) hproper.1 hproper.2
  | reenter compiler config next ih =>
      have hrefused := Build.exec_build_of_building compiler config hproper.1 hbuilding
      rw [exec_run_reenter, hrefused]
      exact ih _ hbuilding hproper.2

end Course

namespace Build

variable {id : ProjectId} {w : World} {compiler compiler' : Compiler} (config : Config)

/-! ## Compilers that do the same -/

/-- The compiler is called in the world in which the compile stage begins. -/
theorem exec_compile_congr (p : Project)
    (h : ∀ job, (compiler job).exec w = (compiler' job).exec w) :
    Stage.exec (compile compiler config p) w = Stage.exec (compile compiler' config p) w := by
  have hcall : ∀ job, Stage.exec (callCompiler compiler p job) w =
      Stage.exec (callCompiler compiler' p job) w := by
    intro job
    simp only [callCompiler, Stage.exec_bind, Stage.exec_liftM, Action.exec_attempt, h job]
  rw [compile, compile, Stage.exec_bind, Stage.exec_bind]
  rcases hsources : Stage.exec (gatherText config.encoding p.sources) w with ⟨e | r | text, v⟩
  · rfl
  · rfl
  · obtain rfl : w = v := by
      rw [← exec_gatherText_snd config.encoding p.sources w, hsources]
    dsimp only
    split
    · rfl
    · rw [Stage.exec_bind, Stage.exec_bind]
      rcases hadapt : Stage.exec (adaptDeclarations p) w with ⟨e | r | ds, v⟩
      · rfl
      · rfl
      · obtain ⟨-, rfl⟩ := adaptDeclarations_eq_ok.mp hadapt
        dsimp only
        rw [Stage.exec_bind, Stage.exec_bind, hcall]

/-- A build depends on nothing but what its compiler does when it is called in the world in which
the project has been marked. -/
theorem exec_build_congr
    (h : precondition (w.project id) = .ok () → ∀ job,
      (compiler job).exec (w.setBuilding id true) = (compiler' job).exec (w.setBuilding id true)) :
    (build compiler config (some id)).exec w = (build compiler' config (some id)).exec w := by
  cases hadmitted : precondition (w.project id) with
  | error e => rw [exec_build_of_error _ _ hadmitted, exec_build_of_error _ _ hadmitted]
  | ok _ =>
      cases hbuilding : (w.project id).building with
      | true =>
          rw [exec_build_of_building _ _ hadmitted hbuilding,
            exec_build_of_building _ _ hadmitted hbuilding]
      | false =>
          have hrun : (run compiler config id).exec (w.setBuilding id true) =
              (run compiler' config id).exec (w.setBuilding id true) := by
            rw [exec_run, exec_run, exec_compile_congr config _ (h hadmitted)]
          rw [exec_build_of_admitted _ _ hadmitted hbuilding,
            exec_build_of_admitted _ _ hadmitted hbuilding, hrun]

/-! ## The mark after a build -/

theorem building_setBuilding_false (w : World) (id : ProjectId) :
    ((w.setBuilding id false).project id).building = false := by
  by_cases hid : id < w.projects.size
  · rw [World.project_setBuilding hid]
  · rw [World.project_of_size_le _ (by simpa [World.setBuilding] using hid)]

/-- However a build of a project ends that was not being built, the project is not being built
afterwards. -/
theorem building_build (compiler : Compiler) (hbuilding : (w.project id).building = false) :
    (((build compiler config (some id)).exec w).2.project id).building = false := by
  cases hadmitted : precondition (w.project id) with
  | error e =>
      rw [exec_build_of_error _ _ hadmitted]
      exact hbuilding
  | ok _ =>
      rw [exec_build_of_admitted _ _ hadmitted hbuilding]
      exact building_setBuilding_false _ id

end Build

/-! ## Scripted compilers -/

namespace Reply

variable (replies : List Reply) (config : Config)

/-- The course of a compiler that answers from a script. -/
def course (job : Job) : Course Compilation :=
  .act id fun w =>
    let r := ofCall replies w.compilerCalls
    .act (fun w => { w with
      compilerCalls := w.compilerCalls + 1
      journal := { w.journal with calls := w.journal.calls ++ [.job job] } }) fun _ =>
    if r.reenter then .reenter (answer replies (pure ())) config fun
      | .ok _ => .done r.finish
      | .error e => .act (fun w => { w with
          journal := { w.journal with calls := w.journal.calls ++ [.fault e] } }) fun _ =>
        .done r.finish
    else .done r.finish

/-- A compiler that answers from a script takes this course. -/
theorem exec_compiler (id : ProjectId) (job : Job) (w : World) :
    (compiler replies config (some id) job).exec w =
      ((course replies config job).run id).exec w := by
  rw [compiler, answer, course, Course.exec_run_act, Course.exec_run_act,
    Action.exec_bind_of_ok (Action.exec_get w)]
  dsimp only [id_eq]
  by_cases hreenter : (ofCall replies w.compilerCalls).reenter = true
  · rw [if_pos hreenter, if_pos hreenter, Course.exec_run_reenter]
    let called : World := { w with
      compilerCalls := w.compilerCalls + 1
      journal := { w.journal with calls := w.journal.calls ++ [.job job] } }
    have hbuild : (Action.attempt (do
        let _ ← build (answer replies (pure ())) config (some id))).exec called =
        (.ok (((build (answer replies (pure ())) config (some id)).exec called).1.map fun _ => ()),
          ((build (answer replies (pure ())) config (some id)).exec called).2) := by
      rw [Action.exec_attempt, Action.exec_bind]
      rcases (build (answer replies (pure ())) config (some id)).exec called with
        ⟨e | report, v⟩ <;> rfl
    rw [Action.exec_bind_of_ok (Action.exec_modify _ _)]
    change Action.exec (Action.attempt (do
      let _ ← build (answer replies (pure ())) config (some id)) >>= _) called = _
    rw [Action.exec_bind_of_ok hbuild]
    change _ = (Course.run id _).exec
      ((build (answer replies (pure ())) config (some id)).exec called).2
    rcases (build (answer replies (pure ())) config (some id)).exec called with
      ⟨e | report, v⟩ <;> rfl
  · rw [if_neg hreenter, if_neg hreenter]
    rfl

theorem proper_course {id : ProjectId} {w : World} (hbuilding : (w.project id).building = true)
    (hadmitted : Build.precondition (w.project id) = .ok ()) (job : Job) :
    (course replies config job).Proper id w := by
  refine ⟨hbuilding, hbuilding, ?_⟩
  dsimp only
  split
  · exact ⟨hadmitted, hbuilding, trivial⟩
  · trivial

end Reply

/-! ## Builds inside builds -/

/-- The builds that a compiler asks for while it is called for a project: each one of the same
project is refused and leaves the world as it is, so that the build ends as if there had been none;
the mark of the project is gone however a build ends, and the next one runs. Builds of other
projects go on as if the project were not being built. -/
theorem builds_never_overlap (id : ProjectId) (course : Job → Course Compilation) (config : Config)
    (w : World) (hproper : ∀ job, (course job).Proper id (w.setBuilding id true)) :
    (∀ (compiler : Compiler) (config : Config) (u : World),
      (u.project id).building = true → Build.precondition (u.project id) = .ok () →
      (build compiler config (some id)).exec u =
        (.error (.inProgress (u.project id).name), u)) ∧
    (build (fun job => (course job).run id) config (some id)).exec w =
      (build (fun job => (course job).plain id) config (some id)).exec w ∧
    (∀ (compiler : Compiler) (config : Config) (u : World), (u.project id).building = false →
      ∀ v, ((build compiler config (some id)).exec u).2 = v → (v.project id).building = false ∧
      ∀ (compiler : Compiler) (config : Config), Build.precondition (v.project id) = .ok () →
        (build compiler config (some id)).exec v =
          (((Build.run compiler config id).exec (v.setBuilding id true)).1,
            ((Build.run compiler config id).exec (v.setBuilding id true)).2.setBuilding id false)) ∧
    (∀ (k : ProjectId) (compiler : Compiler) (config : Config) (u : World) (b : Bool), k ≠ id →
      compiler.Oblivious id →
      (build compiler config (some k)).exec (u.setBuilding id b) =
        (((build compiler config (some k)).exec u).1,
          ((build compiler config (some k)).exec u).2.setBuilding id b)) := by
  refine ⟨fun compiler config u hbuilding hadmitted => ?_, ?_, ?_, ?_⟩
  · exact Build.exec_build_of_building compiler config hadmitted hbuilding
  · refine Build.exec_build_congr config fun hadmitted job => Course.exec_run ?_ (hproper job)
    rw [World.project_setBuilding (Build.lt_size_of_precondition hadmitted)]
  · rintro compiler config u hbuilding v rfl
    have hunmarked := Build.building_build config compiler hbuilding
    exact ⟨hunmarked, fun compiler config hadmitted =>
      Build.exec_build_of_admitted compiler config hadmitted hunmarked⟩
  · exact fun k compiler config u b hk hc => oblivious_build hc config hk u b

/-- An answer that asks for a build first. -/
def Reply.impatient : Reply where
  reenter := true
  program := .bytes [1]
  lines := [(.text "line:1", { text := "Hello" })]

theorem builds_never_overlap_impatient :
    (build (fun job => (Reply.course [.impatient] {} job).run 0) {} (some 0)).exec World.bilingual =
      (build (fun job => (Reply.course [.impatient] {} job).plain 0) {} (some 0)).exec
        World.bilingual :=
  (builds_never_overlap 0 (Reply.course [.impatient] {}) {} World.bilingual
    (Reply.proper_course _ _ rfl rfl)).2.1

end Dialogue
