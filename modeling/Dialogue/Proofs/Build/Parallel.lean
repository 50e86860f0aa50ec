import Dialogue.Proofs.Build.Compile

/-! The compile stage looks at the files, and at the name, the path, the sources and the
declarations of a project. In two worlds with the same files it comes to the same for two projects
that agree in these, if their compilers give the same answers. -/

namespace Dialogue

/-- A compiler that comes to the same for a job wherever it is called for a project, and leaves the
store alone. -/
def Compiler.Answers (compiler : Compiler) (id : ProjectId)
    (answer : Job → Except Fault Compilation) : Prop :=
  ∀ (job : Job) (w : World), (w.project id).building = true →
    ∃ w', (compiler job).exec w = (answer job, w') ∧ w.SameStore w'

theorem Compiler.answers_returning (c : Compilation) (id : ProjectId) :
    (Compiler.returning c).Answers id fun _ => .ok c :=
  fun _ w _ => ⟨w, rfl, .refl w⟩

namespace Build

open Dialogue.Action (IgnoresLog)

namespace Stage

variable {α β : Type} {I I' : World → Prop}

/-- Two stages that come to the same when the first begins in a world of `I` and the second in a
world of `I'`, and end in such worlds. -/
def Parallel (I I' : World → Prop) (s s' : Stage α) : Prop :=
  ∀ w w', I w → I' w' → (exec s w).1 = (exec s' w').1 ∧ I (exec s w).2 ∧ I' (exec s' w').2

namespace Parallel

theorem pure (x : α) : Parallel I I' (Pure.pure x) (Pure.pure x) :=
  fun _ _ h h' => ⟨rfl, h, h'⟩

theorem throw (r : Rejection) :
    Parallel I I' (MonadExcept.throw r : Stage α) (MonadExcept.throw r) :=
  fun _ _ h h' => ⟨rfl, h, h'⟩

theorem throwThe (e : Fault) : Parallel I I' (throwThe Fault e : Stage α) (throwThe Fault e) :=
  fun _ _ h h' => ⟨rfl, h, h'⟩

theorem bind {s s' : Stage α} {f f' : α → Stage β} (hs : Parallel I I' s s')
    (hf : ∀ x, Parallel I I' (f x) (f' x)) : Parallel I I' (s >>= f) (s' >>= f') := by
  intro w w' hw hw'
  obtain ⟨hresult, hv, hv'⟩ := hs w w' hw hw'
  rw [exec_bind, exec_bind]
  rcases h : exec s w with ⟨e | r | x, v⟩ <;> rcases h' : exec s' w' with ⟨e' | r' | x', v'⟩ <;>
    rw [h] at hresult hv <;> rw [h'] at hresult hv' <;> cases hresult
  · exact ⟨rfl, hv, hv'⟩
  · exact ⟨rfl, hv, hv'⟩
  · exact hf x v v' hv hv'

theorem updateJournal (hI : IgnoresLog I) (hI' : IgnoresLog I') {change : Journal → Journal}
    (h : ∀ j, (change j).events = j.events) :
    Parallel I I' (liftM (Action.updateJournal change)) (liftM (Action.updateJournal change)) :=
  fun w w' hw hw' => ⟨rfl, hI w change h hw, hI' w' change h hw'⟩

theorem log (hI : IgnoresLog I) (hI' : IgnoresLog I') (level : LogLevel) (message : String) :
    Parallel I I' (liftM (Action.log level message)) (liftM (Action.log level message)) :=
  updateJournal hI hI' fun _ => rfl

theorem logAll (hI : IgnoresLog I) (hI' : IgnoresLog I') (level : LogLevel)
    (messages : List String) :
    Parallel I I' (liftM (Build.logAll level messages)) (liftM (Build.logAll level messages)) :=
  updateJournal hI hI' fun _ => rfl

end Parallel

end Stage

/-! ## The parts of the stage -/

section Parts

open Stage

variable {I I' : World → Prop}

theorem parallel_gatherText (hfiles : ∀ w w', I w → I' w' → w'.files = w.files) (encoding : Value)
    (sources : List Value) :
    Parallel I I' (gatherText encoding sources) (gatherText encoding sources) := by
  intro w w' hw hw'
  have hsame := hfiles w w' hw hw'
  rw [exec_gatherText_snd, exec_gatherText_snd]
  refine ⟨?_, hw, hw'⟩
  exact (exec_gatherText_fst encoding (w := w) (u := w') (fun _ _ => by rw [hsame])
    fun _ _ => by rw [hsame]).symm

variable (hI : IgnoresLog I) (hI' : IgnoresLog I')

include hI hI'

theorem parallel_adaptDeclarations (p : Project) :
    Parallel I I' (adaptDeclarations p) (adaptDeclarations p) := by
  rw [adaptDeclarations]
  split
  · exact .pure _
  · split
    · exact .bind (.log hI hI' _ _) fun _ => .throw _
    · exact .bind (.log hI hI' _ _) fun _ => .throw _
    · exact .throwThe _

theorem parallel_serializedProgram (p : Project) (c : Compilation) :
    Parallel I I' (serializedProgram p c) (serializedProgram p c) := by
  refine .bind (.logAll hI hI' _ _) fun _ => ?_
  dsimp only
  split
  · refine .bind (.logAll hI hI' _ _) fun _ => ?_
    rw [throw_bind]
    exact .throw _
  · split
    · exact .bind (.log hI hI' _ _) fun _ => .throw _
    · split
      · exact .pure _
      · exact .bind (.log hI hI' _ _) fun _ => .throw _

theorem parallel_callCompiler {compiler compiler' : Compiler}
    (h : ∀ job, Parallel I I' (liftM (Action.attempt (compiler job)) : Stage _)
      (liftM (Action.attempt (compiler' job)))) (p : Project) (job : Job) :
    Parallel I I' (callCompiler compiler p job) (callCompiler compiler' p job) := by
  refine .bind (h job) fun result => ?_
  cases result with
  | ok c => exact .pure _
  | error e => exact .bind (.log hI hI' _ _) fun _ => .throw _

end Parts

/-! ## The stage -/

/-- Agreement in all of two projects that the compile stage depends on. -/
structure SameInput (p p' : Project) : Prop where
  name : p'.name = p.name
  path : p'.path = p.path
  sources : p'.sources = p.sources
  declarations : p'.declarations = p.declarations

section Compile

open Stage

variable {compiler compiler' : Compiler} {config : Config} {p p' : Project} {w w' : World}

theorem SameInput.adaptDeclarations (h : SameInput p p') :
    adaptDeclarations p' = Build.adaptDeclarations p := by
  unfold Build.adaptDeclarations
  rw [h.declarations, h.name]

theorem SameInput.callCompiler (h : SameInput p p') (compiler : Compiler) (job : Job) :
    callCompiler compiler p' job = Build.callCompiler compiler p job := by
  unfold Build.callCompiler
  rw [h.name]

theorem SameInput.serializedProgram (h : SameInput p p') (c : Compilation) :
    serializedProgram p' c = Build.serializedProgram p c := by
  unfold Build.serializedProgram
  rw [h.name]

theorem SameInput.compile (h : SameInput p p') :
    compile compiler config p' = Build.compile compiler config p := by
  unfold Build.compile Project.sourceName
  rw [h.sources, h.name, h.path, h.adaptDeclarations]
  simp only [h.callCompiler, h.serializedProgram]

theorem parallel_answers {id id' : ProjectId} {answer : Job → Except Fault Compilation}
    (hc : compiler.Answers id answer) (hc' : compiler'.Answers id' answer)
    (hw : (w.project id).building = true) (hw' : (w'.project id').building = true) (job : Job) :
    Parallel w.SameStore w'.SameStore (liftM (Action.attempt (compiler job)) : Stage _)
      (liftM (Action.attempt (compiler' job))) := by
  intro u u' hu hu'
  obtain ⟨v, hcall, hv⟩ := hc job u (by rwa [hu.project])
  obtain ⟨v', hcall', hv'⟩ := hc' job u' (by rwa [hu'.project])
  rw [exec_liftM, exec_liftM, Action.exec_attempt, Action.exec_attempt, hcall, hcall']
  exact ⟨rfl, hu.trans hv, hu'.trans hv'⟩

/-- The compile stages of two projects come to the same. -/
theorem parallel_compile {id id' : ProjectId} {answer : Job → Except Fault Compilation}
    (hc : compiler.Answers id answer) (hc' : compiler'.Answers id' answer)
    (hw : (w.project id).building = true) (hw' : (w'.project id').building = true)
    (hfiles : w'.files = w.files) (hinput : SameInput p p') :
    Parallel w.SameStore w'.SameStore (compile compiler config p)
      (compile compiler' config p') := by
  have hI := Action.ignoresLog_sameStore w
  have hI' := Action.ignoresLog_sameStore w'
  have hsame : ∀ u u', w.SameStore u → w'.SameStore u' → u'.files = u.files :=
    fun u u' hu hu' => by rw [hu'.files, hu.files, hfiles]
  rw [hinput.compile]
  refine .bind (parallel_gatherText hsame _ _) fun text => ?_
  split
  · exact .throw _
  · refine .bind (parallel_adaptDeclarations hI hI' p) fun declarations => ?_
    refine .bind (parallel_callCompiler hI hI' (parallel_answers hc hc' hw hw') p _) fun c => ?_
    exact .bind (parallel_serializedProgram hI hI' p c) fun _ => .pure _

end Compile

end Build

end Dialogue
