import Dialogue.Proofs.Build.Request

/-! A property that passes from actions to what is put together of them, and that every single step
of a build has, is one of the whole build. -/

namespace Dialogue

/-- A property of actions that the steps of a build of one project have, and that sequences of such
steps have too. -/
structure Action.Inherited (id : ProjectId) (P : {α : Type} → Action α → Prop) : Prop where
  pure : ∀ {α : Type} (x : α), P (Pure.pure x : Action α)
  throw : ∀ {α : Type} (e : Fault), P (MonadExcept.throw e : Action α)
  bind : ∀ {α β : Type} {a : Action α} {f : α → Action β}, P a → (∀ x, P (f x)) → P (a >>= f)
  attempt : ∀ {α : Type} {a : Action α}, P a → P (Action.attempt a)
  /-- Of the world nothing but its files is looked at without a step. -/
  files : ∀ {α : Type} {f : FileSystem → Action α}, (∀ fs, P (f fs)) →
    P (MonadState.get >>= fun w => f w.files)
  writeText : ∀ (path text : String) (encoding : Value), P (Action.writeText path text encoding)
  localization : ∀ k, P (Action.localization k)
  updateLocalization : ∀ k change, P (Action.updateLocalization k change)
  newLocalization : ∀ l, P (Action.newLocalization l)
  project : P (Action.project id)
  updateProject : ∀ change, P (Action.updateProject id change)
  logAll : ∀ level messages, P (Build.logAll level messages)
  /-- A listener is called. -/
  event : ∀ e, P (Action.updateJournal fun j => { j with events := j.events ++ [e] })

theorem Action.ext {α : Type} {a b : Action α} (h : ∀ w, a.exec w = b.exec w) : a = b :=
  funext h

/-- A source is looked up among the files, and that is all. -/
theorem Build.run_sourceText (encoding source : Value) : (sourceText encoding source).run =
    MonadState.get >>= fun w =>
      Action.ofExcept (sourceOutcome source (w.files.readText source encoding)) := by
  refine Action.ext fun w => ?_
  rw [Action.exec_bind_of_ok (Action.exec_get _), Action.exec_ofExcept]
  exact exec_sourceText encoding source w

namespace Action.Inherited

variable {id : ProjectId} {P : {α : Type} → Action α → Prop} (h : Inherited id P)

include h

theorem ofExcept {α : Type} (r : Except Fault α) : P (Action.ofExcept r) := by
  cases r with
  | ok x => exact h.pure x
  | error e => exact h.throw e

theorem log (level : LogLevel) (message : String) : P (Action.log level message) :=
  h.logAll level [message]

theorem existsAt (path : Value) : P (Action.existsAt path) :=
  h.files (f := fun fs => Action.ofExcept (fs.existsAt path)) fun _ => h.ofExcept _

theorem readText (path encoding : Value) : P (Action.readText path encoding) :=
  h.files (f := fun fs => Action.ofExcept (fs.readText path encoding)) fun _ => h.ofExcept _

theorem react (k : LocalizationId) (listener : Listener) : P (Action.react k listener) := by
  refine h.bind (h.event _) fun _ => ?_
  cases listener.reaction with
  | nothing => exact h.pure _
  | leave =>
      refine h.bind (h.localization k) fun _ => h.bind (h.ofExcept _) fun _ => ?_
      exact h.updateLocalization k _
  | fail => exact h.throw _
  | overlay => exact h.updateLocalization k _

theorem notify (k : LocalizationId) (listeners : List Listener) :
    P (Action.notify k listeners) := by
  induction listeners with
  | nil => exact h.pure _
  | cons listener rest ih => exact h.bind (h.react k listener) fun _ => ih

theorem persistTexts (k : LocalizationId) (lines : List (Scalar × Value)) :
    P (Action.persistTexts k lines) := by
  induction lines with
  | nil => exact h.pure _
  | cons line rest ih =>
      refine h.bind ?_ fun _ => ih
      exact h.bind (h.updateLocalization k _) fun _ => h.bind (h.localization k) fun _ =>
        h.notify k _

/-! ## Compiling -/

theorem stage_bind {α β : Type} {s : Build.Stage α} {f : α → Build.Stage β}
    (hs : P s.run) (hf : ∀ x, P (f x).run) : P (s >>= f).run := by
  rw [ExceptT.run_bind]
  refine h.bind hs fun result => ?_
  cases result with
  | ok x => exact hf x
  | error r => exact h.pure _

theorem stage_liftM {α : Type} {a : Action α} (ha : P a) :
    P (MonadLiftT.monadLift a : Build.Stage α).run :=
  h.bind ha fun _ => h.pure _

/-- A message is logged, and the build is rejected. -/
theorem log_throw {α : Type} (level : LogLevel) (message : String) (r : Build.Rejection) :
    P (do Action.log level message; MonadExcept.throw r : Build.Stage α).run :=
  h.stage_bind (h.stage_liftM (h.log level message)) fun _ => h.pure _

theorem sourceText (encoding source : Value) : P (Build.sourceText encoding source).run := by
  rw [Build.run_sourceText]
  exact h.files
    (f := fun fs => Action.ofExcept (Build.sourceOutcome source (fs.readText source encoding)))
    fun _ => h.ofExcept _

theorem gatherText (encoding : Value) (sources : List Value) :
    P (Build.gatherText encoding sources).run := by
  induction sources with
  | nil => exact h.pure _
  | cons source rest ih =>
      simp only [Build.gatherText]
      split
      · exact ih
      · refine h.stage_bind (h.stage_liftM (h.existsAt source)) fun found => ?_
        cases found with
        | false => exact ih
        | true =>
            refine h.stage_bind (h.sourceText encoding source) fun _ => ?_
            exact h.stage_bind ih fun _ => h.pure _

theorem adaptDeclarations (p : Project) : P (Build.adaptDeclarations p).run := by
  rw [Build.adaptDeclarations]
  split
  · exact h.pure _
  · split
    · exact h.log_throw _ _ _
    · exact h.log_throw _ _ _
    · exact h.throw _

theorem callCompiler {compiler : Compiler} {job : Job} (hc : P (compiler job)) (p : Project) :
    P (Build.callCompiler compiler p job).run := by
  refine h.stage_bind (h.stage_liftM (h.attempt hc)) fun result => ?_
  cases result with
  | ok c => exact h.pure _
  | error e => exact h.log_throw _ _ _

theorem serializedProgram (p : Project) (c : Compilation) :
    P (Build.serializedProgram p c).run := by
  refine h.stage_bind (h.stage_liftM (h.logAll _ _)) fun _ => ?_
  dsimp only
  split
  · exact h.stage_bind (h.stage_liftM (h.logAll _ _)) fun _ => h.pure _
  · split
    · exact h.log_throw _ _ _
    · split
      · exact h.pure _
      · exact h.log_throw _ _ _

variable {compiler : Compiler} (hc : ∀ job, P (compiler job)) (config : Config)

include hc in
theorem compile (p : Project) : P (Build.compile compiler config p).run := by
  refine h.stage_bind (h.gatherText config.encoding p.sources) fun text => ?_
  split
  · exact h.pure _
  · refine h.stage_bind (h.adaptDeclarations p) fun _ => ?_
    refine h.stage_bind (h.callCompiler (hc _) p) fun c => ?_
    exact h.stage_bind (h.serializedProgram p c) fun _ => h.pure _

/-! ## Publishing -/

theorem skip (report : BuildReport) (code : Value) (message : String) :
    P (Build.skip report code message) :=
  h.bind (h.log _ _) fun _ => h.pure _

theorem generateTable (p : Project) (code : Value) (entries : List StringTable.Entry) :
    P (Build.generateTable config p code entries) := by
  rw [Build.generateTable]
  dsimp only
  split
  · exact h.throw _
  · refine h.files (f := fun fs => do
      let target ← Action.ofExcept (Build.tablePath fs config p code)
      Action.log .info ("Generate " ++ target)
      Action.writeText target (StringTable.encode entries) config.encoding
      return target) fun fs => ?_
    refine h.bind (h.ofExcept _) fun target => h.bind (h.log _ _) fun _ => ?_
    exact h.bind (h.writeText _ _ _) fun _ => h.pure _

theorem loadTable (p : Project) (k : LocalizationId) (entries : List StringTable.Entry) :
    P (Build.loadTable config p k entries) := by
  refine h.bind (h.localization k) fun l => ?_
  dsimp only
  split
  case' h_1 =>
    refine h.bind (h.generateTable config p _ _) fun target => ?_
    refine h.bind (h.updateLocalization k _) fun _ => ?_
  all_goals
    refine h.bind (h.localization k) fun l => h.bind (h.readText _ _) fun text => ?_
    cases StringTable.decode text with
    | ok entries => exact h.pure entries
    | error e => exact h.throw _

theorem syncSlot {c : Build.Context} (hid : c.projectId = id) (slot : Nat) (k : LocalizationId)
    (report : BuildReport) : P (Build.syncSlot c slot k report) := by
  refine h.bind (h.localization k) fun l => ?_
  dsimp only
  split
  · exact h.skip _ _ _
  · refine h.bind (h.log _ _) fun _ => ?_
    split
    · split
      · exact h.skip _ _ _
      · exact h.bind (h.updateLocalization k _) fun _ =>
          h.bind (h.persistTexts k _) fun _ => h.pure _
    · refine h.bind (h.attempt (h.loadTable c.config c.project k c.entries)) fun result => ?_
      cases result with
      | error e =>
          dsimp only
          cases Build.skipMessage? c.project l.localeCode e with
          | some message => exact h.skip _ _ _
          | none => exact h.throw _
      | ok entries =>
          refine h.bind (h.localization k) fun l => h.bind (h.newLocalization _) fun fresh => ?_
          rw [hid]
          exact h.bind (h.updateProject _) fun _ => h.pure _

theorem syncSlots {c : Build.Context} (hid : c.projectId = id) (report : BuildReport) (slot : Nat)
    (ids : List LocalizationId) : P (Build.syncSlots c report slot ids) := by
  induction ids generalizing report slot with
  | nil => exact h.pure _
  | cons k rest ih => exact h.bind (h.syncSlot hid slot k report) fun report => ih report _

theorem publish (c : Compilation) (blob : Bytes) : P (Build.publish config id c blob) := by
  refine h.bind (h.updateProject _) fun _ => h.bind h.project fun p => ?_
  cases p.base with
  | none => exact h.throw _
  | some base =>
      refine h.bind (h.updateLocalization base _) fun _ => h.bind (h.updateProject _) fun _ => ?_
      exact h.bind h.project fun p => h.bind (h.ofExcept _) fun _ => h.syncSlots rfl _ _ _

include hc

theorem run : P (Build.run compiler config id) := by
  refine h.bind h.project fun p => h.bind (h.compile hc config p) fun result => ?_
  cases result with
  | error r => exact h.pure _
  | ok output => exact h.publish config output.1 output.2

/-- What the steps of a build and the calls of its compiler have, the build has. -/
theorem build : P (build compiler config (some id)) := by
  refine h.bind h.project fun p => ?_
  dsimp only
  cases Build.precondition p with
  | error e => exact h.bind (h.log _ _) fun _ => h.pure _
  | ok _ =>
      dsimp only
      split
      · exact h.throw _
      · refine h.bind (h.updateProject _) fun _ => ?_
        refine h.bind (h.attempt (h.run hc config)) fun result => ?_
        exact h.bind (h.updateProject _) fun _ => h.ofExcept result

end Action.Inherited

end Dialogue
