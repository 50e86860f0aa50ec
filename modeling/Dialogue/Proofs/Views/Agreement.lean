import Dialogue.Proofs.Build.Compile
import Dialogue.Proofs.Views.Fresh

/-! Worlds that differ at most in the views their projects keep, and actions that cannot tell such
worlds apart. A build is one of them as long as its compiler is. -/

namespace Dialogue

/-- Projects that differ at most in the views they keep, all of which are sound. -/
structure Project.SameButViews (p p' : Project) : Prop where
  left : p.ViewsSound
  right : p'.ViewsSound
  same : ∃ views version, p' = { p with views := views, viewsVersion := version }

namespace Project.SameButViews

variable {p p' : Project}

theorem refl (h : p.ViewsSound) : p.SameButViews p :=
  ⟨h, h, p.views, p.viewsVersion, rfl⟩

theorem symm (h : p.SameButViews p') : p'.SameButViews p := by
  obtain ⟨hleft, hright, views, version, rfl⟩ := h
  exact ⟨hright, hleft, p.views, p.viewsVersion, rfl⟩

theorem trans {p'' : Project} (h : p.SameButViews p') (h' : p'.SameButViews p'') :
    p.SameButViews p'' := by
  obtain ⟨hleft, -, views, version, rfl⟩ := h
  obtain ⟨-, hright, views', version', rfl⟩ := h'
  exact ⟨hleft, hright, views', version', rfl⟩

theorem withViews {views : Views} (h : p.ViewsSound) (hviews : (p.withViews views).ViewsSound) :
    p.SameButViews (p.withViews views) :=
  ⟨h, hviews, views, p.blobVersion, rfl⟩

theorem setBlob (h : p.SameButViews p') (blob : Option Bytes) :
    (p.setBlob blob).SameButViews (p'.setBlob blob) := by
  obtain ⟨hleft, hright, views, version, rfl⟩ := h
  exact ⟨hleft.setBlob blob, hright.setBlob blob, views, version, rfl⟩

theorem setLocalizations (h : p.SameButViews p') (change : List LocalizationId →
    List LocalizationId) :
    { p with localizations := change p.localizations }.SameButViews
      { p' with localizations := change p'.localizations } := by
  obtain ⟨hleft, hright, views, version, rfl⟩ := h
  exact ⟨hleft.congr rfl rfl rfl rfl rfl rfl, hright.congr rfl rfl rfl rfl rfl rfl, views, version,
    rfl⟩

theorem setBuilding (h : p.SameButViews p') (building : Bool) :
    { p with building }.SameButViews { p' with building } := by
  obtain ⟨hleft, hright, views, version, rfl⟩ := h
  exact ⟨hleft.congr rfl rfl rfl rfl rfl rfl, hright.congr rfl rfl rfl rfl rfl rfl, views, version,
    rfl⟩

/-- What is made of the blob is a matter of the blob alone. -/
theorem fresh (h : p.SameButViews p') (v : View) : v.fresh p' = v.fresh p := by
  obtain ⟨-, -, views, version, rfl⟩ := h
  cases v <;> rfl

end Project.SameButViews

/-- A world in which the views that projects keep are sound. -/
def World.ViewsSound (w : World) : Prop :=
  ∀ id, (w.project id).ViewsSound

/-- Worlds that differ at most in the views that projects keep, all of which are sound, and in the
parses and warnings that come with making them. -/
structure World.SameButViews (w w' : World) : Prop where
  localizations : w'.localizations = w.localizations
  size : w'.projects.size = w.projects.size
  project : ∀ id, (w.project id).SameButViews (w'.project id)
  files : w'.files = w.files
  journal : w'.journal = { w.journal with warnings := w'.journal.warnings }

namespace World.SameButViews

variable {w w' : World}

theorem refl (h : w.ViewsSound) : w.SameButViews w :=
  ⟨rfl, rfl, fun id => .refl (h id), rfl, rfl⟩

theorem symm (h : w.SameButViews w') : w'.SameButViews w where
  localizations := h.localizations.symm
  size := h.size.symm
  project id := (h.project id).symm
  files := h.files.symm
  journal := by rw [h.journal]

theorem trans {w'' : World} (h : w.SameButViews w') (h' : w'.SameButViews w'') :
    w.SameButViews w'' where
  localizations := h'.localizations.trans h.localizations
  size := h'.size.trans h.size
  project id := (h.project id).trans (h'.project id)
  files := h'.files.trans h.files
  journal := by rw [h'.journal, h.journal]

theorem localization (h : w.SameButViews w') (id : LocalizationId) :
    w'.localization id = w.localization id := by
  rw [World.localization, h.localizations, World.localization]

theorem setLocalizations (h : w.SameButViews w') (ls : Array Localization) :
    { w with localizations := ls }.SameButViews { w' with localizations := ls } :=
  ⟨rfl, h.size, h.project, h.files, h.journal⟩

theorem setFiles (h : w.SameButViews w') (files : FileSystem) :
    { w with files := files }.SameButViews { w' with files := files } :=
  ⟨h.localizations, h.size, h.project, rfl, h.journal⟩

theorem left (h : w.SameButViews w') : w.ViewsSound :=
  fun id => (h.project id).left

theorem right (h : w.SameButViews w') : w'.ViewsSound :=
  fun id => (h.project id).right

theorem setProject (h : w.SameButViews w') (id : ProjectId) {p p' : Project}
    (hp : p.SameButViews p') : (w.setProject id p).SameButViews (w'.setProject id p') where
  localizations := h.localizations
  size := by rw [World.size_setProject, World.size_setProject, h.size]
  project k := by
    by_cases hk : k = id
    · subst hk
      by_cases hlt : k < w.projects.size
      · rwa [World.project_setProject_self w hlt, World.project_setProject_self w' (h.size ▸ hlt)]
      · have hle := Nat.le_of_not_lt hlt
        rw [World.setProject, World.setProject, Array.setIfInBounds_eq_of_size_le hle,
          Array.setIfInBounds_eq_of_size_le (h.size ▸ hle)]
        exact h.project k
    · rw [World.project_setProject_of_ne w hk, World.project_setProject_of_ne w' hk]
      exact h.project k
  files := h.files
  journal := h.journal

end World.SameButViews

namespace Action

variable {α β : Type}

/-- Actions that come to the same in worlds with other views, and leave such worlds. -/
def Agree (a a' : Action α) : Prop :=
  ∀ w w', World.SameButViews w w' →
    (a.exec w).1 = (a'.exec w').1 ∧ World.SameButViews (a.exec w).2 (a'.exec w').2

/-- An action that cannot tell worlds with other views apart. -/
abbrev IgnoresViews (a : Action α) : Prop :=
  Agree a a

namespace Agree

theorem symm {a a' : Action α} (h : Agree a a') : Agree a' a := by
  intro w w' hw
  obtain ⟨hresult, hworld⟩ := h w' w hw.symm
  exact ⟨hresult.symm, hworld.symm⟩

theorem trans {a a' a'' : Action α} (h : Agree a a') (h' : Agree a' a'') : Agree a a'' := by
  intro w w' hw
  obtain ⟨hresult, hworld⟩ := h w w' hw
  obtain ⟨hresult', hworld'⟩ := h' w' w' (.refl hw.right)
  exact ⟨hresult.trans hresult', hworld.trans hworld'⟩

theorem pure (x : α) : IgnoresViews (Pure.pure x) :=
  fun _ _ h => ⟨rfl, h⟩

theorem throw (e : Fault) : Agree (MonadExcept.throw e : Action α) (MonadExcept.throw e) :=
  fun _ _ h => ⟨rfl, h⟩

theorem bind {a a' : Action α} {f f' : α → Action β} (ha : Agree a a')
    (hf : ∀ x, Agree (f x) (f' x)) : Agree (a >>= f) (a' >>= f') := by
  intro w w' h
  obtain ⟨hresult, hworld⟩ := ha w w' h
  rw [exec_bind, exec_bind]
  rcases hrun : a.exec w with ⟨_ | x, v⟩
  all_goals
    rcases hrun' : a'.exec w' with ⟨_ | x', v'⟩
    all_goals
      rw [hrun, hrun'] at hresult hworld
      cases hresult
  · exact ⟨rfl, hworld⟩
  · exact hf x v v' hworld

theorem attempt {a a' : Action α} (h : Agree a a') :
    Agree (Action.attempt a) (Action.attempt a') := by
  intro w w' hw
  obtain ⟨hresult, hworld⟩ := h w w' hw
  rw [exec_attempt, exec_attempt]
  exact ⟨congrArg Except.ok hresult, hworld⟩

theorem ofExcept (r : Except Fault α) : IgnoresViews (Action.ofExcept r) := by
  intro w w' h
  rw [exec_ofExcept, exec_ofExcept]
  exact ⟨rfl, h⟩

/-! ## Basic actions -/

theorem get {f f' : World → Action β}
    (hf : ∀ w w', World.SameButViews w w' → Agree (f w) (f' w')) :
    Agree (MonadState.get >>= f) (MonadState.get >>= f') :=
  fun w w' h => hf w w' h w w' h

theorem localization (id : LocalizationId) :
    IgnoresViews (Action.localization id) :=
  fun w w' h => ⟨by rw [exec_localization, exec_localization, h.localization], h⟩

theorem updateLocalization (id : LocalizationId) (change : Localization → Localization) :
    IgnoresViews (Action.updateLocalization id change) := by
  intro w w' h
  rw [exec_updateLocalization, exec_updateLocalization, h.localization, World.setLocalization,
    World.setLocalization, h.localizations]
  exact ⟨rfl, h.setLocalizations _⟩

theorem newLocalization (l : Localization) :
    IgnoresViews (Action.newLocalization l) := by
  intro w w' h
  rw [exec_newLocalization, exec_newLocalization, World.addLocalization, World.addLocalization,
    h.localizations]
  exact ⟨rfl, h.setLocalizations _⟩

theorem project {f f' : Project → Action β} (id : ProjectId)
    (hf : ∀ p p', Project.SameButViews p p' → Agree (f p) (f' p')) :
    Agree (Action.project id >>= f) (Action.project id >>= f') :=
  fun w w' h => hf _ _ (h.project id) w w' h

theorem updateProject (id : ProjectId) {change : Project → Project}
    (hchange : ∀ p p', Project.SameButViews p p' → (change p).SameButViews (change p')) :
    IgnoresViews (Action.updateProject id change) :=
  fun _ _ h => ⟨rfl, h.setProject id (hchange _ _ (h.project id))⟩

/-- A change of the journal that has nothing to do with its warnings. -/
theorem updateJournal {change : Journal → Journal}
    (hchange : ∀ j warnings,
      change { j with warnings } = { change j with
        warnings := (change { j with warnings }).warnings }) :
    IgnoresViews (Action.updateJournal change) := by
  intro w w' h
  refine ⟨rfl, h.localizations, h.size, h.project, h.files, ?_⟩
  simp only [exec_updateJournal]
  rw [h.journal]
  exact hchange w.journal w'.journal.warnings

theorem log (level : LogLevel) (message : String) :
    IgnoresViews (Action.log level message) :=
  updateJournal fun _ _ => rfl

theorem existsAt (path : Value) : IgnoresViews (Action.existsAt path) := by
  intro w w' h
  rw [exec_existsAt, exec_existsAt, h.files]
  exact ⟨rfl, h⟩

theorem readText (path encoding : Value) :
    IgnoresViews (Action.readText path encoding) := by
  intro w w' h
  rw [exec_readText, exec_readText, h.files]
  exact ⟨rfl, h⟩

theorem writeText (path text : String) (encoding : Value) :
    IgnoresViews (Action.writeText path text encoding) := by
  intro w w' h
  rw [exec_writeText, exec_writeText, h.files]
  exact ⟨rfl, h.setFiles _⟩

/-! ## Listeners -/

theorem react (id : LocalizationId) (listener : Listener) :
    IgnoresViews (Action.react id listener) := by
  refine bind (updateJournal fun _ _ => rfl) fun _ => ?_
  cases listener.reaction with
  | nothing => exact pure ()
  | leave =>
      refine bind (localization id) fun l => bind (ofExcept _) fun _ => ?_
      exact updateLocalization id _
  | fail => exact throw _
  | overlay => exact updateLocalization id _

theorem notify (id : LocalizationId) (listeners : List Listener) :
    IgnoresViews (Action.notify id listeners) := by
  induction listeners with
  | nil => exact pure ()
  | cons listener rest ih => exact bind (react id listener) fun _ => ih

theorem persistTexts (id : LocalizationId) (lines : List (Scalar × Value)) :
    IgnoresViews (Action.persistTexts id lines) := by
  induction lines with
  | nil => exact pure ()
  | cons line rest ih =>
      refine bind ?_ fun _ => ih
      exact bind (updateLocalization id _) fun _ =>
        bind (localization id) fun l => notify id l.listeners

end Agree

end Action

/-- A compiler that cannot tell worlds apart that differ only in the views their projects keep. -/
def Compiler.IgnoresViews (compiler : Compiler) : Prop :=
  ∀ job, Action.IgnoresViews (compiler job)

namespace Build

/-! ## Compiling -/

namespace Stage

variable {α β : Type}

abbrev Agree (s s' : Stage α) : Prop :=
  Action.Agree s.run s'.run

abbrev IgnoresViews (s : Stage α) : Prop :=
  Agree s s

namespace Agree

theorem pure (x : α) : IgnoresViews (Pure.pure x) :=
  Action.Agree.pure _

theorem throw (r : Rejection) : Agree (MonadExcept.throw r : Stage α) (MonadExcept.throw r) :=
  Action.Agree.pure _

theorem throwThe (e : Fault) :
    Agree (throwThe Fault e : Stage α) (throwThe Fault e) :=
  Action.Agree.throw e

theorem bind {s s' : Stage α} {f f' : α → Stage β} (hs : Agree s s')
    (hf : ∀ x, Agree (f x) (f' x)) : Agree (s >>= f) (s' >>= f') := by
  rw [Agree, ExceptT.run_bind, ExceptT.run_bind]
  refine Action.Agree.bind hs fun result => ?_
  cases result with
  | ok x => exact hf x
  | error r => exact Action.Agree.pure _

theorem liftM {a a' : Action α} (h : Action.Agree a a') :
    Agree (MonadLiftT.monadLift a : Stage α) (MonadLiftT.monadLift a') :=
  Action.Agree.bind h fun _ => Action.Agree.pure _

end Agree

end Stage

section Compile

open Stage

theorem ignoresViews_sourceText (encoding source : Value) :
    Stage.IgnoresViews (sourceText encoding source) := by
  intro w w' h
  have hrun : ∀ v, Action.exec (sourceText encoding source).run v =
      (sourceOutcome source (v.files.readText source encoding), v) :=
    exec_sourceText encoding source
  rw [hrun, hrun, h.files]
  exact ⟨rfl, h⟩

theorem ignoresViews_gatherText (encoding : Value) (sources : List Value) :
    Stage.IgnoresViews (gatherText encoding sources) := by
  induction sources with
  | nil => exact .pure _
  | cons source rest ih =>
      simp only [gatherText]
      split
      · exact ih
      · refine .bind (.liftM (.existsAt source)) fun found => ?_
        split
        · exact .bind (ignoresViews_sourceText encoding source) fun _ => .bind ih fun _ => .pure _
        · exact ih

theorem ignoresViews_logAll (level : LogLevel) (messages : List String) :
    Action.IgnoresViews (logAll level messages) :=
  .updateJournal fun _ _ => rfl

theorem ignoresViews_log_throw {α : Type} (level : LogLevel) (message : String) (r : Rejection) :
    Stage.IgnoresViews (do Action.log level message; throw r : Stage α) :=
  .bind (.liftM (.log level message)) fun _ => .throw r

theorem ignoresViews_adaptDeclarations (p : Project) :
    Stage.IgnoresViews (adaptDeclarations p) := by
  rw [adaptDeclarations]
  split
  · exact .pure _
  · split
    · exact ignoresViews_log_throw _ _ _
    · exact ignoresViews_log_throw _ _ _
    · exact .throwThe _

theorem ignoresViews_callCompiler {compiler : Compiler} (hc : compiler.IgnoresViews) (p : Project)
    (job : Job) : Stage.IgnoresViews (callCompiler compiler p job) := by
  refine .bind (.liftM (hc job).attempt) fun result => ?_
  cases result with
  | ok c => exact .pure c
  | error e => exact ignoresViews_log_throw _ _ _

theorem ignoresViews_serializedProgram (p : Project) (c : Compilation) :
    Stage.IgnoresViews (serializedProgram p c) := by
  refine .bind (.liftM (ignoresViews_logAll _ _)) fun _ => ?_
  dsimp only
  split
  · exact .bind (.liftM (ignoresViews_logAll _ _)) fun _ => .throw _
  · split
    · exact ignoresViews_log_throw _ _ _
    · split
      · exact .pure _
      · exact ignoresViews_log_throw _ _ _

theorem agree_compile {compiler : Compiler} (hc : compiler.IgnoresViews) (config : Config)
    {p p' : Project} (hp : p.SameButViews p') :
    Stage.Agree (compile compiler config p) (compile compiler config p') := by
  obtain ⟨-, -, views, version, rfl⟩ := hp
  refine .bind (ignoresViews_gatherText config.encoding p.sources) fun text => ?_
  dsimp only
  split
  · exact .throw _
  · refine .bind (ignoresViews_adaptDeclarations p) fun declarations => ?_
    refine .bind (ignoresViews_callCompiler hc p _) fun c => ?_
    exact .bind (ignoresViews_serializedProgram p c) fun _ => .pure _

end Compile

/-! ## Publishing -/

section Publish

open Dialogue.Action

theorem ignoresViews_skip (report : BuildReport) (code : Value) (message : String) :
    IgnoresViews (skip report code message) :=
  .bind (.log _ _) fun _ => .pure _

theorem ignoresViews_generateTable (config : Config) (p : Project) (code : Value)
    (entries : List StringTable.Entry) :
    IgnoresViews (generateTable config p code entries) := by
  rw [generateTable]
  dsimp only
  split
  · exact .throw _
  · refine .get fun w w' h => ?_
    rw [h.files]
    refine .bind (.ofExcept _) fun target => .bind (.log _ _) fun _ => ?_
    exact .bind (.writeText _ _ _) fun _ => .pure _

theorem ignoresViews_loadTable (config : Config) (p : Project) (id : LocalizationId)
    (entries : List StringTable.Entry) : IgnoresViews (loadTable config p id entries) := by
  refine .bind (.localization id) fun l => ?_
  dsimp only
  split
  case' h_1 =>
    refine .bind (ignoresViews_generateTable config p _ entries) fun target => ?_
    refine .bind (.updateLocalization id _) fun _ => ?_
  all_goals
    refine .bind (.localization id) fun l => .bind (.readText _ _) fun text => ?_
    cases StringTable.decode text with
    | ok entries => exact .pure entries
    | error e => exact .throw _

theorem agree_syncSlot {c : Context} {p' : Project} (hp : c.project.SameButViews p') (slot : Nat)
    (id : LocalizationId) (report : BuildReport) :
    Agree (syncSlot c slot id report) (syncSlot { c with project := p' } slot id report) := by
  obtain ⟨-, -, views, version, rfl⟩ := hp
  refine .bind (.localization id) fun l => ?_
  dsimp only
  split
  · exact ignoresViews_skip _ _ _
  · refine .bind (.log _ _) fun _ => ?_
    split
    · split
      · exact ignoresViews_skip _ _ _
      · exact .bind (.updateLocalization id _) fun _ =>
          .bind (.persistTexts id _) fun _ => .pure _
    · refine .bind (ignoresViews_loadTable c.config c.project id c.entries).attempt fun result => ?_
      cases result with
      | error e =>
          have hmessage : skipMessage? { c.project with views, viewsVersion := version }
              l.localeCode e = skipMessage? c.project l.localeCode e := rfl
          dsimp only
          rw [hmessage]
          cases skipMessage? c.project l.localeCode e with
          | some message => exact ignoresViews_skip _ _ _
          | none => exact .throw _
      | ok entries =>
          refine .bind (.localization id) fun l => .bind (.newLocalization _) fun fresh => ?_
          exact .bind (.updateProject _ fun _ _ h => h.setLocalizations fun ids =>
            ids.set slot fresh) fun _ => .pure _

theorem agree_syncSlots {c : Context} {p' : Project} (hp : c.project.SameButViews p')
    (report : BuildReport) (slot : Nat) (ids : List LocalizationId) :
    Agree (syncSlots c report slot ids) (syncSlots { c with project := p' } report slot ids) := by
  induction ids generalizing report slot with
  | nil => exact .pure _
  | cons id rest ih =>
      exact .bind (agree_syncSlot hp slot id report) fun report => ih report (slot + 1)

theorem ignoresViews_publish (config : Config) (id : ProjectId) (compilation : Compilation)
    (blob : Bytes) : IgnoresViews (publish config id compilation blob) := by
  refine .bind (.updateProject id fun _ _ h => h.setBlob (some blob)) fun _ => ?_
  refine .project id fun p p' hp => ?_
  obtain ⟨-, -, views, version, rfl⟩ := hp
  dsimp only
  cases p.base with
  | none => exact .throw _
  | some base =>
      refine .bind (.updateLocalization base _) fun _ => ?_
      refine .bind (.updateProject id fun _ _ h => h.setLocalizations (registerBase base))
        fun _ => ?_
      refine .project id fun p p' hp => ?_
      have hsync := fun entries =>
        agree_syncSlots (c := ⟨config, id, p, base, entries⟩) hp {} 0 p.localizations
      obtain ⟨-, -, views, version, rfl⟩ := hp
      exact .bind (.ofExcept _) hsync

end Publish

theorem ignoresViews_run {compiler : Compiler} (hc : compiler.IgnoresViews) (config : Config)
    (id : ProjectId) : Action.IgnoresViews (run compiler config id) := by
  refine .project id fun p p' hp => .bind (agree_compile hc config hp) fun result => ?_
  cases result with
  | error r => exact .pure _
  | ok output => exact ignoresViews_publish config id output.1 output.2

end Build

/-- A build goes on in the same way whatever views are kept, and keeps them sound. -/
theorem ignoresViews_build {compiler : Compiler} (hc : compiler.IgnoresViews) (config : Config)
    (id : ProjectId) : Action.IgnoresViews (build compiler config (some id)) := by
  refine .project id fun p p' hp => ?_
  obtain ⟨-, -, views, version, rfl⟩ := hp
  have hrejected : ∀ e, Action.IgnoresViews (build.reject e) := fun _ =>
    .bind (.log _ _) fun _ => .pure _
  have hprecondition : Build.precondition { p with views, viewsVersion := version } =
      Build.precondition p := rfl
  rw [hprecondition]
  cases Build.precondition p with
  | error e => exact hrejected e
  | ok _ =>
      dsimp only
      split
      · exact .throw _
      · refine .bind (.updateProject id fun _ _ h => h.setBuilding true) fun _ => ?_
        refine .bind (Build.ignoresViews_run hc config id).attempt fun result => ?_
        exact .bind (.updateProject id fun _ _ h => h.setBuilding false) fun _ => .ofExcept result

end Dialogue
