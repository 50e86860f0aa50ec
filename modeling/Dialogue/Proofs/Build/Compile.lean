import Dialogue.Build
import Dialogue.Proofs.World.Store

/-! All that happens before a project is changed: what a stage comes to, what it keeps, and what can
be said of the program and its bytes when it succeeds. -/

namespace Dialogue

/-- A compiler that leaves the store alone when it is called for a project. The project is being
built while its compiler is called. -/
def Compiler.KeepsStore (compiler : Compiler) (id : ProjectId) : Prop :=
  ∀ (job : Job) (w : World), (w.project id).building = true → w.SameStore ((compiler job).exec w).2

theorem Compiler.KeepsStore.keeps {compiler : Compiler} {id : ProjectId} {w : World}
    (hc : compiler.KeepsStore id) (hw : (w.project id).building = true) (job : Job) :
    (compiler job).Keeps w.SameStore := by
  intro w' hsame
  have hbuilding : (w'.project id).building = true := by rwa [hsame.project]
  exact hsame.trans (hc job w' hbuilding)

def Compiler.returning (c : Compilation) : Compiler :=
  fun _ => return c

theorem Compiler.keepsStore_returning (c : Compilation) (id : ProjectId) :
    (Compiler.returning c).KeepsStore id :=
  fun _ w _ => .refl w

theorem Compiler.keeps_returning (I : World → Prop) (c : Compilation) (job : Job) :
    (Compiler.returning c job).Keeps I :=
  Action.Keeps.pure c

def Compilation.greeting : Compilation where
  program := some (.bytes [1])
  lines := [(.text "line:1", { text := "Hello" })]

namespace Build

open Dialogue.Action (Keeps IgnoresLog)

namespace Stage

variable {α β : Type}

/-- What a stage comes to when it is begun in a world, and the world that it leaves. -/
def exec (s : Stage α) (w : World) : Except Fault (Except Rejection α) × World :=
  Action.exec s.run w

@[simp] theorem exec_pure (x : α) (w : World) : exec (pure x) w = (.ok (.ok x), w) := rfl

@[simp] theorem exec_throw (r : Rejection) (w : World) :
    exec (throw r : Stage α) w = (.ok (.error r), w) := rfl

@[simp] theorem exec_throwThe (e : Fault) (w : World) :
    exec (throwThe Fault e : Stage α) w = (.error e, w) := rfl

@[simp] theorem exec_get (w : World) : exec get w = (.ok (.ok w), w) := rfl

@[simp] theorem throw_bind (r : Rejection) (f : α → Stage β) : (throw r >>= f) = throw r := rfl

theorem exec_bind (s : Stage α) (f : α → Stage β) (w : World) :
    exec (s >>= f) w =
      match exec s w with
      | (.ok (.ok x), w') => exec (f x) w'
      | (.ok (.error r), w') => (.ok (.error r), w')
      | (.error e, w') => (.error e, w') := by
  simp only [exec, ExceptT.run_bind, Action.exec_bind]
  rcases Action.exec s.run w with ⟨_ | _ | x, w'⟩ <;> rfl

theorem exec_liftM (a : Action α) (w : World) :
    exec (liftM a) w =
      match a.exec w with
      | (.ok x, w') => (.ok (.ok x), w')
      | (.error e, w') => (.error e, w') :=
  Action.exec_bind a _ w

/-- A sequence comes to a result only through a result of its first part. -/
theorem exec_bind_eq_ok {s : Stage α} {f : α → Stage β} {w w'' : World} {y : β} :
    exec (s >>= f) w = (.ok (.ok y), w'') ↔
      ∃ x w', exec s w = (.ok (.ok x), w') ∧ exec (f x) w' = (.ok (.ok y), w'') := by
  rw [exec_bind]
  rcases exec s w with ⟨_ | _ | x, w'⟩
  · simp
  · simp
  · simp only [Prod.mk.injEq, Except.ok.injEq, and_assoc, exists_eq_left', exists_and_left]

/-- A stage that leaves a world in `I` whenever it is begun in one, whatever it comes to, and
rejects a build only as a failure. -/
def Harmless (I : World → Prop) (s : Stage α) : Prop :=
  ∀ w, I w → I (exec s w).2 ∧ ∀ r, (exec s w).1 = .ok (.error r) → r.status ≠ .ok

section Harmless

variable {I : World → Prop}

theorem Harmless.pure (x : α) : Harmless I (Pure.pure x) :=
  fun _ h => ⟨h, by simp⟩

theorem Harmless.throw {r : Rejection} (hr : r.status ≠ .ok) :
    Harmless I (MonadExcept.throw r : Stage α) :=
  fun _ h => ⟨h, by simpa using hr⟩

theorem Harmless.throwThe (e : Fault) : Harmless I (throwThe Fault e : Stage α) :=
  fun _ h => ⟨h, by simp⟩

theorem Harmless.get : Harmless I (MonadState.get : Stage World) :=
  fun _ h => ⟨h, by simp⟩

theorem Harmless.bind {s : Stage α} {f : α → Stage β} (hs : Harmless I s)
    (hf : ∀ x, Harmless I (f x)) : Harmless I (s >>= f) := by
  intro w hw
  obtain ⟨hw', hr⟩ := hs w hw
  rw [exec_bind]
  rcases h : exec s w with ⟨_ | r | x, w'⟩
  · exact ⟨by rwa [h] at hw', by simp⟩
  · rw [h] at hw' hr
    exact ⟨hw', by simpa using hr⟩
  · rw [h] at hw'
    exact hf x w' hw'

theorem Harmless.liftM {a : Action α} (ha : a.Keeps I) : Harmless I (liftM a : Stage α) := by
  intro w hw
  have hw' := ha w hw
  rw [exec_liftM]
  rcases h : a.exec w with ⟨_ | x, w'⟩ <;> exact ⟨by rwa [h] at hw', by simp⟩

end Harmless

end Stage

/-! ## The compile stage is harmless -/

section Harmless

open Stage

variable {I : World → Prop}

theorem harmless_failed {α : Type} (reason : String) (diagnostics : List String) :
    Harmless I (throw (failed reason diagnostics) : Stage α) :=
  Harmless.throw (by simp [failed])

theorem harmless_log (hI : IgnoresLog I) (level : LogLevel) (message : String) :
    Harmless I (liftM (Action.log level message)) :=
  Harmless.liftM (Keeps.log hI level message)

theorem harmless_logAll (hI : IgnoresLog I) (level : LogLevel) (messages : List String) :
    Harmless I (liftM (logAll level messages)) :=
  Harmless.liftM (Keeps.updateJournal hI fun _ => rfl)

theorem harmless_sourceText (encoding source : Value) :
    Harmless I (sourceText encoding source) := by
  refine Harmless.bind Harmless.get fun w => ?_
  split
  · exact Harmless.pure _
  · split
    · exact harmless_failed _ _
    · exact Harmless.throwThe _

/-- Nothing at all changes while the sources are read. -/
theorem harmless_gatherText (encoding : Value) (sources : List Value) :
    Harmless I (gatherText encoding sources) := by
  induction sources with
  | nil => exact Harmless.pure _
  | cons source rest ih =>
      simp only [gatherText]
      split
      · exact ih
      · refine Harmless.bind (Harmless.liftM (Keeps.existsAt source)) fun found => ?_
        split
        · refine Harmless.bind (harmless_sourceText encoding source) fun text => ?_
          exact Harmless.bind ih fun _ => Harmless.pure _
        · exact ih

theorem harmless_adaptDeclarations (hI : IgnoresLog I) (p : Project) :
    Harmless I (adaptDeclarations p) := by
  rw [adaptDeclarations]
  split
  · exact Harmless.pure _
  · split
    · exact Harmless.bind (harmless_log hI _ _) fun _ => Harmless.throw (by simp)
    · exact Harmless.bind (harmless_log hI _ _) fun _ => harmless_failed _ _
    · exact Harmless.throwThe _

theorem harmless_callCompiler (hI : IgnoresLog I) {compiler : Compiler}
    (hc : ∀ job, (compiler job).Keeps I) (p : Project) (job : Job) :
    Harmless I (callCompiler compiler p job) := by
  refine Harmless.bind (Harmless.liftM (hc job).attempt) fun result => ?_
  cases result with
  | ok c => exact Harmless.pure _
  | error e => exact Harmless.bind (harmless_log hI _ _) fun _ => harmless_failed _ _

theorem harmless_serializedProgram (hI : IgnoresLog I) (p : Project) (c : Compilation) :
    Harmless I (serializedProgram p c) := by
  refine Harmless.bind (harmless_logAll hI _ _) fun _ => ?_
  dsimp only
  split
  · refine Harmless.bind (harmless_logAll hI _ _) fun _ => ?_
    rw [throw_bind]
    exact harmless_failed _ _
  · split
    · exact Harmless.bind (harmless_log hI _ _) fun _ => harmless_failed _ _
    · split
      · exact Harmless.pure _
      · exact Harmless.bind (harmless_log hI _ _) fun _ => harmless_failed _ _

/-- The compile stage keeps whatever its compiler keeps, and fails only as a failure. -/
theorem harmless_compile (hI : IgnoresLog I) {compiler : Compiler}
    (hc : ∀ job, (compiler job).Keeps I) (config : Config) (p : Project) :
    Harmless I (compile compiler config p) := by
  refine Harmless.bind (harmless_gatherText _ _) fun text => ?_
  split
  · exact harmless_failed _ _
  · refine Harmless.bind (harmless_adaptDeclarations hI p) fun declarations => ?_
    refine Harmless.bind (harmless_callCompiler hI hc p _) fun c => ?_
    exact Harmless.bind (harmless_serializedProgram hI p c) fun _ => Harmless.pure _

end Harmless

/-! ## The parts of the compile stage -/

section Parts

open Stage

variable {w w' : World} {p : Project}

def sourceOutcome (source : Value) (reading : Except Fault String) :
    Except Fault (Except Rejection String) :=
  match reading with
  | .ok text => .ok (.ok text)
  | .error e =>
    if e.isUnreadable then
      .ok (.error (failed ("Could not read source " ++ source.display ++ ": " ++ e.message)
        [e.message]))
    else .error e

theorem exec_sourceText (encoding source : Value) (w : World) :
    exec (sourceText encoding source) w =
      (sourceOutcome source (w.files.readText source encoding), w) := by
  rw [sourceText, exec_bind, exec_get]
  cases hread : w.files.readText source encoding with
  | ok text =>
      simp only [hread]
      rfl
  | error e =>
      simp only [hread, sourceOutcome]
      cases e.isUnreadable <;> rfl

theorem exec_gatherText_snd (encoding : Value) (sources : List Value) (w : World) :
    (exec (gatherText encoding sources) w).2 = w :=
  (harmless_gatherText (I := (· = w)) encoding sources w rfl).1

/-- What the sources come to depends on nothing but the files at their paths. -/
theorem exec_gatherText_fst (encoding : Value) {sources : List Value} {w u : World}
    (hexists : ∀ source ∈ sources, u.files.existsAt source = w.files.existsAt source)
    (hread : ∀ source ∈ sources,
      u.files.readText source encoding = w.files.readText source encoding) :
    (exec (gatherText encoding sources) u).1 = (exec (gatherText encoding sources) w).1 := by
  induction sources with
  | nil => rfl
  | cons source rest ih =>
      have ih := ih (fun s hs => hexists s (by simp [hs])) fun s hs => hread s (by simp [hs])
      have hrest : ∀ v, exec (gatherText encoding rest) v =
          ((exec (gatherText encoding rest) v).1, v) := fun v =>
        Prod.ext rfl (exec_gatherText_snd encoding rest v)
      simp only [gatherText]
      split
      · exact ih
      · simp only [Bool.false_eq_true, if_false, exec_bind, exec_liftM, Action.exec_existsAt,
          hexists source (by simp)]
        cases w.files.existsAt source with
        | error e => rfl
        | ok found =>
            cases found with
            | false => exact ih
            | true =>
                simp only [if_true, exec_bind, exec_sourceText, hread source (by simp)]
                rcases sourceOutcome source (w.files.readText source encoding) with _ | _ | text
                · rfl
                · rfl
                · dsimp only
                  rw [hrest u, hrest w, ih]
                  rcases (exec (gatherText encoding rest) w).1 with _ | _ | _ <;> rfl

theorem adaptDeclarations_eq_ok {ds : List AdaptedDeclaration} :
    exec (adaptDeclarations p) w = (.ok (.ok ds), w') ↔
      Declaration.adaptAll p.declarations = .ok ds ∧ w' = w := by
  rw [adaptDeclarations]
  cases Declaration.adaptAll p.declarations with
  | ok ds' => simp [eq_comm]
  | error e => cases e <;> simp [exec_bind, exec_liftM]

theorem callCompiler_eq_ok {compiler : Compiler} {job : Job} {c : Compilation} :
    exec (callCompiler compiler p job) w = (.ok (.ok c), w') ↔
      (compiler job).exec w = (.ok c, w') := by
  rw [callCompiler, exec_bind, exec_liftM, Action.exec_attempt]
  rcases (compiler job).exec w with ⟨e | c', v⟩
  · simp [exec_bind, exec_liftM]
  · simp

/-- A program without errors is serialized, and only the log is written. -/
theorem exec_serializedProgram {c : Compilation} {output : Output} {blob : Bytes}
    (herrors : c.errors = []) (hprogram : c.program = some output)
    (hserialize : output.serialize = .ok blob) (w : World) :
    ∃ w', exec (serializedProgram p c) w = (.ok (.ok blob), w') := by
  rw [serializedProgram, exec_bind, exec_liftM, logAll, Action.exec_updateJournal]
  simp only [herrors, List.isEmpty_nil, Bool.not_true, Bool.false_eq_true, if_false, hprogram,
    hserialize]
  exact ⟨_, rfl⟩

theorem serializedProgram_eq_ok {c : Compilation} {blob : Bytes}
    (h : exec (serializedProgram p c) w = (.ok (.ok blob), w')) :
    c.errors = [] ∧ ∃ output, c.program = some output ∧ output.serialize = .ok blob := by
  obtain ⟨-, w₁, -, h⟩ := exec_bind_eq_ok.mp h
  dsimp only at h
  split at h
  · simp [exec_bind, exec_liftM, logAll] at h
  · rename_i herrors
    refine ⟨by simpa using herrors, ?_⟩
    split at h
    · simp [exec_bind, exec_liftM] at h
    · rename_i output hprogram
      refine ⟨output, hprogram, ?_⟩
      split at h
      · rename_i bytes hbytes
        simp only [exec_pure, Prod.mk.injEq, Except.ok.injEq] at h
        rw [hbytes, h.1]
      · simp [exec_bind, exec_liftM] at h

theorem sameStore_serializedProgram (c : Compilation) (w : World) :
    w.SameStore (exec (serializedProgram p c) w).2 :=
  (harmless_serializedProgram (Action.ignoresLog_sameStore w) p c w (.refl w)).1

end Parts

/-! ## A successful compile stage -/

section Success

open Stage

variable {compiler : Compiler} {config : Config} {p : Project} {c : Compilation} {blob : Bytes}
  {w w' : World}

/-- A successful compile stage, taken apart: the sources have a text, the declarations are adapted,
and the compiler comes to a program without errors that becomes bytes. -/
structure Compiled (compiler : Compiler) (config : Config) (p : Project) (c : Compilation)
    (blob : Bytes) (text : String) (declarations : List AdaptedDeclaration) (w w₁ : World) :
    Prop where
  sources : exec (gatherText config.encoding p.sources) w = (.ok (.ok text), w)
  content : text ≠ ""
  adapted : Declaration.adaptAll p.declarations = .ok declarations
  called : (compiler ⟨p.sourceName, text, declarations⟩).exec w = (.ok c, w₁)
  errors : c.errors = []
  program : ∃ output, c.program = some output ∧ output.serialize = .ok blob

theorem Compiled.exec_compile {text : String} {declarations : List AdaptedDeclaration} {w₁ : World}
    (h : Compiled compiler config p c blob text declarations w w₁) :
    ∃ w', exec (compile compiler config p) w = (.ok (.ok (c, blob)), w') ∧ w₁.SameStore w' := by
  obtain ⟨output, hprogram, hserialize⟩ := h.program
  obtain ⟨w', hblob⟩ := exec_serializedProgram (p := p) h.errors hprogram hserialize w₁
  have hsame := sameStore_serializedProgram (p := p) c w₁
  rw [hblob] at hsame
  refine ⟨w', exec_bind_eq_ok.mpr ⟨text, w, h.sources, ?_⟩, hsame⟩
  dsimp only
  rw [if_neg h.content]
  refine exec_bind_eq_ok.mpr ⟨declarations, w, adaptDeclarations_eq_ok.mpr ⟨h.adapted, rfl⟩, ?_⟩
  refine exec_bind_eq_ok.mpr ⟨c, w₁, callCompiler_eq_ok.mpr h.called, ?_⟩
  exact exec_bind_eq_ok.mpr ⟨blob, w', hblob, rfl⟩

theorem compiled_of_exec (h : exec (compile compiler config p) w = (.ok (.ok (c, blob)), w')) :
    ∃ text declarations w₁, Compiled compiler config p c blob text declarations w w₁ ∧
      w₁.SameStore w' := by
  obtain ⟨text, w₁, htext, hrest⟩ := exec_bind_eq_ok.mp h
  have hw₁ : w₁ = w := by
    rw [← exec_gatherText_snd config.encoding p.sources w, htext]
  rw [hw₁] at hrest htext
  dsimp only at hrest
  split at hrest
  · simp at hrest
  · rename_i hcontent
    obtain ⟨ds, w₂, hds, hcompiled⟩ := exec_bind_eq_ok.mp hrest
    obtain ⟨hadapted, rfl⟩ := adaptDeclarations_eq_ok.mp hds
    obtain ⟨c', w₃, hcall, hserialized⟩ := exec_bind_eq_ok.mp hcompiled
    obtain ⟨blob', w₄, hblob, hpure⟩ := exec_bind_eq_ok.mp hserialized
    cases hpure
    obtain ⟨herrors, hprogram⟩ := serializedProgram_eq_ok hblob
    have hsame := sameStore_serializedProgram (p := p) c w₃
    rw [hblob] at hsame
    exact ⟨text, ds, w₃,
      ⟨htext, hcontent, hadapted, callCompiler_eq_ok.mp hcall, herrors, hprogram⟩, hsame⟩

end Success

end Build

end Dialogue
