import Dialogue.World

/-! The outcome of an action from a given world, and what an action keeps of the world in every
case. -/

namespace Dialogue

def World.logged (w : World) (level : LogLevel) (message : String) : World :=
  { w with journal := { w.journal with log := w.journal.log ++ [(level, message)] } }

namespace Action

variable {α β : Type}

/-- What an action comes to when it is begun in a world, and the world that it leaves. -/
def exec (a : Action α) (w : World) : Except Fault α × World :=
  a.run.run w

/-! ## Outcomes -/

@[simp] theorem exec_pure (x : α) (w : World) : exec (pure x) w = (.ok x, w) := rfl

@[simp] theorem exec_throw (e : Fault) (w : World) :
    exec (throw e : Action α) w = (.error e, w) := rfl

@[simp] theorem exec_get (w : World) : exec get w = (.ok w, w) := rfl

@[simp] theorem exec_modify (f : World → World) (w : World) :
    exec (modify f) w = (.ok (), f w) := rfl

theorem exec_bind (a : Action α) (f : α → Action β) (w : World) :
    exec (a >>= f) w =
      match exec a w with
      | (.ok x, w') => exec (f x) w'
      | (.error e, w') => (.error e, w') := by
  simp only [exec, ExceptT.run, StateT.run, bind, ExceptT.bind, ExceptT.mk, StateT.bind]
  rcases a w with ⟨_ | x, w'⟩ <;> rfl

theorem exec_bind_of_ok {a : Action α} {f : α → Action β} {w w' : World} {x : α}
    (h : exec a w = (.ok x, w')) : exec (a >>= f) w = exec (f x) w' := by
  rw [exec_bind, h]

theorem exec_bind_of_error {a : Action α} {f : α → Action β} {w w' : World} {e : Fault}
    (h : exec a w = (.error e, w')) : exec (a >>= f) w = (.error e, w') := by
  rw [exec_bind, h]

/-- A sequence comes to a result only through a result of its first part. -/
theorem exec_bind_eq_ok {a : Action α} {f : α → Action β} {w w'' : World} {y : β} :
    exec (a >>= f) w = (.ok y, w'') ↔
      ∃ x w', exec a w = (.ok x, w') ∧ exec (f x) w' = (.ok y, w'') := by
  rw [exec_bind]
  rcases exec a w with ⟨_ | x, w'⟩
  · simp
  · simp only [Prod.mk.injEq, Except.ok.injEq, and_assoc, exists_eq_left', exists_and_left]

theorem exec_map (f : α → β) (a : Action α) (w : World) :
    exec (f <$> a) w = ((exec a w).1.map f, (exec a w).2) := by
  rw [map_eq_pure_bind, exec_bind]
  rcases exec a w with ⟨_ | x, w'⟩ <;> rfl

/-- An action of which some value can be read off has come to a result. -/
theorem exec_eq_ok_of_map {a : Action α} {w : World} {f : α → β} {y : β}
    (h : (exec a w).1.toOption.map f = some y) : ∃ x w', exec a w = (.ok x, w') ∧ f x = y := by
  rcases hrun : exec a w with ⟨e | x, w'⟩
  · rw [hrun] at h
    cases h
  · rw [hrun] at h
    exact ⟨x, w', rfl, Option.some.inj h⟩

@[simp] theorem exec_ofExcept (r : Except Fault α) (w : World) :
    exec (ofExcept r) w = (r, w) := by
  cases r <;> rfl

@[simp] theorem exec_attempt (a : Action α) (w : World) :
    exec (attempt a) w = (.ok (exec a w).1, (exec a w).2) := by
  have hrun : exec (do let x ← a; return Except.ok x : Action (Except Fault α)) w =
      match exec a w with
      | (.ok x, w') => (.ok (.ok x), w')
      | (.error e, w') => (.error e, w') := exec_bind a _ w
  simp only [attempt, exec, ExceptT.run, StateT.run, tryCatch, tryCatchThe, MonadExceptOf.tryCatch,
    ExceptT.tryCatch, ExceptT.mk, bind, StateT.bind] at hrun ⊢
  rw [hrun]
  rcases a w with ⟨_ | x, w'⟩ <;> rfl

/-! ## Basic actions -/

section Basic

variable (w : World)

@[simp] theorem exec_localization (id : LocalizationId) :
    exec (localization id) w = (.ok (w.localization id), w) := rfl

@[simp] theorem exec_updateLocalization (id : LocalizationId)
    (change : Localization → Localization) :
    exec (updateLocalization id change) w =
      (.ok (), w.setLocalization id (change (w.localization id))) := rfl

@[simp] theorem exec_newLocalization (l : Localization) :
    exec (newLocalization l) w = (.ok w.localizations.size, w.addLocalization l) := rfl

@[simp] theorem exec_project (id : ProjectId) :
    exec (project id) w = (.ok (w.project id), w) := rfl

@[simp] theorem exec_updateProject (id : ProjectId) (change : Project → Project) :
    exec (updateProject id change) w = (.ok (), w.setProject id (change (w.project id))) := rfl

@[simp] theorem exec_updateJournal (change : Journal → Journal) :
    exec (updateJournal change) w = (.ok (), { w with journal := change w.journal }) := rfl

@[simp] theorem exec_log (level : LogLevel) (message : String) :
    exec (log level message) w = (.ok (), w.logged level message) := rfl

@[simp] theorem exec_existsAt (path : Value) :
    exec (existsAt path) w = (w.files.existsAt path, w) :=
  exec_ofExcept _ w

@[simp] theorem exec_readText (path encoding : Value) :
    exec (readText path encoding) w = (w.files.readText path encoding, w) :=
  exec_ofExcept _ w

@[simp] theorem exec_writeText (path text : String) (encoding : Value) :
    exec (writeText path text encoding) w =
      ((w.files.writeText path text encoding).1,
        { w with files := (w.files.writeText path text encoding).2 }) :=
  exec_ofExcept _ _

end Basic

/-! ## What actions keep -/

/-- An action that leaves a world in `I` whenever it is begun in one, whatever it comes to. -/
def Keeps (I : World → Prop) (a : Action α) : Prop :=
  ∀ w, I w → I (exec a w).2

section Keeps

variable {I : World → Prop}

theorem Keeps.pure (x : α) : Keeps I (Pure.pure x) :=
  fun _ h => h

theorem Keeps.throw (e : Fault) : Keeps I (MonadExcept.throw e : Action α) :=
  fun _ h => h

theorem Keeps.get : Keeps I MonadState.get :=
  fun _ h => h

theorem Keeps.bind {a : Action α} {f : α → Action β} (ha : Keeps I a) (hf : ∀ x, Keeps I (f x)) :
    Keeps I (a >>= f) := by
  intro w hw
  have hw' := ha w hw
  rw [exec_bind]
  rcases h : exec a w with ⟨_ | x, w'⟩
  · rwa [h] at hw'
  · rw [h] at hw'
    exact hf x w' hw'

theorem Keeps.attempt {a : Action α} (ha : Keeps I a) : Keeps I (attempt a) := by
  intro w hw
  rw [exec_attempt]
  exact ha w hw

theorem Keeps.existsAt (path : Value) : Keeps I (existsAt path) := by
  intro w hw
  rwa [exec_existsAt]

theorem Keeps.ofExcept (r : Except Fault α) : Keeps I (ofExcept r) := by
  intro w hw
  rwa [exec_ofExcept]

end Keeps

/-! ## How actions end -/

/-- An action that is begun in a world either returns in a world of `I` or fails with a fault
of `P`. -/
def EndsIn (I : World → Prop) (P : Fault → Prop) (a : Action α) (w : World) : Prop :=
  match exec a w with
  | (.ok _, v) => I v
  | (.error e, _) => P e

section EndsIn

variable {I J : World → Prop} {P Q : Fault → Prop} {a : Action α} {w v : World}

theorem endsIn_of_ok {x : α} (h : exec a w = (.ok x, v)) : EndsIn I P a w ↔ I v := by
  rw [EndsIn, h]

theorem endsIn_of_error {e : Fault} (h : exec a w = (.error e, v)) : EndsIn I P a w ↔ P e := by
  rw [EndsIn, h]

theorem EndsIn.mono (h : EndsIn I P a w) (hI : ∀ v, I v → J v) (hP : ∀ e, P e → Q e) :
    EndsIn J Q a w := by
  rcases hrun : exec a w with ⟨e | x, v⟩
  · rw [endsIn_of_error hrun] at h ⊢
    exact hP e h
  · rw [endsIn_of_ok hrun] at h ⊢
    exact hI v h

theorem EndsIn.bind {f : α → Action β} (h : EndsIn I P a w)
    (hf : ∀ x v, I v → EndsIn J P (f x) v) : EndsIn J P (a >>= f) w := by
  rcases hrun : exec a w with ⟨e | x, v⟩
  · rw [endsIn_of_error hrun] at h
    rwa [endsIn_of_error (exec_bind_of_error hrun)]
  · rw [endsIn_of_ok hrun] at h
    rw [EndsIn, exec_bind_of_ok hrun]
    exact hf x v h

theorem EndsIn.returns (h : EndsIn I (fun _ => False) a w) :
    ∃ x v, exec a w = (.ok x, v) ∧ I v := by
  rcases hrun : exec a w with ⟨e | x, v⟩
  · rw [endsIn_of_error hrun] at h
    exact h.elim
  · rw [endsIn_of_ok hrun] at h
    exact ⟨x, v, rfl, h⟩

end EndsIn

end Action

end Dialogue
