import Dialogue.Proofs.Build.Inheritance

/-! A build of one project neither looks at the mark of another project that is being built, nor
touches it. -/

namespace Dialogue

/-- Nothing but the mark of one project distinguishes two runs: the action comes to the same, and
leaves the same, whatever the mark. -/
def Action.Oblivious {α : Type} (id : ProjectId) (a : Action α) : Prop :=
  ∀ (w : World) (b : Bool),
    a.exec (w.setBuilding id b) = ((a.exec w).1, (a.exec w).2.setBuilding id b)

/-- A compiler that neither looks at the mark of a project nor touches it. -/
def Compiler.Oblivious (compiler : Compiler) (id : ProjectId) : Prop :=
  ∀ job, (compiler job).Oblivious id

theorem World.setProject_comm (w : World) {id k : ProjectId} (hk : k ≠ id) (p q : Project) :
    (w.setProject id p).setProject k q = (w.setProject k q).setProject id p := by
  simp only [setProject]
  rw [Array.setIfInBounds_comm _ _ hk.symm]

namespace Action.Oblivious

variable {α β : Type} {id k : ProjectId}

theorem bind {a : Action α} {f : α → Action β} (ha : Oblivious id a)
    (hf : ∀ x, Oblivious id (f x)) : Oblivious id (a >>= f) := by
  intro w b
  rw [exec_bind, exec_bind, ha w b]
  rcases a.exec w with ⟨e | x, v⟩
  · rfl
  · exact hf x v b

theorem attempt {a : Action α} (ha : Oblivious id a) : Oblivious id (attempt a) := by
  intro w b
  rw [exec_attempt, exec_attempt, ha w b]

theorem files {f : FileSystem → Action α} (hf : ∀ fs, Oblivious id (f fs)) :
    Oblivious id (MonadState.get >>= fun w => f w.files) := by
  intro w b
  rw [exec_bind_of_ok (exec_get _), exec_bind_of_ok (exec_get _)]
  exact hf w.files w b

theorem writeText (path text : String) (encoding : Value) :
    Oblivious id (Action.writeText path text encoding) := by
  intro w b
  rw [exec_writeText, exec_writeText]
  rfl

theorem project (hk : k ≠ id) : Oblivious id (Action.project k) := by
  intro w b
  rw [exec_project, exec_project, World.setBuilding, World.project_setProject_of_ne _ hk]

theorem updateProject (hk : k ≠ id) (change : Project → Project) :
    Oblivious id (Action.updateProject k change) := by
  intro w b
  rw [exec_updateProject, exec_updateProject, World.setBuilding,
    World.project_setProject_of_ne _ hk, World.setProject_comm _ hk, World.setBuilding,
    World.project_setProject_of_ne _ hk.symm]

/-- The steps of a build of one project are blind to the mark of another. -/
theorem inherited (hk : k ≠ id) : Inherited k (Oblivious id) where
  pure _ _ _ := rfl
  throw _ _ _ := rfl
  bind := bind
  attempt := attempt
  files := files
  writeText := writeText
  localization _ _ _ := rfl
  updateLocalization _ _ _ _ := rfl
  newLocalization _ _ _ := rfl
  project := project hk
  updateProject := updateProject hk
  logAll _ _ _ _ := rfl
  event _ _ _ := rfl

end Action.Oblivious

/-- A build of one project goes on in the same way whether another project is being built or not. -/
theorem oblivious_build {id k : ProjectId} {compiler : Compiler} (hc : compiler.Oblivious id)
    (config : Config) (hk : k ≠ id) : Action.Oblivious id (build compiler config (some k)) :=
  (Action.Oblivious.inherited hk).build hc config

end Dialogue
