import Dialogue.Proofs.Build.Compile

/-! A request is refused, or answered at once, or admitted. An admitted build runs while the project
is marked, and ends in the compile stage or is published. -/

namespace Dialogue

def World.setBuilding (w : World) (id : ProjectId) (building : Bool) : World :=
  w.setProject id { w.project id with building }

theorem World.setBuilding_self {w : World} {id : ProjectId} {b : Bool}
    (h : (w.project id).building = b) : w.setBuilding id b = w := by
  subst h
  exact w.setProject_project id

/-- A project with sources is one of those there are. -/
theorem Build.lt_size_of_precondition {w : World} {id : ProjectId}
    (h : Build.precondition (w.project id) = .ok ()) : id < w.projects.size := by
  refine Nat.lt_of_not_le fun hle => ?_
  simp [w.project_of_size_le hle, Build.precondition] at h

theorem Build.exists_base_of_precondition {p : Project} (h : precondition p = .ok ()) :
    ∃ base, p.base = some base := by
  unfold precondition at h
  split at h
  · cases h
  · split at h
    · cases h
    · rename_i hbase
      exact Option.ne_none_iff_exists'.mp (by simpa using hbase)

theorem World.project_setBuilding {w : World} {id : ProjectId} {b : Bool}
    (h : id < w.projects.size) :
    (w.setBuilding id b).project id = { w.project id with building := b } :=
  w.project_setProject_self h _

/-- Besides the mark nothing of any project is changed. -/
theorem World.project_setBuilding_eq (w : World) (id : ProjectId) (b : Bool) (k : ProjectId) :
    ∃ b', (w.setBuilding id b).project k = { w.project k with building := b' } := by
  by_cases hk : k = id
  · subst hk
    by_cases hp : k < w.projects.size
    · exact ⟨b, w.project_setProject_self hp _⟩
    · refine ⟨(w.project k).building, ?_⟩
      rw [World.setBuilding, World.setProject,
        Array.setIfInBounds_eq_of_size_le (Nat.le_of_not_lt hp)]
  · exact ⟨(w.project k).building, w.project_setProject_of_ne hk _⟩

theorem World.setBuilding_setBuilding {w : World} {id : ProjectId} {b b' : Bool}
    (h : id < w.projects.size) : (w.setBuilding id b).setBuilding id b' = w.setBuilding id b' := by
  rw [World.setBuilding, World.project_setBuilding h, World.setBuilding,
    World.setProject_setProject, World.setBuilding]

namespace Build

variable (compiler : Compiler) (config : Config)

theorem exec_run (id : ProjectId) (w : World) :
    (run compiler config id).exec w =
      match (compile compiler config (w.project id)).exec w with
      | (.ok (.ok (c, blob)), w') => (publish config id c blob).exec w'
      | (.ok (.error r), w') => (.ok r.report, w')
      | (.error e, w') => (.error e, w') := by
  simp only [run, Action.exec_bind, Action.exec_project, Stage.exec]
  rcases Action.exec (compile compiler config (w.project id)).run w with
    ⟨_ | _ | ⟨c, blob⟩, w'⟩ <;> rfl

theorem exec_build_none (w : World) :
    ∃ reason, (build compiler config none).exec w =
      (.ok { status := .invalidData, reason := some reason },
        w.logged .error ("Cannot build project: " ++ reason)) :=
  ⟨(Fault.project ProjectFault.missing).message, rfl⟩

theorem exec_build_of_error {id : ProjectId} {w : World} {e : ProjectFault}
    (h : precondition (w.project id) = .error e) :
    (build compiler config (some id)).exec w =
      (.ok { status := .invalidData, reason := some e.message },
        w.logged .error ("Cannot build project: " ++ e.message)) := by
  simp only [build, Action.exec_bind, Action.exec_project, h]
  rfl

theorem exec_build_of_building {id : ProjectId} {w : World}
    (h : precondition (w.project id) = .ok ()) (hb : (w.project id).building = true) :
    (build compiler config (some id)).exec w =
      (.error (.inProgress (w.project id).name), w) := by
  simp only [build, Action.exec_bind, Action.exec_project, h, hb, if_true]
  rfl

/-- The mark is set while an admitted build runs, and taken away however the run ends. -/
theorem exec_build_of_admitted {id : ProjectId} {w : World}
    (h : precondition (w.project id) = .ok ()) (hb : (w.project id).building = false) :
    (build compiler config (some id)).exec w =
      (((run compiler config id).exec (w.setBuilding id true)).1,
        ((run compiler config id).exec (w.setBuilding id true)).2.setBuilding id false) := by
  simp only [build, Action.exec_bind, Action.exec_project, h, hb, Bool.false_eq_true, if_false,
    Action.exec_updateProject, Action.exec_attempt, Action.exec_ofExcept]
  rfl

/-! ## Reports -/

section Report

variable {compiler : Compiler} {config : Config} {id : ProjectId} {w w' : World}
  {report : BuildReport}

/-- A run reports a rejection as such, or what has been published. -/
theorem run_eq_ok (h : (run compiler config id).exec w = (.ok report, w')) :
    (∃ r, Stage.exec (compile compiler config (w.project id)) w = (.ok (.error r), w') ∧
      report = r.report) ∨
    ∃ c blob u, Stage.exec (compile compiler config (w.project id)) w = (.ok (.ok (c, blob)), u) ∧
      (publish config id c blob).exec u = (.ok report, w') := by
  rw [exec_run] at h
  rcases hstage : Stage.exec (compile compiler config (w.project id)) w with
    ⟨e | r | ⟨c, blob⟩, u⟩
  · rw [hstage] at h
    cases h
  · rw [hstage] at h
    obtain ⟨hreport, rfl⟩ := Prod.mk.inj h
    exact .inl ⟨r, rfl, (Except.ok.inj hreport).symm⟩
  · rw [hstage] at h
    exact .inr ⟨c, blob, u, rfl, h⟩

/-- A build reports that it has been refused at once, or what its run has reported. -/
theorem build_eq_ok (h : (build compiler config (some id)).exec w = (.ok report, w')) :
    (∃ e : ProjectFault, report = { status := .invalidData, reason := some e.message } ∧
      w' = w.logged .error ("Cannot build project: " ++ e.message)) ∨
    (id < w.projects.size ∧ (w.project id).building = false ∧
      ∃ v, (run compiler config id).exec (w.setBuilding id true) = (.ok report, v) ∧
        w' = v.setBuilding id false) := by
  cases hadmitted : precondition (w.project id) with
  | error e =>
      rw [exec_build_of_error compiler config hadmitted] at h
      obtain ⟨hreport, hw'⟩ := Prod.mk.inj h
      exact .inl ⟨e, (Except.ok.inj hreport).symm, hw'.symm⟩
  | ok _ =>
      cases hbuilding : (w.project id).building with
      | true =>
          rw [exec_build_of_building compiler config hadmitted hbuilding] at h
          cases h
      | false =>
          rw [exec_build_of_admitted compiler config hadmitted hbuilding] at h
          obtain ⟨hreport, hw'⟩ := Prod.mk.inj h
          exact .inr ⟨lt_size_of_precondition hadmitted, rfl, _, Prod.ext hreport rfl, hw'.symm⟩

/-- A build that reports success has been admitted. -/
theorem precondition_of_build (h : (build compiler config (some id)).exec w = (.ok report, w'))
    (hok : report.status = .ok) : precondition (w.project id) = .ok () := by
  cases hadmitted : precondition (w.project id) with
  | ok _ => rfl
  | error e =>
      rw [exec_build_of_error compiler config hadmitted] at h
      obtain ⟨hreport, -⟩ := Prod.mk.inj h
      rw [← Except.ok.inj hreport] at hok
      cases hok

/-- An admitted build whose compile stage succeeds comes to what is published. -/
theorem exec_build_of_compiled {c : Compilation} {blob : Bytes} {text : String}
    {declarations : List AdaptedDeclaration} {w₁ : World}
    (hadmitted : precondition (w.project id) = .ok ()) (hbuilding : (w.project id).building = false)
    (h : Compiled compiler config ((w.setBuilding id true).project id) c blob text declarations
      (w.setBuilding id true) w₁) :
    ∃ u, w₁.SameStore u ∧ (build compiler config (some id)).exec w =
      (((publish config id c blob).exec u).1,
        ((publish config id c blob).exec u).2.setBuilding id false) := by
  obtain ⟨u, hcompile, hsame⟩ := h.exec_compile
  refine ⟨u, hsame, ?_⟩
  rw [exec_build_of_admitted compiler config hadmitted hbuilding, exec_run, hcompile]

end Report

end Build

end Dialogue
