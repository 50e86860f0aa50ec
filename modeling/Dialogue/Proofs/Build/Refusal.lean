import Dialogue.Proofs.Build.Atomicity

/-! A project that is being built is not built again. A build that is asked for meanwhile is refused
without a trace if the project could be built, and reported as impossible if it could not; new
sources are in the project by then. -/

namespace Dialogue

namespace World

variable {w : World} {id : ProjectId} {sources : List Value}

theorem lt_size_of_building (h : (w.project id).building = true) : id < w.projects.size := by
  refine Nat.lt_of_not_le fun hle => ?_
  rw [w.project_of_size_le hle] at h
  cases h

theorem project_withSources (h : id < w.projects.size) (sources : List Value) :
    (w.withSources (some id) sources).project id = { w.project id with sources := sources } :=
  w.project_setProject_self h _

/-- Only sources that are there already leave the world as it is. -/
theorem withSources_eq_iff (h : id < w.projects.size) :
    w.withSources (some id) sources = w ↔ sources = (w.project id).sources := by
  constructor
  · intro heq
    have hproject := project_withSources h sources
    rw [heq] at hproject
    rw [hproject]
  · rintro rfl
    exact w.setProject_project id

end World

namespace Build

variable (compiler : Compiler) (config : Config) {id : ProjectId} {w : World}

theorem precondition_eq_ok_iff {p : Project} :
    precondition p = .ok () ↔ p.sources ≠ [] ∧ p.base ≠ none := by
  rw [precondition]
  cases p.sources <;> cases p.base <;> simp

/-- New sources are written before the build is asked for, whatever becomes of it. -/
theorem exec_setSources (sources : List Value) (w : World) :
    (setSources compiler config (some id) sources).exec w =
      match (build compiler config (some id)).exec (w.withSources (some id) sources) with
      | (.ok report, u) =>
        (.ok report, u.logged .info ("Project " ++ (u.project id).name.display ++
          " compilation result: " ++ report.status.name))
      | (.error e, u) => (.error e, u) := by
  rw [setSources, Action.exec_bind_of_ok (Action.exec_updateProject _ _ _), Action.exec_bind,
    World.withSources]
  rcases (build compiler config (some id)).exec
    (w.setProject id { w.project id with sources := sources }) with ⟨e | report, u⟩ <;> rfl

/-- What becomes of a request that finds a project being built in `u`. -/
inductive TurnedAway (id : ProjectId) (u : World) : Except Fault BuildReport × World → Prop where
  /-- It is refused and leaves all as it is. -/
  | refused (h : (u.project id).sources ≠ [] ∧ (u.project id).base ≠ none) :
    TurnedAway id u (.error (.inProgress (u.project id).name), u)
  /-- The project could not be built as it is, which is reported and logged. -/
  | reported (e : ProjectFault) (log : List (LogLevel × String))
    (h : ¬ ((u.project id).sources ≠ [] ∧ (u.project id).base ≠ none)) :
    TurnedAway id u (.ok { status := .invalidData, reason := some e.message },
      { u with journal := { u.journal with log := log } })

theorem turnedAway_build (h : (w.project id).building = true) :
    TurnedAway id w ((build compiler config (some id)).exec w) := by
  cases hcondition : precondition (w.project id) with
  | ok _ =>
      rw [exec_build_of_building compiler config hcondition h]
      exact .refused (precondition_eq_ok_iff.mp hcondition)
  | error e =>
      rw [exec_build_of_error compiler config hcondition]
      refine .reported e _ fun hadmitted => ?_
      rw [precondition_eq_ok_iff.mpr hadmitted] at hcondition
      cases hcondition

theorem turnedAway_setSources (h : (w.project id).building = true) (sources : List Value) :
    TurnedAway id (w.withSources (some id) sources)
      ((setSources compiler config (some id) sources).exec w) := by
  have hproject := World.project_withSources (World.lt_size_of_building h) sources
  have hbuild := turnedAway_build compiler config (w := w.withSources (some id) sources)
    (by rw [hproject]; exact h)
  rw [exec_setSources]
  generalize (build compiler config (some id)).exec (w.withSources (some id) sources) = outcome at *
  cases hbuild with
  | refused hadmitted => exact .refused hadmitted
  | reported e log hrefused => exact .reported e _ hrefused

theorem TurnedAway.eq_refused_iff {outcome : Except Fault BuildReport × World}
    (h : TurnedAway id w outcome) :
    outcome = (.error (.inProgress (w.project id).name), w) ↔
      (w.project id).sources ≠ [] ∧ (w.project id).base ≠ none := by
  cases h with
  | refused hadmitted => exact ⟨fun _ => hadmitted, fun _ => rfl⟩
  | reported e log hrefused => exact ⟨fun h => (by cases h), fun h => absurd h hrefused⟩

theorem setSources_eq_refused_iff (h : (w.project id).building = true) (sources : List Value) :
    (setSources compiler config (some id) sources).exec w =
        (.error (.inProgress (w.project id).name), w) ↔
      sources = (w.project id).sources ∧ sources ≠ [] ∧ (w.project id).base ≠ none := by
  have hp := World.lt_size_of_building h
  have haway := turnedAway_setSources compiler config h sources
  constructor
  · generalize (setSources compiler config (some id) sources).exec w = outcome at haway
    intro heq
    cases haway with
    | refused hadmitted =>
        obtain ⟨-, hworld⟩ := Prod.mk.inj heq
        have hsources := (World.withSources_eq_iff hp).mp hworld
        rw [hworld, ← hsources] at hadmitted
        exact ⟨hsources, hadmitted⟩
    | reported e log hrefused => cases heq
  · rintro ⟨rfl, hadmitted⟩
    rw [(World.withSources_eq_iff hp).mpr rfl] at haway
    exact haway.eq_refused_iff.mpr hadmitted

end Build

/-- A request for a project that is being built leaves the localizations, the files and all other
projects as they are. A build is refused without a trace exactly if the project could be built but
for that. New sources are written first: what becomes of the build is then a matter of the project
with these sources, and nothing has changed only if they were there already. -/
theorem requests_turned_away (compiler : Compiler) (config : Config) {id : ProjectId} {w : World}
    (hbuilding : (w.project id).building = true) :
    (Build.TurnedAway id w ((build compiler config (some id)).exec w) ∧
      ((build compiler config (some id)).exec w =
          (.error (.inProgress (w.project id).name), w) ↔
        (w.project id).sources ≠ [] ∧ (w.project id).base ≠ none)) ∧
    ∀ sources,
      (w.withSources (some id) sources).project id = { w.project id with sources := sources } ∧
      Build.TurnedAway id (w.withSources (some id) sources)
        ((setSources compiler config (some id) sources).exec w) ∧
      ((setSources compiler config (some id) sources).exec w =
          (.error (.inProgress (w.project id).name), w) ↔
        sources = (w.project id).sources ∧ sources ≠ [] ∧ (w.project id).base ≠ none) := by
  have hp := World.lt_size_of_building hbuilding
  have hbuild := Build.turnedAway_build compiler config hbuilding
  exact ⟨⟨hbuild, hbuild.eq_refused_iff⟩, fun sources => ⟨World.project_withSources hp sources,
    Build.turnedAway_setSources compiler config hbuilding sources,
    Build.setSources_eq_refused_iff compiler config hbuilding sources⟩⟩

/-- The world in which the compiler is called for the first project. -/
def World.underway : World := World.bilingual.setBuilding 0 true

theorem requests_turned_away_underway : (World.underway.project 0).building = true ∧
    (build (.returning {}) {} (some 0)).exec World.underway =
      (.error (.inProgress (.text "")), World.underway) ∧
    Build.TurnedAway 0 (World.underway.withSources (some 0) [])
      ((setSources (.returning {}) {} (some 0) []).exec World.underway) := by
  have hbuilding : (World.underway.project 0).building = true := rfl
  obtain ⟨⟨-, hbuild⟩, hsources⟩ := requests_turned_away (.returning {}) {} hbuilding
  exact ⟨hbuilding, hbuild.mpr ⟨List.cons_ne_nil _ _, Option.some_ne_none 0⟩, (hsources []).2.1⟩

/-- A compiler that gives the first project new sources, whatever comes of it. -/
def Compiler.meddling (sources : List Value) : Compiler := fun _ => do
  let _ ← Action.attempt (setSources (.returning {}) {} (some 0) sources)
  return { program := some (.bytes [1]) }

/-- A request for new sources is refused and yet leaves them in the project, and one that leaves the
project without sources is answered and not refused. A compiler can ask for both. -/
theorem sources_replaced_meddling :
    (¬ ∀ (compiler : Compiler) (config : Config) (id : ProjectId) (w : World)
      (sources : List Value), (w.project id).building = true →
      (setSources compiler config (some id) sources).exec w =
        (.error (.inProgress (w.project id).name), w)) ∧
    (∃ report w',
      (setSources (.returning {}) {} (some 0) []).exec World.underway = (.ok report, w') ∧
        report.status = .invalidData) ∧
    ∃ report w', (build (.meddling [.text "other"]) {} (some 0)).exec World.bilingual =
      (.ok report, w') ∧ report.status = .ok ∧
      (w'.project 0).sources.map Value.text? = [some "other"] := by
  refine ⟨fun hall => ?_, ⟨_, _, rfl, rfl⟩, ?_⟩
  · have hrefused := hall (.returning {}) {} 0 World.underway [.text "other"] rfl
    obtain ⟨hsources, -⟩ := (Build.setSources_eq_refused_iff _ _ rfl _).mp hrefused
    have hmain : (World.underway.project 0).sources = [.text "main"] := rfl
    rw [hmain] at hsources
    simp at hsources
  · have hrun : ((build (.meddling [.text "other"]) {} (some 0)).exec World.bilingual).map
        (fun result => result.toOption.map BuildReport.status)
        (fun w => (w.project 0).sources.map Value.text?) = (some .ok, [some "other"]) := by
      decide +kernel
    rcases hbuild : (build (.meddling [.text "other"]) {} (some 0)).exec World.bilingual with
      ⟨e | report, w'⟩
    · rw [hbuild] at hrun
      cases (Prod.mk.inj hrun).1
    · rw [hbuild] at hrun
      obtain ⟨hok, hsources⟩ := Prod.mk.inj hrun
      exact ⟨report, w', rfl, Option.some.inj hok, hsources⟩

end Dialogue
