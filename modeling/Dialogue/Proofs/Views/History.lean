import Dialogue.Proofs.Views.Agreement
import Dialogue.Proofs.World.Sound

/-! Whatever is done with a project and in whatever order, its views are those of a project that
keeps none and parses its blob each time. -/

namespace Dialogue

namespace View

/-- Reads a view of a project that keeps its views. -/
def kept (id : ProjectId) (v : View) : Action Answer :=
  Action.access id v.read

/-- Reads a view of a project that keeps none: the blob is parsed, and nothing is changed. -/
def anew (id : ProjectId) (v : View) : Action Answer := do
  Action.ofExcept (v.fresh (← Action.project id))

theorem exec_kept (id : ProjectId) (v : View) (w : World) :
    ∃ parses warnings, (v.kept id).exec w =
      ((v.read.exec { project := w.project id, parses := w.parses }).1,
        { w.setProject id (v.read.exec { project := w.project id, parses := w.parses }).2.project
          with parses := parses, journal := { w.journal with warnings := warnings } }) :=
  ⟨_, _, Action.exec_ofExcept _ _⟩

theorem exec_anew (id : ProjectId) (v : View) (w : World) :
    (v.anew id).exec w = (v.fresh (w.project id), w) := by
  rw [anew, Action.exec_bind_of_ok (Action.exec_project w id), Action.exec_ofExcept]

/-- Reading a view in either way comes to the same, and changes no more than views that are kept. -/
theorem agree_kept_anew (id : ProjectId) (v : View) : Action.Agree (v.kept id) (v.anew id) := by
  intro w w' h
  obtain ⟨parses, warnings, hkept⟩ := exec_kept id v w
  obtain ⟨hresult, ⟨views, hviews⟩, hsound⟩ := v.gives_read
    (r := { project := w.project id, parses := w.parses }) (h.left id)
  rw [hkept, exec_anew, hresult, hviews]
  rw [hviews] at hsound
  have hread : (w'.project id).SameButViews ((w.project id).withViews views) :=
    (h.project id).symm.trans (.withViews (h.left id) hsound)
  have hset := h.symm.setProject id hread
  rw [World.setProject_project] at hset
  exact ⟨((h.project id).fresh v).symm, hset.symm.localizations, hset.symm.size,
    hset.symm.project, h.files, by rw [h.journal]⟩

/-- A view may be read on the way, by a compiler for example. -/
theorem ignoresViews_kept (id : ProjectId) (v : View) : Action.IgnoresViews (v.kept id) :=
  (agree_kept_anew id v).trans (agree_kept_anew id v).symm

end View

inductive Operation where
  /-- Gives the project another blob, or takes its blob away. -/
  | assign (blob : Option Bytes)
  | build (compiler : Compiler) (config : Config)
  | view (v : View)

inductive Operation.Outcome where
  | assigned
  | built (result : Except Fault BuildReport)
  | viewed (result : Except Fault View.Answer)

/-- Performs an operation with a project whose views are read in the given way. -/
def Operation.perform (read : View → Action View.Answer) (id : ProjectId) :
    Operation → Action Outcome
  | .assign blob => do
    Action.updateProject id fun p => p.setBlob blob
    return .assigned
  | .build compiler config => return .built (← Action.attempt (Dialogue.build compiler config id))
  | .view v => return .viewed (← Action.attempt (read v))

/-- Performs operations one after the other, whatever they come to. -/
def history (read : View → Action View.Answer) (id : ProjectId) :
    List Operation → Action (List Operation.Outcome)
  | [] => return []
  | op :: rest => do
    return (← op.perform read id) :: (← history read id rest)

/-- An operation whose compiler, if it has one, cannot see which views are kept. -/
def Operation.IgnoresViews : Operation → Prop
  | .build compiler _ => compiler.IgnoresViews
  | _ => True

theorem Operation.agree_perform (id : ProjectId) {op : Operation} (h : op.IgnoresViews) :
    Action.Agree (op.perform (View.kept id) id) (op.perform (View.anew id) id) := by
  cases op with
  | assign blob =>
      exact .bind (.updateProject id fun _ _ h => h.setBlob blob) fun _ => .pure _
  | build compiler config =>
      exact .bind (ignoresViews_build h config id).attempt fun _ => .pure _
  | view v => exact .bind (v.agree_kept_anew id).attempt fun _ => .pure _

theorem agree_history (id : ProjectId) {ops : List Operation} (h : ∀ op ∈ ops, op.IgnoresViews) :
    Action.Agree (history (View.kept id) id ops) (history (View.anew id) id ops) := by
  induction ops with
  | nil => exact .pure _
  | cons op rest ih =>
      refine .bind (Operation.agree_perform id (h op (by simp))) fun outcome => ?_
      exact .bind (ih fun op' hop => h op' (by simp [hop])) fun _ => .pure _

theorem exec_history_anew_of_views (id : ProjectId) (vs : List View) (w : World) :
    (history (View.anew id) id (vs.map .view)).exec w =
      (.ok (vs.map fun v => .viewed (v.fresh (w.project id))), w) := by
  induction vs with
  | nil => rfl
  | cons v vs ih =>
      have hview : (Operation.perform (View.anew id) id (.view v)).exec w =
          (.ok (.viewed (v.fresh (w.project id))), w) := by
        rw [Operation.perform, Action.exec_bind_of_ok (Action.exec_attempt _ w), View.exec_anew]
        rfl
      rw [List.map_cons, history, Action.exec_bind_of_ok hview, Action.exec_bind_of_ok ih]
      rfl

/-- A project whose blob has been taken away, or that is none of those there are. -/
theorem World.project_setBlob_none (w : World) (id : ProjectId) :
    let p := (w.setProject id ((w.project id).setBlob none)).project id
    p.blob = none ∧ p.name = (w.project id).name := by
  by_cases hid : id < w.projects.size
  · rw [w.project_setProject_self hid]
    exact ⟨rfl, rfl⟩
  · have hle := Nat.le_of_not_lt hid
    rw [World.setProject, Array.setIfInBounds_eq_of_size_le hle, w.project_of_size_le hle]
    exact ⟨rfl, rfl⟩

theorem exec_history_anew_of_none (id : ProjectId) (vs : List View) (w : World) :
    ((history (View.anew id) id (.assign none :: vs.map .view)).exec w).1 =
      .ok (.assigned :: vs.map fun _ => .viewed (.error (.notCompiled (w.project id).name))) := by
  obtain ⟨hblob, hname⟩ := w.project_setBlob_none id
  have hassign : (Operation.perform (View.anew id) id (.assign none)).exec w =
      (.ok .assigned, w.setProject id ((w.project id).setBlob none)) := rfl
  rw [history, Action.exec_bind_of_ok hassign,
    Action.exec_bind_of_ok (exec_history_anew_of_views id vs _)]
  simp only [View.fresh_of_blob_eq_none hblob, hname]
  rfl

/-- What is done with a project comes to the same as with one that keeps no views: every view is
that of the blob given last, whatever has been asked for or has failed before. When the blob has
been taken away there is no view at all. -/
theorem views_of_last_blob (id : ProjectId) (ops : List Operation) (w : World)
    (hops : ∀ op ∈ ops, op.IgnoresViews) (hw : w.ViewsSound) :
    ((history (View.kept id) id ops).exec w).1 = ((history (View.anew id) id ops).exec w).1 ∧
      ∀ (u : World), ((history (View.kept id) id ops).exec w).2 = u → ∀ vs : List View,
        ((history (View.kept id) id (.assign none :: vs.map .view)).exec u).1 =
          .ok (.assigned ::
            vs.map fun _ => .viewed (.error (.notCompiled (u.project id).name))) := by
  obtain ⟨houtcomes, hworld⟩ := agree_history id hops w w (.refl hw)
  refine ⟨houtcomes, ?_⟩
  rintro u rfl vs
  have hviews : ∀ op ∈ Operation.assign none :: vs.map .view, op.IgnoresViews := by
    simp [Operation.IgnoresViews]
  rw [(agree_history id hviews _ _ (.refl hworld.left)).1, exec_history_anew_of_none]

/-- A compiler that looks at a view of a project before it returns. -/
def Compiler.looking (id : ProjectId) (v : View) (c : Compilation) : Compiler := fun _ => do
  let _ ← Action.attempt (v.kept id)
  return c

theorem Compiler.ignoresViews_looking (id : ProjectId) (v : View) (c : Compilation) :
    (Compiler.looking id v c).IgnoresViews :=
  fun _ => .bind (v.ignoresViews_kept id).attempt fun _ => .pure c

theorem World.viewsSound_bilingual : World.bilingual.ViewsSound := by
  intro id
  match id with
  | 0 => exact .of_no_views rfl (Nat.le_refl _)
  | _ + 1 => exact .of_no_views rfl (Nat.le_refl _)

/-- A blob that is parsed, one that is not, and a build whose compiler looks at a view. -/
def Operation.examples : List Operation :=
  [.view .program, .assign (some [0, 0, 0, 2, 123, 125]), .view .nodeNames,
    .build (.looking 0 .program .greeting) {}, .view .initialValues,
      .view (.headers (.text "Start"))]

theorem views_of_last_blob_examples :
    ((history (View.kept 0) 0 Operation.examples).exec World.bilingual).1 =
      ((history (View.anew 0) 0 Operation.examples).exec World.bilingual).1 ∧
    ∀ u, ((history (View.kept 0) 0 Operation.examples).exec World.bilingual).2 = u →
      ∀ vs : List View,
        ((history (View.kept 0) 0 (.assign none :: vs.map .view)).exec u).1 =
          .ok (.assigned :: vs.map fun _ => .viewed (.error (.notCompiled (u.project 0).name))) :=
  views_of_last_blob 0 Operation.examples World.bilingual
    (by simp [Operation.examples, Operation.IgnoresViews, Compiler.ignoresViews_looking])
    World.viewsSound_bilingual

end Dialogue
