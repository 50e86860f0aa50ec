import Dialogue.Project
import Dialogue.Proofs.Value.Table

/-! What the views of a blob are when the blob is parsed anew for each of them, and that a project
which keeps its views answers the same: what is kept is either of an earlier blob, and dropped
before it is looked at, or the very view that would be made. -/

namespace Dialogue

inductive View where
  | program
  | nodeNames
  | initialValues
  | headers (node : Scalar)

inductive View.Answer where
  | program (program : Program)
  | nodeNames (names : List Scalar)
  | initialValues (values : Table Value)
  | headers (headers : Table (List Value))

namespace Project

/-- The program of the blob, parsed anew. -/
def freshProgram (p : Project) : Except Fault Program :=
  match p.blob with
  | none => .error (.notCompiled p.name)
  | some blob => p.parser blob

def freshNodeNames (p : Project) : Except Fault (List Scalar) :=
  return Table.keys (← p.freshProgram).nodes

/-- The typed values of operands by name. Operands of unknown cases have none. -/
def valuesOf (operands : List (Scalar × Operand)) (values : Table Value) :
    Except Fault (Table Value) :=
  match operands with
  | [] => .ok values
  | (name, o) :: rest =>
    match typedValue? o with
    | some (.ok v) => valuesOf rest (Table.put values name v)
    | some (.error e) => .error e
    | none => valuesOf rest values

def freshValues (p : Project) : Except Fault (Table Value) :=
  p.freshProgram.bind fun program => valuesOf program.initialValues []

def headersOf (program : Program) (node : Scalar) : Except Fault (Table (List Value)) :=
  match Table.lookup program.nodes node with
  | none => .ok []
  | some n => n.headers.foldlM addHeader []

def freshHeaders (p : Project) (node : Scalar) : Except Fault (Table (List Value)) :=
  p.freshProgram.bind fun program => headersOf program node

end Project

namespace View

/-- Reads a view of a project that keeps its views. -/
def read : View → Project.Access Answer
  | .program => return .program (← Project.program)
  | .nodeNames => return .nodeNames (← Project.nodeNames)
  | .initialValues => return .initialValues (← Project.initialValues)
  | .headers node => return .headers (← Project.headers node)

/-- The view of a project that keeps none. -/
def fresh (p : Project) : View → Except Fault Answer
  | .program => return .program (← p.freshProgram)
  | .nodeNames => return .nodeNames (← p.freshNodeNames)
  | .initialValues => return .initialValues (← p.freshValues)
  | .headers node => return .headers (← p.freshHeaders node)

theorem fresh_of_blob_eq_none {p : Project} (h : p.blob = none) (v : View) :
    v.fresh p = .error (.notCompiled p.name) := by
  have hprogram : p.freshProgram = .error (.notCompiled p.name) := by
    rw [Project.freshProgram, h]
  cases v <;> simp only [fresh, Project.freshNodeNames, Project.freshValues, Project.freshHeaders,
    hprogram] <;> rfl

end View

namespace Project

/-- The views that are kept and those that would be made of the blob agree, unless they are of an
earlier blob. -/
structure ViewsSound (p : Project) : Prop where
  version : p.viewsVersion ≤ p.blobVersion
  program : p.viewsVersion = p.blobVersion → ∀ program, p.views.program = some program →
    p.freshProgram = .ok program
  initialValues : p.viewsVersion = p.blobVersion → ∀ values, p.views.initialValues = some values →
    p.freshValues = .ok values
  headers : p.viewsVersion = p.blobVersion → ∀ node headers,
    Table.lookup p.views.headers node = some headers → p.freshHeaders node = .ok headers

/-- The same project with other views, made of the blob that is there. -/
def withViews (p : Project) (views : Views) : Project :=
  { p with views := views, viewsVersion := p.blobVersion }

theorem withViews_views {p : Project} (h : p.viewsVersion = p.blobVersion) :
    p.withViews p.views = p := by
  cases p
  simp_all [withViews]

namespace ViewsSound

variable {p : Project}

/-- A project of which no view has been asked for. -/
theorem of_no_views (hviews : p.views = {}) (hversion : p.viewsVersion ≤ p.blobVersion) :
    p.ViewsSound where
  version := hversion
  program _ program h := by simp [hviews] at h
  initialValues _ values h := by simp [hviews] at h
  headers _ node headers h := by simp [hviews, Table.lookup] at h

theorem of_lt (h : p.viewsVersion < p.blobVersion) : p.ViewsSound where
  version := Nat.le_of_lt h
  program hversion := absurd hversion (Nat.ne_of_lt h)
  initialValues hversion := absurd hversion (Nat.ne_of_lt h)
  headers hversion := absurd hversion (Nat.ne_of_lt h)

theorem setBlob (h : p.ViewsSound) (blob : Option Bytes) : (p.setBlob blob).ViewsSound :=
  .of_lt (Nat.lt_succ_of_le h.version)

/-- Soundness is a matter of the blob, its parser and the views. -/
theorem congr {p' : Project} (h : p.ViewsSound) (hname : p'.name = p.name)
    (hblob : p'.blob = p.blob) (hparser : p'.parser = p.parser)
    (hversion : p'.blobVersion = p.blobVersion) (hviews : p'.views = p.views)
    (hmade : p'.viewsVersion = p.viewsVersion) : p'.ViewsSound := by
  have hfresh : p'.freshProgram = p.freshProgram := by
    rw [freshProgram, hblob, hname, hparser, freshProgram]
  constructor
  case version =>
    rw [hmade, hversion]
    exact h.version
  case program =>
    rw [hmade, hversion, hviews, hfresh]
    exact h.program
  case initialValues =>
    rw [hmade, hversion, hviews, freshValues, hfresh]
    exact h.initialValues
  case headers =>
    rw [hmade, hversion, hviews]
    simp only [freshHeaders, hfresh]
    exact h.headers

/-- The views are sound once those of an earlier blob are dropped. -/
theorem syncViews (h : p.ViewsSound) :
    p.syncViews.ViewsSound ∧ ∃ views, p.syncViews = p.withViews views := by
  rw [Project.syncViews]
  split
  · rename_i hversion
    exact ⟨h, p.views, (withViews_views hversion).symm⟩
  · exact ⟨.of_no_views rfl (Nat.le_refl _), {}, rfl⟩

section Keep

variable {views : Views} (h : (p.withViews views).ViewsSound)

include h

theorem keepProgram {program : Program} (hfresh : p.freshProgram = .ok program) :
    (p.withViews { views with program := some program }).ViewsSound where
  version := Nat.le_refl _
  program _ program' hprogram := by
    obtain rfl : program = program' := Option.some.inj hprogram
    exact hfresh
  initialValues := h.initialValues
  headers := h.headers

theorem keepValues {values : Table Value} (hfresh : p.freshValues = .ok values) :
    (p.withViews { views with initialValues := some values }).ViewsSound where
  version := Nat.le_refl _
  program := h.program
  initialValues _ values' hvalues := by
    obtain rfl : values = values' := Option.some.inj hvalues
    exact hfresh
  headers := h.headers

theorem keepHeaders {node : Scalar} {headers : Table (List Value)}
    (hfresh : p.freshHeaders node = .ok headers) :
    (p.withViews { views with headers := Table.put views.headers node headers }).ViewsSound where
  version := Nat.le_refl _
  program := h.program
  initialValues := h.initialValues
  headers hversion node' headers' hlookup := by
    have hlookup : Table.lookup (Table.put views.headers node headers) node' = some headers' :=
      hlookup
    rw [Table.lookup_put] at hlookup
    split at hlookup
    · rename_i hkey
      obtain rfl : headers = headers' := Option.some.inj hlookup
      change (p.freshHeaders node') = _
      rw [← hfresh]
      simp only [freshHeaders, headersOf, Table.lookup_congr hkey]
    · exact h.headers hversion node' headers' hlookup

end Keep

end ViewsSound

/-! ## Reading -/

namespace Access

variable {α β : Type}

/-- What an access comes to when it is begun in a reading, and the reading that it leaves. -/
def exec (a : Access α) (r : Reading) : Except Fault α × Reading :=
  a.run.run r

/-- An access to a project with sound views comes to a result that is a matter of the blob alone,
and leaves the project with sound views of it. -/
structure Gives (p : Project) (a : Access α) (result : Except Fault α) (r : Reading) : Prop where
  result : (a.exec r).1 = result
  views : ∃ views, (a.exec r).2.project = p.withViews views
  sound : (a.exec r).2.project.ViewsSound

variable {p : Project} {r : Reading}

theorem Gives.bind {a : Access α} {f : α → Access β} {result : Except Fault α}
    {g : α → Except Fault β} (ha : Gives p a result r)
    (hf : ∀ x views r', result = .ok x → r'.project = p.withViews views → r'.project.ViewsSound →
      Gives p (f x) (g x) r') : Gives p (a >>= f) (result.bind g) r := by
  have hbind : (a >>= f).exec r =
      match a.exec r with
      | (.ok x, r') => (f x).exec r'
      | (.error e, r') => (.error e, r') := by
    simp only [exec, ExceptT.run, StateT.run, Bind.bind, ExceptT.bind, ExceptT.mk, StateT.bind]
    rcases a r with ⟨_ | x, r'⟩ <;> rfl
  obtain ⟨hresult, ⟨views, hviews⟩, hsound⟩ := ha
  rcases hrun : a.exec r with ⟨e | x, r'⟩
  all_goals
    rw [hrun] at hresult hviews hsound hbind
    subst hresult
  · exact ⟨by rw [hbind]; rfl, ⟨views, by rw [hbind, hviews]⟩, by rwa [hbind]⟩
  · obtain ⟨hresult', hviews', hsound'⟩ := hf x views r' rfl hviews hsound
    exact ⟨by rw [hbind]; exact hresult', by rwa [hbind], by rwa [hbind]⟩

/-- An access that goes on to return what it came to. -/
theorem Gives.bind_return {a : Access α} {f : α → Access α} {result : Except Fault α}
    (ha : Gives p a result r)
    (hf : ∀ x views r', result = .ok x → r'.project = p.withViews views → r'.project.ViewsSound →
      Gives p (f x) (.ok x) r') : Gives p (a >>= f) result r := by
  have hresult : result = result.bind .ok := (bind_pure result).symm
  rw [hresult]
  exact ha.bind hf

section Kept

variable {views : Views} (hr : r.project = p.withViews views) (hsound : r.project.ViewsSound)

include hr hsound

theorem gives_pure (x : α) : Gives p (pure x) (.ok x) r :=
  ⟨rfl, ⟨views, hr⟩, hsound⟩

theorem gives_throw (e : Fault) : Gives p (throw e : Access α) (.error e) r :=
  ⟨rfl, ⟨views, hr⟩, hsound⟩

theorem gives_liftExcept (result : Except Fault α) :
    Gives p (program.liftExcept result) result r := by
  cases result with
  | ok x => exact gives_pure hr hsound x
  | error e => exact gives_throw hr hsound e

theorem gives_addValues (operands : List (Scalar × Operand)) (values : Table Value) :
    Gives p (addValues values operands) (valuesOf operands values) r := by
  induction operands generalizing values r with
  | nil => exact gives_pure hr hsound values
  | cons e operands ih =>
      obtain ⟨name, o⟩ := e
      rw [addValues, valuesOf]
      cases typedValue? o with
      | some value =>
          cases value with
          | ok v => exact ih hr hsound (Table.put values name v)
          | error e => exact gives_throw hr hsound e
      | none =>
          have hwarned := ih (r := { r with warnings := r.warnings ++
            [name.display ++ " is of an invalid type: " ++ o.case.display] }) hr hsound values
          exact ⟨hwarned.result, hwarned.views, hwarned.sound⟩

end Kept

theorem Gives.get {f : Reading → Access α} {result : Except Fault α}
    (h : Gives p (f r) result r) : Gives p (MonadState.get >>= f) result r :=
  ⟨h.result, h.views, h.sound⟩

theorem Gives.modify {change : Reading → Reading} {f : Unit → Access α}
    {result : Except Fault α} (h : Gives p (f ()) result (change r)) :
    Gives p (modify change >>= f) result r :=
  ⟨h.result, h.views, h.sound⟩

theorem Gives.map {a : Access α} {result : Except Fault α} (ha : Gives p a result r)
    (g : α → β) : Gives p (return g (← a)) (return g (← result)) r :=
  ha.bind fun x _ _ _ hr hsound => gives_pure hr hsound (g x)

theorem gives_sync (h : r.project.ViewsSound) : Gives r.project sync (.ok ()) r :=
  ⟨rfl, h.syncViews.2, h.syncViews.1⟩

/-- What has been made of the blob is kept and returned. -/
theorem gives_keep {views : Views} (hr : r.project = p.withViews views) (change : Views → Views)
    (hsound : (p.withViews (change views)).ViewsSound) (x : α) :
    Gives p (do keep change; return x) (.ok x) r := by
  have hrun : (do keep change; return x : Access α).exec r =
      (.ok x, { r with project := p.withViews (change views) }) := by
    change (Except.ok x, { r with project := { r.project with
      views := change r.project.views } }) = _
    rw [hr]
    rfl
  exact ⟨by rw [hrun], ⟨change views, by rw [hrun]⟩, by rwa [hrun]⟩

/-- The views that are looked at are sound, and of the blob that is there. -/
theorem gives_synced {f : Reading → Access α} {result : Except Fault α}
    (h : r.project.ViewsSound)
    (hf : ∀ views r', r'.project = r.project.withViews views →
      (r.project.withViews views).ViewsSound → Gives r.project (f r') result r') :
    Gives r.project (do sync; f (← get)) result r := by
  refine Gives.bind (gives_sync h) (g := fun _ => result)
    fun _ views r' _ hviews hsound => Gives.get ?_
  rw [hviews] at hsound
  exact hf views r' hviews hsound

/-- The program is the one that is kept, or it is parsed. -/
theorem gives_program (h : r.project.ViewsSound) :
    Gives r.project program r.project.freshProgram r := by
  refine gives_synced h fun views r' hviews hsound => ?_
  simp only [hviews]
  cases hkept : (r.project.withViews views).views.program with
  | some program =>
      have hfresh : r.project.freshProgram = .ok program := hsound.program rfl program hkept
      rw [hfresh]
      exact gives_pure hviews (hviews ▸ hsound) program
  | none =>
      cases hblob : (r.project.withViews views).blob with
      | none =>
          have hfresh : r.project.freshProgram = .error (.notCompiled r.project.name) := by
            rw [freshProgram, show r.project.blob = none from hblob]
          rw [hfresh]
          exact gives_throw hviews (hviews ▸ hsound) _
      | some blob =>
          have hfresh : r.project.freshProgram = r.project.parser blob := by
            rw [freshProgram, show r.project.blob = some blob from hblob]
          rw [hfresh]
          refine Gives.modify ?_
          refine (gives_liftExcept (r := { r' with parses := r'.parses + 1 }) hviews
            (hviews ▸ hsound) (r.project.parser blob)).bind_return ?_
          intro program views r' hprogram hviews hsound
          rw [hviews] at hsound
          exact gives_keep hviews _ (hsound.keepProgram (hfresh.trans hprogram)) program

/-- The program of a project with other views of its blob. -/
theorem gives_program_of_withViews {views : Views} (hr : r.project = p.withViews views)
    (hsound : r.project.ViewsSound) : Gives p program p.freshProgram r := by
  have hprogram := gives_program hsound
  rw [hr] at hprogram
  exact ⟨hprogram.result, hprogram.views, hprogram.sound⟩

theorem gives_initialValues (h : r.project.ViewsSound) :
    Gives r.project initialValues r.project.freshValues r := by
  refine gives_synced h fun views r' hviews hsound => ?_
  simp only [hviews]
  cases hkept : (r.project.withViews views).views.initialValues with
  | some values =>
      have hfresh : r.project.freshValues = .ok values := hsound.initialValues rfl values hkept
      rw [hfresh]
      exact gives_pure hviews (hviews ▸ hsound) values
  | none =>
      refine (gives_program_of_withViews hviews (hviews ▸ hsound)).bind ?_
      intro program views r' hprogram hviews hsound
      refine (gives_addValues hviews hsound program.initialValues []).bind_return ?_
      intro values views r' hvalues hviews hsound
      have hfresh : r.project.freshValues = .ok values := by
        rw [freshValues, hprogram, ← hvalues]
        rfl
      rw [hviews] at hsound
      exact gives_keep hviews _ (hsound.keepValues hfresh) values

theorem gives_headers (h : r.project.ViewsSound) (node : Scalar) :
    Gives r.project (headers node) (r.project.freshHeaders node) r := by
  refine gives_synced h fun views r' hviews hsound => ?_
  simp only [hviews]
  cases hkept : Table.lookup (r.project.withViews views).views.headers node with
  | some headers =>
      have hfresh : r.project.freshHeaders node = .ok headers :=
        hsound.headers rfl node headers hkept
      rw [hfresh]
      exact gives_pure hviews (hviews ▸ hsound) headers
  | none =>
      refine (gives_program_of_withViews hviews (hviews ▸ hsound)).bind ?_
      intro program views r' hprogram hviews hsound
      have hfresh : r.project.freshHeaders node = headersOf program node := by
        rw [freshHeaders, hprogram]
        rfl
      rw [headersOf] at hfresh ⊢
      cases hnode : Table.lookup program.nodes node with
      | none => exact gives_pure hviews hsound []
      | some n =>
          rw [hnode] at hfresh
          refine (gives_liftExcept hviews hsound (n.headers.foldlM addHeader [])).bind_return ?_
          intro headers views r' hheaders hviews hsound
          rw [hviews] at hsound
          exact gives_keep hviews _ (hsound.keepHeaders (hfresh.trans hheaders)) headers

end Access

end Project

/-- Whatever views a project keeps, a view that is read is the one that is made afresh. -/
theorem View.gives_read (v : View) {r : Project.Reading} (h : r.project.ViewsSound) :
    Project.Access.Gives r.project v.read (v.fresh r.project) r := by
  cases v with
  | program => exact (Project.Access.gives_program h).map Answer.program
  | nodeNames => exact ((Project.Access.gives_program h).map _).map Answer.nodeNames
  | initialValues => exact (Project.Access.gives_initialValues h).map Answer.initialValues
  | headers node => exact (Project.Access.gives_headers h node).map Answer.headers

end Dialogue
