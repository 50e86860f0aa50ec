import Dialogue.Proofs.Build.Publish
import Dialogue.Proofs.Program.Codec
import Dialogue.Proofs.Views.History

/-! After a build that succeeds, the views of its project show the program that the compiler
returned, however often and in whatever order they are asked for. -/

namespace Dialogue

/-! ## Headers -/

/-- The values of each header key in their order, the keys in the order in which they first
occur. -/
def Node.grouped (n : Node) : Table (List Value) :=
  (n.headers.filterMap fun h => h.1.text?).eraseDups.map fun key : String =>
    (.text key, (n.headers.filter fun h => h.1.text? = some key).map Prod.snd)

theorem Node.grouped_eq {n : Node} {pairs : List (String × String)}
    (h : n.headers = pairs.map fun p => (.text p.1, .text p.2)) :
      n.grouped = Table.groups pairs := by
  have hkeys : n.headers.filterMap (fun h => h.1.text?) = pairs.map (·.1) := by
    rw [h, List.filterMap_map, ← List.filterMap_eq_map]
    rfl
  rw [grouped, Table.groups, hkeys]
  refine List.map_congr_left fun key _ => ?_
  rw [h, List.filter_map, List.map_map]
  simp [Function.comp_def, Value.text?]

/-- The headers of a node are its groups, and no header is lost or doubled in them. -/
theorem Node.Textual.grouped_perm {n : Node} (h : n.Textual) :
    (n.grouped.flatMap fun e => e.2.map fun v => (Value.scalar e.1, v)).Perm n.headers := by
  obtain ⟨pairs, hpairs⟩ := h.headers
  rw [grouped_eq hpairs, hpairs]
  exact Table.flatMap_groups_perm pairs

theorem Project.foldlM_addHeader (before pairs : List (String × String)) :
    (pairs.map fun p => (Value.text p.1, Value.text p.2)).foldlM addHeader (Table.groups before) =
      .ok (Table.groups (before ++ pairs)) := by
  induction pairs generalizing before with
  | nil => simp [pure, Except.pure]
  | cons p pairs ih =>
      have hadd : addHeader (Table.groups before) (.text p.1, .text p.2) =
          .ok (Table.groups (before ++ [p])) := by
        rw [← Table.put_groups]
        rfl
      have hrest := ih (before ++ [p])
      rw [List.append_assoc, List.singleton_append] at hrest
      rw [List.map_cons, List.foldlM_cons, hadd]
      exact hrest

theorem Node.Textual.addHeaders {n : Node} (h : n.Textual) :
    n.headers.foldlM Project.addHeader [] = .ok n.grouped := by
  obtain ⟨pairs, hpairs⟩ := h.headers
  rw [grouped_eq hpairs, hpairs]
  exact Project.foldlM_addHeader [] pairs

/-! ## Initial values -/

/-- The value of a constant is shown in its own type. -/
theorem Operand.IsConstant.typedValue? {o : Operand} (h : o.IsConstant) :
    Project.typedValue? o = some (.ok o.value) := by
  have hbool : boolCase ≠ stringCase := by decide
  have hfloat : floatCase ≠ stringCase ∧ floatCase ≠ boolCase := by decide
  obtain ⟨b, rfl⟩ | ⟨x, rfl⟩ | ⟨s, rfl⟩ := h.cases
  · simp [Project.typedValue?, Value.same_text, hbool, Value.truthy, Scalar.truthy]
  · simp [Project.typedValue?, Value.same_text, hfloat, Value.toFloat, Except.map]
  · simp [Project.typedValue?, Value.same_text, Value.toText]

theorem Project.valuesOf_eq {operands : Table Operand} (h : ∀ e ∈ operands, e.2.IsConstant)
    (values : Table Value) : valuesOf operands values =
      .ok ((operands.map fun e => (e.1, e.2.value)).foldl (fun t e => t.put e.1 e.2) values) := by
  induction operands generalizing values with
  | nil => rfl
  | cons e operands ih =>
      obtain ⟨he, hoperands⟩ := List.forall_mem_cons.mp h
      obtain ⟨name, o⟩ := e
      rw [valuesOf, he.typedValue?]
      exact ih hoperands _

/-! ## Views of a program -/

/-- What the views of a program show. -/
inductive Program.Shows (p : Program) : View → View.Answer → Prop
  | program {q : Program} (nodes : q.nodes = p.nodes)
      (initialValues : q.initialValues.Perm p.initialValues) : Shows p .program (.program q)
  | nodeNames : Shows p .nodeNames (.nodeNames p.nodes.keys)
  | initialValues {values : Table Value}
      (values_perm : values.Perm (p.initialValues.map fun e => (e.1, e.2.value))) :
      Shows p .initialValues (.initialValues values)
  | headers {name : Scalar} {n : Node} (node : p.nodes.lookup name = some n)
      (partition : (n.grouped.flatMap fun e => e.2.map fun v =>
        (Value.scalar e.1, v)).Perm n.headers) :
      Shows p (.headers name) (.headers n.grouped)
  | noHeaders {name : Scalar} (node : p.nodes.lookup name = none) :
      Shows p (.headers name) (.headers [])

theorem mem_of_lookup {α : Type} {t : Table α} {key : Scalar} {v : α} (h : t.lookup key = some v) :
    ∃ e ∈ t, e.2 = v := by
  obtain ⟨e, he, rfl⟩ := Option.map_eq_some_iff.mp h
  exact ⟨e, List.mem_of_find?_eq_some he, rfl⟩

theorem Project.freshValues_of_constants {project : Project} {q : Program}
    (hfresh : project.freshProgram = .ok q) (hconstants : ∀ e ∈ q.initialValues, e.2.IsConstant)
    (hdistinct : Table.Distinct (q.initialValues.map fun e => (e.1, e.2.value))) :
    project.freshValues = .ok (q.initialValues.map fun e => (e.1, e.2.value)) := by
  have hread := Project.valuesOf_eq hconstants []
  rw [← Table.ofEntries, Table.ofEntries_of_distinct hdistinct] at hread
  rw [Project.freshValues, hfresh, Except.bind, hread]

/-- The headers of a node are grouped, and a node that there is not has none. -/
theorem View.exists_freshHeaders {project : Project} {p q : Program} (hp : p.WellTyped)
    (hfresh : project.freshProgram = .ok q) (hnodes : q.nodes = p.nodes) (name : Scalar) :
    ∃ answer, (View.headers name).fresh project = .ok answer ∧ p.Shows (.headers name) answer := by
  have hread : Project.freshHeaders project name = Project.headersOf q name := by
    rw [Project.freshHeaders, hfresh]
    rfl
  cases hlookup : p.nodes.lookup name with
  | none =>
      refine ⟨.headers [], ?_, .noHeaders hlookup⟩
      rw [fresh, hread, Project.headersOf, hnodes, hlookup]
      rfl
  | some n =>
      obtain ⟨e, he, rfl⟩ := mem_of_lookup hlookup
      have htextual := hp.textualNodes e he
      refine ⟨.headers e.2.grouped, ?_, .headers hlookup htextual.grouped_perm⟩
      rw [fresh, hread, Project.headersOf, hnodes, hlookup]
      simp only [htextual.addHeaders]
      rfl

/-- The views of a blob that is decoded to a program show it. -/
theorem View.exists_fresh {project : Project} {p q : Program} (hp : p.WellTyped)
    (hfresh : project.freshProgram = .ok q) (hnodes : q.nodes = p.nodes)
    (hvalues : q.initialValues.Perm p.initialValues) (v : View) :
    ∃ answer, v.fresh project = .ok answer ∧ p.Shows v answer := by
  cases v with
  | program => exact ⟨.program q, by rw [fresh, hfresh]; rfl, .program hnodes hvalues⟩
  | nodeNames =>
      refine ⟨.nodeNames q.nodes.keys, by rw [fresh, Project.freshNodeNames, hfresh]; rfl, ?_⟩
      rw [hnodes]
      exact .nodeNames
  | initialValues =>
      have hdistinct : Table.Distinct (q.initialValues.map fun e => (e.1, e.2.value)) :=
        List.pairwise_map.mpr (hp.distinct.perm hvalues)
      have hread := Project.freshValues_of_constants hfresh
        (fun e he => hp.constants e (hvalues.mem_iff.mp he)) hdistinct
      exact ⟨.initialValues (q.initialValues.map fun e => (e.1, e.2.value)),
        by rw [fresh, hread]; rfl, .initialValues (hvalues.map _)⟩
  | headers name => exact View.exists_freshHeaders hp hfresh hnodes name

/-! ## Views one after the other -/

section Views

variable {id : ProjectId} {w : World} {p : Project}

/-- A view that is asked for changes at most which views are kept. -/
theorem exec_perform_view (hid : id < w.projects.size) (hw : p.SameButViews (w.project id))
    (v : View) :
    ∃ w', (Operation.perform (View.kept id) id (.view v)).exec w = (.ok (.viewed (v.fresh p)), w') ∧
      id < w'.projects.size ∧ p.SameButViews (w'.project id) := by
  obtain ⟨parses, warnings, hkept⟩ := v.exec_kept id w
  obtain ⟨hresult, ⟨views, hviews⟩, hsound⟩ := v.gives_read
    (r := { project := w.project id, parses := w.parses }) hw.right
  rw [hresult, hviews, hw.fresh] at hkept
  rw [hviews] at hsound
  have hset : p.SameButViews
      ((w.setProject id ((w.project id).withViews views)).project id) := by
    rw [w.project_setProject_self hid]
    exact hw.trans (.withViews hw.right hsound)
  have hperform : (Operation.perform (View.kept id) id (.view v)).exec w =
      (.ok (.viewed ((v.kept id).exec w).1), ((v.kept id).exec w).2) := by
    rw [Operation.perform, Action.exec_bind_of_ok (Action.exec_attempt _ w)]
    rfl
  rw [hkept] at hperform
  exact ⟨_, hperform, hid.trans_eq (w.size_setProject id _).symm, hset⟩

/-- Views that are asked for one after the other are those of the blob, each of them. -/
theorem exec_history_of_views (hid : id < w.projects.size) (hw : p.SameButViews (w.project id))
    (vs : List View) : ((history (View.kept id) id (vs.map .view)).exec w).1 =
      .ok (vs.map fun v => .viewed (v.fresh p)) := by
  induction vs generalizing w with
  | nil => rfl
  | cons v vs ih =>
      obtain ⟨w', hview, hid', hw'⟩ := exec_perform_view hid hw v
      have hrest := ih hid' hw'
      rw [List.map_cons, history, Action.exec_bind_of_ok hview, Action.exec_bind]
      rcases hrun : (history (View.kept id) id (vs.map .view)).exec w' with ⟨result, w''⟩
      rw [hrun] at hrest
      subst hrest
      rfl

end Views

/-! ## After a build -/

/-- A project whose blobs are decoded as programs are encoded, and whose views are not of a blob
that is yet to come. -/
structure Project.Decoding (p : Project) : Prop where
  parser : p.parser = Blob.decode
  version : p.viewsVersion ≤ p.blobVersion

namespace Build

variable {compiler : Compiler} {config : Config} {id : ProjectId} {w w' u v : World}
  {report : BuildReport} {c : Compilation} {blob : Bytes} {base : LocalizationId}
  {entries : List StringTable.Entry}

/-- Nothing but the list of a project is changed while its languages are brought up to date. -/
theorem Synced.project {ctx : Context} {slot : Nat} {k : LocalizationId} {o : Outcome}
    (h : Synced ctx slot k w o v) :
    ∃ ids, v.project ctx.projectId = { w.project ctx.projectId with localizations := ids } := by
  have hkept : ∀ {v : World}, v.projects = w.projects →
      ∃ ids, v.project ctx.projectId = { w.project ctx.projectId with localizations := ids } :=
    fun hprojects => ⟨_, by rw [World.project, hprojects]; rfl⟩
  cases h with
  | skipped _ kept => exact hkept kept.projects
  | loaded _ _ _ persisted _ => exact hkept persisted.projects
  | @rebuilt rows u _ _ recorded _ =>
      obtain ⟨ids, hu⟩ := hkept recorded.projects
      by_cases hp : ctx.projectId < u.projects.size
      · exact ⟨_, by rw [project_replaced ctx slot _ hp, hu]⟩
      · refine ⟨ids, ?_⟩
        rw [← hu, World.project_of_size_le _ (Nat.le_of_not_lt hp),
          World.project_of_size_le _ (by simpa using Nat.le_of_not_lt hp)]

/-- A build that reports success leaves the project with the new blob, and with another list. -/
theorem Published.project (h : Published compiler config id w report w' c blob base entries u v) :
    ∃ ids building, w'.project id =
      { (u.project id).setBlob (some blob) with localizations := ids, building } := by
  have hregistered : (registered id base blob u).project id = _ :=
    project_registered (lt_size_of_base h.hasBase)
  have hlanguages : ∃ ids, v.project id =
      { (u.project id).setBlob (some blob) with localizations := ids } := by
    have hrun := h.languages
    have hinvariant := invariant_worldAt (I := fun w => ∃ ids, w.project id =
      { (u.project id).setBlob (some blob) with localizations := ids }) ⟨_, hregistered⟩
      (fun _ hw hslot => by
        obtain ⟨ids, hw⟩ := hw
        obtain ⟨o, hsynced, -⟩ := syncSlot_eq_ok hslot
        obtain ⟨ids', hproject⟩ := hsynced.project
        exact ⟨ids',
          hproject.trans
            (by rw [show (context config id base blob entries u).projectId = id from rfl, hw])⟩)
      hrun (Nat.le_refl _)
    rwa [worldAt_length hrun] at hinvariant
  obtain ⟨ids, hv⟩ := hlanguages
  obtain ⟨building, hbuilding⟩ := v.project_setBuilding_eq id false id
  refine ⟨ids, building, ?_⟩
  rw [h.final, hbuilding, hv]

/-- The stored blob of a program of texts and constants is decoded to the program. -/
theorem Published.freshProgram {p : Program}
    (h : Published compiler config id w report w' c blob base entries u v)
    (hu : (u.project id).Decoding) (hencode : Blob.encode p = .ok blob) (hp : p.WellTyped)
    (hnames : p.OwnNames) : ∃ q, (w'.project id).freshProgram = .ok q ∧ q.nodes = p.nodes ∧
      q.initialValues.Perm p.initialValues := by
  obtain ⟨ids, building, hproject⟩ := h.project
  obtain ⟨name, hname⟩ := Blob.exists_readAs_of_encode hencode
  obtain ⟨blob', operands, hencode', -, hperm, hdecode⟩ :=
    Blob.exists_decode hp hname (Blob.fits_of_encode hencode)
  obtain rfl : blob = blob' := Except.ok.inj (hencode.symm.trans hencode')
  refine ⟨⟨name, p.rekeyed, operands⟩, ?_, hp.rekeyed_of_ownNames hnames, hperm⟩
  have hparser : (w'.project id).parser = Blob.decode := by
    rw [hproject]
    exact hu.parser
  have hblob : (w'.project id).blob = some blob := by rw [hproject]; rfl
  rw [Project.freshProgram, hblob, hparser]
  exact hdecode

end Build

theorem Project.ignoresLog_decoding (id : ProjectId) :
    Action.IgnoresLog fun w => (w.project id).Decoding :=
  fun _ _ _ h => h

def Program.inn : Program where
  name := .text "inn"
  nodes := [(.text "Bar", ⟨.text "Bar", [(.text "tag", .text "night"),
    (.text "tag", .text "rain")]⟩)]
  initialValues := [(.text "$paid", ⟨.text "bool_value", .bool false⟩)]

def Compilation.inn : Compilation :=
  { Compilation.greeting with program := some (.program .inn) }

end Dialogue
