import Mathlib.Data.List.Forall2
import Dialogue.Proofs.Build.Request

/-! The sources that there are become one text, and every declaration becomes one of the compiler's
own. A compile stage that succeeds has called its compiler with the job that comes of this. -/

namespace Dialogue

/-! ## Declarations -/

namespace Declaration

/-- What a declaration becomes: its type is one that there is, and its default is read by the
type. -/
structure Gives (d : Declaration) (a : AdaptedDeclaration) : Prop where
  name : a.name = d.name
  description : a.description = d.description
  type : d.type = .known a.type
  default : match a.type with
    | .string => a.default = d.default
    | .boolean => ∃ text b, d.default = .text text ∧ parseBool text = .ok b ∧ a.default = .bool b
    | .number =>
      ∃ text x, d.default = .text text ∧ parseNumber text = .ok x ∧ a.default = .float x

theorem reading_eq_ok {α : Type} (d : Declaration) (parse : String → Except DefaultFault α)
    (wrap : α → Value) (refusal : String → DefaultFault) (v : Value) :
    (match d.default with
      | .text s => ((parse s).map wrap).mapError fun f => Fault.default (.within d.name f)
      | .scalar (.text t) => .error (.default (.within d.name (refusal t.shown)))
      | _ => .error .noOperation) = .ok v ↔
      ∃ text x, d.default = .text text ∧ parse text = .ok x ∧ v = wrap x := by
  split
  · rename_i text htext
    rw [htext]
    cases hparse : parse text with
    | ok x =>
        constructor
        · exact fun h => ⟨text, x, rfl, hparse, (Except.ok.inj h).symm⟩
        · rintro ⟨text', x', heq, hparse', rfl⟩
          cases heq
          rw [hparse] at hparse'
          rw [Except.ok.inj hparse']
          rfl
    | error f =>
        constructor
        · intro h
          cases h
        · rintro ⟨text', x', heq, hparse', -⟩
          cases heq
          rw [hparse] at hparse'
          cases hparse'
  · rename_i hnone htext
    rw [htext]
    constructor
    · intro h
      cases h
    · rintro ⟨text, x, heq, -⟩
      exact absurd (Scalar.text.inj (Value.scalar.inj heq)) (hnone text)
  · rename_i hnone _
    constructor
    · intro h
      cases h
    · rintro ⟨text, x, htext, -⟩
      exact absurd htext (hnone text)

theorem typedDefault_eq_ok {d : Declaration} {type : VariableType} {v : Value} :
    d.typedDefault type = .ok v ↔
      match type with
      | .string => v = d.default
      | .boolean => ∃ text b, d.default = .text text ∧ parseBool text = .ok b ∧ v = .bool b
      | .number => ∃ text x, d.default = .text text ∧ parseNumber text = .ok x ∧ v = .float x := by
  cases type with
  | string => exact ⟨fun h => (Except.ok.inj h).symm, fun h => congrArg Except.ok h.symm⟩
  | boolean => exact d.reading_eq_ok parseBool Value.bool .notBoolean v
  | number => exact d.reading_eq_ok parseNumber Value.float .notNumber v

theorem adapt_eq_ok {d : Declaration} {a : AdaptedDeclaration} :
    d.adapt = .ok a ↔ d.Gives a := by
  rw [adapt]
  constructor
  · intro h
    cases htype : d.type with
    | unknown value =>
        simp only [htype] at h
        cases h
    | known type =>
        simp only [htype] at h
        cases hdefault : d.typedDefault type with
        | error f =>
            rw [hdefault] at h
            cases h
        | ok v =>
            rw [hdefault] at h
            obtain rfl := Except.ok.inj h
            exact ⟨rfl, rfl, htype, typedDefault_eq_ok.mp hdefault⟩
  · rintro ⟨hname, hdescription, htype, hdefault⟩
    simp only [htype, typedDefault_eq_ok.mpr hdefault, ← hname, ← hdescription]
    rfl

theorem adaptAll_cons (d : Declaration) (ds : List Declaration) :
    adaptAll (d :: ds) = do return (← d.adapt) :: (← adaptAll ds) :=
  List.mapM_cons

theorem adaptAll_eq_ok {ds : List Declaration} {as : List AdaptedDeclaration} :
    adaptAll ds = .ok as ↔ List.Forall₂ Gives ds as := by
  induction ds generalizing as with
  | nil => cases as <;> simp [adaptAll, pure, Except.pure]
  | cons d ds ih =>
      rw [adaptAll_cons]
      constructor
      · intro h
        cases hd : d.adapt with
        | error e =>
            rw [hd] at h
            cases h
        | ok a =>
            cases hds : adaptAll ds with
            | error e =>
                rw [hd, hds] at h
                cases h
            | ok as' =>
                rw [hd, hds] at h
                cases h
                exact .cons (adapt_eq_ok.mp hd) (ih.mp hds)
      · rintro (_ | ⟨hd, hds⟩)
        rw [adapt_eq_ok.mpr hd, ih.mpr hds]
        rfl

end Declaration

namespace Build

open Stage

/-! ## Sources -/

/-- Whether a source is read: it is given, and there is a file. -/
def isPresent (fs : FileSystem) (source : Value) : Bool :=
  !(source matches .null) && fs.existsAt source matches .ok true

def presentSources (fs : FileSystem) (sources : List Value) : List Value :=
  sources.filter (isPresent fs)

/-- The texts of the sources that are read, in a row. -/
def contentOf (fs : FileSystem) (encoding : Value) (sources : List Value) : String :=
  String.join ((presentSources fs sources).map fun source =>
    (fs.readText source encoding).toOption.getD "")

section Sources

variable {encoding source : Value} {sources : List Value}

theorem presentSources_of_absent {fs : FileSystem} (rest : List Value)
    (h : isPresent fs source = false) :
    presentSources fs (source :: rest) = presentSources fs rest :=
  List.filter_cons_of_neg (by simp [h])

theorem presentSources_of_isPresent {fs : FileSystem} (rest : List Value)
    (h : isPresent fs source = true) :
    presentSources fs (source :: rest) = source :: presentSources fs rest :=
  List.filter_cons_of_pos h

theorem isPresent_of_existsAt {fs : FileSystem} {found : Bool} (hgiven : source ≠ .null)
    (h : fs.existsAt source = .ok found) : isPresent fs source = found := by
  unfold isPresent
  rw [h]
  cases found with
  | false => exact Bool.and_false _
  | true =>
      split
      · exact absurd rfl hgiven
      · rfl

theorem sourceOutcome_eq_ok {reading : Except Fault String} {text : String}
    (h : sourceOutcome source reading = .ok (.ok text)) : reading = .ok text := by
  cases reading with
  | ok text' =>
      cases h
      rfl
  | error e =>
      rw [sourceOutcome] at h
      split at h <;> cases h

theorem eq_contentOf_of_exec {text : String} {w w' : World}
    (h : exec (gatherText encoding sources) w = (.ok (.ok text), w')) :
    text = contentOf w.files encoding sources := by
  induction sources generalizing text w' with
  | nil =>
      cases h
      rfl
  | cons source rest ih =>
      simp only [gatherText] at h
      split at h
      · exact ih h
      · rename_i hgiven
        obtain ⟨found, w₁, hfound, h⟩ := exec_bind_eq_ok.mp h
        rw [exec_liftM, Action.exec_existsAt] at hfound
        cases hexists : w.files.existsAt source with
        | error e =>
            rw [hexists] at hfound
            cases hfound
        | ok _ =>
            rw [hexists] at hfound
            cases hfound
            have hpresent := isPresent_of_existsAt hgiven hexists
            cases found with
            | false =>
                rw [contentOf, presentSources_of_absent rest hpresent]
                exact ih h
            | true =>
                obtain ⟨front, w₂, hfront, h⟩ := exec_bind_eq_ok.mp h
                obtain ⟨back, w₃, hback, h⟩ := exec_bind_eq_ok.mp h
                cases h
                rw [exec_sourceText, Prod.mk.injEq] at hfront
                obtain ⟨hread, rfl⟩ := hfront
                rw [contentOf, presentSources_of_isPresent rest hpresent, List.map_cons,
                  String.join_cons, ← contentOf, ← ih hback]
                rw [sourceOutcome_eq_ok hread]
                rfl

end Sources

/-! ## Jobs -/

/-- The job that a project comes to: all its sources in a row, and one declaration for each of its
own. -/
structure IsJob (fs : FileSystem) (encoding : Value) (p : Project) (job : Job) : Prop where
  sourceName : job.sourceName = p.sourceName
  sourceText : job.sourceText = contentOf fs encoding p.sources
  declarations : List.Forall₂ Declaration.Gives p.declarations job.declarations

/-- A compile stage that succeeds has called its compiler once, with the job of the project and in
the world in which it began, and has the bytes of the program that came back. -/
theorem compile_eq_ok {compiler : Compiler} {config : Config} {p : Project} {c : Compilation}
    {blob : Bytes} {w w' : World}
    (h : exec (compile compiler config p) w = (.ok (.ok (c, blob)), w')) :
    ∃ job w₁ output, IsJob w.files config.encoding p job ∧ (compiler job).exec w = (.ok c, w₁) ∧
      w₁.SameStore w' ∧ c.errors = [] ∧ c.program = some output ∧
      output.serialize = .ok blob := by
  obtain ⟨text, ds, w₁, hcompiled, hsame⟩ := compiled_of_exec h
  obtain ⟨output, hprogram, hserialize⟩ := hcompiled.program
  exact ⟨⟨p.sourceName, text, ds⟩, w₁, output,
    ⟨rfl, eq_contentOf_of_exec hcompiled.sources, Declaration.adaptAll_eq_ok.mp hcompiled.adapted⟩,
    hcompiled.called, hsame, hcompiled.errors, hprogram, hserialize⟩

/-- The compile stage of a build begins when the project has been marked. -/
theorem called_of_compiled {compiler : Compiler} {config : Config} {id : ProjectId}
    {c : Compilation} {blob : Bytes} {w u : World}
    (h : exec (compile compiler config ((w.setBuilding id true).project id))
      (w.setBuilding id true) = (.ok (.ok (c, blob)), u)) :
    ∃ job w₁ output, IsJob w.files config.encoding (w.project id) job ∧
      (compiler job).exec (w.setBuilding id true) = (.ok c, w₁) ∧ w₁.SameStore u ∧ c.errors = [] ∧
      c.program = some output ∧ output.serialize = .ok blob := by
  obtain ⟨job, w₁, output, hjob, hcall⟩ := compile_eq_ok h
  obtain ⟨b, hproject⟩ := w.project_setBuilding_eq id true id
  rw [hproject] at hjob
  exact ⟨job, w₁, output, ⟨hjob.sourceName, hjob.sourceText, hjob.declarations⟩, hcall⟩

end Build

end Dialogue
