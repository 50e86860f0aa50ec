import Dialogue.Proofs.Project.Json
import Dialogue.Proofs.World.Sound

/-! A project of the world is written as JSON, and added again from the text, to the same world or
to another one. The new project is what is persisted of the old one, with a base at the same place
of its list. -/

namespace Dialogue

def World.projectJson (w : World) (p : Project) : Except Fault String := do
  (← Draft.ofProject w p).toJson

def restoreJson (text : String) (path : Value) : Action ProjectId := do
  (← Action.ofExcept (Draft.ofJson text path)).install

/-- A project with a base localization whose fields, and those of its localizations, are of their
types. -/
structure World.HasTyped (w : World) (p : Project) : Prop where
  project : p.WellTyped
  base : ∃ base, p.base = some base ∧ (w.localization base).WellTyped
  localizations : ∀ k ∈ p.localizations, (w.localization k).WellTyped

/-! ## Drafts of projects -/

/-- What a project of the world is described as. -/
def World.draft (w : World) (p : Project) (base : LocalizationId) : Draft where
  project := p
  localizations := p.localizations.map w.localization
  base := match p.localizations.idxOf? base with
    | some place => .listed place
    | none => .own (w.localization base)

section Drafts

variable {w : World} {p : Project} {base : LocalizationId}

theorem ofProject_of_base (h : p.base = some base) :
    Draft.ofProject w p = .ok (w.draft p base) := by
  rw [Draft.ofProject, h]
  rfl

theorem place_lt {place : Nat} (h : p.localizations.idxOf? base = some place) :
    place < p.localizations.length := by
  obtain ⟨hlt, -⟩ := List.idxOf?_eq_some_iff.mp h
  exact hlt

theorem World.HasTyped.draft (h : w.HasTyped p) (hbase : p.base = some base) :
    (w.draft p base).WellTyped where
  project := h.project
  localizations := List.forall_mem_map.mpr h.localizations
  base := by
    obtain ⟨base', hbase', htyped⟩ := h.base
    obtain rfl : base = base' := Option.some.inj (hbase.symm.trans hbase')
    simp only [World.draft]
    cases hplace : p.localizations.idxOf? base with
    | none => exact htyped
    | some place => simpa [BaseRef.WellTyped] using place_lt hplace

end Drafts

/-! ## The project that is added -/

section Added

variable {w w₀ : World} {path : Value} {d d' : Draft}

/-- The base of what is persisted is there, and stands in its list if it is said to. -/
theorem Draft.StoredAs.base_present (h : d.StoredAs path d') (typed : d.WellTyped) :
    d'.base ≠ .absent ∧ ∀ place, d'.base = .listed place → place < d'.localizations.length := by
  have hstored := h.base
  have htyped := typed.base
  rw [h.localizations.length_eq] at htyped
  cases hbase : d.base with
  | absent =>
      rw [hbase] at htyped
      exact htyped.elim
  | _ => cases hbase' : d'.base <;> simp_all [BaseRef.StoredAs, BaseRef.WellTyped]

/-- What is persisted of the project that was added for a draft is what the draft holds. -/
theorem Draft.StoredAs.document_installed (h : d.StoredAs path d') (w₀ : World)
    (typed : d.WellTyped) :
    (d'.installed w₀).projectDocument (d'.installedProject w₀.localizations.size) = d'.toValue ∧
      (d'.installed w₀).projectJson (d'.installedProject w₀.localizations.size) = d'.toJson := by
  obtain ⟨hpresent, hplace⟩ := h.base_present typed
  have hdraft := Draft.ofProject_installed hpresent hplace w₀
  rw [World.projectDocument, World.projectJson, hdraft]
  exact ⟨rfl, rfl⟩

theorem Draft.StoredAs.toJson (h : d.StoredAs path d') (typed : d.WellTyped) :
    d'.toJson = d.toJson := by
  obtain ⟨v, v', hv, hv', hsame⟩ := h.sameDocument.interchangeable typed
  have hrender : Json.render v' = Json.render v := congrArg (Except.map String.ofList) hsame.write
  rw [Draft.toJson, Draft.toJson, hv, hv']
  exact congrArg (Except.mapError _) hrender

/-- Neither runtime texts nor assets nor listeners are persisted. -/
theorem Localization.StoredAs.bare {l l' : Localization} (h : l.StoredAs l') :
    l'.runtime = [] ∧ l'.assets = [] := by
  obtain ⟨texts, -, rfl⟩ := h
  exact ⟨rfl, rfl⟩

theorem Draft.StoredAs.bare_of_mem (h : d.StoredAs path d') {l : Localization}
    (hl : l ∈ d'.localizations) : l.runtime = [] ∧ l.assets = [] := by
  obtain ⟨_, -, hstored⟩ := Value.exists_mem_of_forall₂ h.localizations hl
  exact hstored.bare

theorem Draft.StoredAs.bare_installed (h : d.StoredAs path d') (typed : d.WellTyped)
    {k : LocalizationId}
    (hk : (d'.installedProject w₀.localizations.size).base = some k ∨
      k ∈ (d'.installedProject w₀.localizations.size).localizations) :
    ((d'.installed w₀).localization k).runtime = [] ∧
      ((d'.installed w₀).localization k).assets = [] := by
  obtain ⟨hpresent, hplace⟩ := h.base_present typed
  have hlisted : ∀ i < d'.localizations.length,
      ((d'.installed w₀).localization (w₀.localizations.size + i)).runtime = [] ∧
        ((d'.installed w₀).localization (w₀.localizations.size + i)).assets = [] := by
    intro i hi
    rw [Draft.localization_installed hi]
    exact h.bare_of_mem (List.getElem_mem hi)
  rcases hk with hk | hk
  · obtain rfl : d'.baseNumber w₀.localizations.size = k := Option.some.inj hk
    cases hbase' : d'.base with
    | listed place =>
        rw [Draft.baseNumber, hbase']
        exact hlisted place (hplace place hbase')
    | own l' =>
        have hown := Draft.localization_ownBase (w := w₀) (show d'.ownBase = some l' by
          rw [Draft.ownBase, hbase'])
        have hstored := h.base
        rw [Draft.baseNumber, hbase', hown]
        cases hbase : d.base with
        | own l =>
            rw [hbase, hbase'] at hstored
            exact Localization.StoredAs.bare hstored
        | _ =>
            rw [hbase, hbase'] at hstored
            exact hstored.elim
    | absent => exact absurd hbase' hpresent
  · simp only [Draft.installedProject, List.mem_map, List.mem_range] at hk
    obtain ⟨i, hi, rfl⟩ := hk
    exact hlisted i hi

/-- The new base stands in its list where the draft says that it does, and nowhere else. -/
theorem getElem?_eq_base_iff
    (hplace : ∀ place, d.base = .listed place → place < d.localizations.length) (first i : Nat) :
    (d.installedProject first).localizations[i]? = (d.installedProject first).base ↔
      d.base = .listed i := by
  have hbase : (d.installedProject first).base = some (d.baseNumber first) := rfl
  have hnumber : (d.installedProject first).localizations[i]? = some (d.baseNumber first) ↔
      i < d.localizations.length ∧ first + i = d.baseNumber first := by
    simp [Draft.installedProject, List.getElem?_eq_some_iff]
  rw [hbase, hnumber]
  cases h : d.base with
  | listed place =>
      have hlt := hplace place h
      rw [Draft.baseNumber, h, BaseRef.listed.injEq]
      simp only
      omega
  | _ => simp [Draft.baseNumber, h]; omega

theorem Draft.StoredAs.listed_iff (h : d.StoredAs path d') (i : Nat) :
    d'.base = .listed i ↔ d.base = .listed i := by
  have hstored := h.base
  cases hbase : d.base <;> cases hbase' : d'.base <;> rw [hbase, hbase'] at hstored <;>
    simp_all [BaseRef.StoredAs]

end Added

theorem draft_base_iff {w : World} {p : Project} {base : LocalizationId} (i : Nat) :
    (w.draft p base).base = .listed i ↔
      p.localizations[i]? = some base ∧ ∀ j < i, p.localizations[j]? ≠ some base := by
  have hlisted : (w.draft p base).base = .listed i ↔ p.localizations.idxOf? base = some i := by
    simp only [World.draft]
    cases p.localizations.idxOf? base <;> simp
  rw [hlisted, List.idxOf?_eq_some_iff]
  constructor
  · rintro ⟨hlt, hget, hbefore⟩
    refine ⟨by rw [List.getElem?_eq_getElem hlt, hget], fun j hj heq => hbefore j hj ?_⟩
    rw [List.getElem?_eq_getElem (by omega)] at heq
    exact Option.some.inj heq
  · rintro ⟨hget, hbefore⟩
    obtain ⟨hlt, hget⟩ := List.getElem?_eq_some_iff.mp hget
    refine ⟨hlt, hget, fun j hj heq => hbefore j hj ?_⟩
    rw [List.getElem?_eq_getElem (by omega), heq]

/-! ## The round trip -/

/-- The second project is, under a path, what is persisted of the first. -/
structure RestoredFrom (w : World) (p : Project) (path : Value) (w' : World) (q : Project) :
    Prop where
  path : q.path = path
  document : ∃ v v', w.projectDocument p = .ok v ∧ w'.projectDocument q = .ok v' ∧ v'.same v = true
  json : w'.projectJson q = w.projectJson p
  blob : q.blob = p.blob
  /-- The base stands in the list where the base before stood first. -/
  base : ∀ i : Nat, q.localizations[i]? = q.base ↔
    p.localizations[i]? = p.base ∧ ∀ j < i, p.localizations[j]? ≠ p.base
  /-- A base that stood outside the list stands outside of it. -/
  detached : ∀ base ∈ p.base, base ∉ p.localizations → ∃ base' ∈ q.base, base' ∉ q.localizations
  bare : ∀ k, q.base = some k ∨ k ∈ q.localizations →
    (w'.localization k).runtime = [] ∧ (w'.localization k).assets = []

/-- A typed project can be written as JSON, and what is read of the text is added to any world. -/
theorem World.HasTyped.exists_stored {w : World} {p : Project} {base : LocalizationId}
    (h : w.HasTyped p) (hbase : p.base = some base) (path : Value) (w₀ : World) :
    ∃ text d', w.projectJson p = .ok text ∧ (w.draft p base).StoredAs path d' ∧
      Action.exec (restoreJson text path) w₀ = (.ok w₀.projects.size, d'.installed w₀) := by
  obtain ⟨text, d', htext, hread, hstored⟩ := (h.draft hbase).exists_ofJson path
  refine ⟨text, d', ?_, hstored, ?_⟩
  · rw [World.projectJson, ofProject_of_base hbase]
    exact htext
  · rw [restoreJson, hread, Action.exec_bind_of_ok (Action.exec_ofExcept ..), Draft.exec_install]

/-- A typed project can be written as JSON, and is restored from the text, whatever world it is
added to. -/
theorem exists_restoredFrom_json {w : World} {p : Project} (h : w.HasTyped p) (path : Value)
    (w₀ : World) :
    ∃ text id w', w.projectJson p = .ok text ∧
      Action.exec (restoreJson text path) w₀ = (.ok id, w') ∧
      RestoredFrom w p path w' (w'.project id) := by
  obtain ⟨base, hbase, -⟩ := h.base
  have typed := h.draft hbase
  obtain ⟨text, d', htext, hstored, hrestore⟩ := h.exists_stored hbase path w₀
  obtain ⟨-, hplace⟩ := hstored.base_present typed
  obtain ⟨hdocument, hjson⟩ := hstored.document_installed w₀ typed
  obtain ⟨v, v', hv, hv', hsame⟩ := hstored.sameDocument.interchangeable typed
  have hwritten : w.projectJson p = (w.draft p base).toJson := by
    rw [World.projectJson, ofProject_of_base hbase]
    rfl
  have hlisted : ∀ i : Nat, (d'.installedProject w₀.localizations.size).localizations[i]? =
      (d'.installedProject w₀.localizations.size).base ↔
        p.localizations[i]? = p.base ∧ ∀ j < i, p.localizations[j]? ≠ p.base := by
    intro i
    rw [getElem?_eq_base_iff hplace, hstored.listed_iff, draft_base_iff, hbase]
  refine ⟨text, w₀.projects.size, d'.installed w₀, htext, hrestore, ?_⟩
  rw [Draft.project_installed]
  constructor
  case path =>
    have hproject := congrArg Project.path hstored.project
    rw [Project.stored_eq] at hproject
    exact hproject
  case document =>
    refine ⟨v, v', ?_, hdocument.trans hv', hsame.same⟩
    rw [World.projectDocument, ofProject_of_base hbase]
    exact hv
  case json => rw [hjson, hstored.toJson typed, hwritten]
  case blob =>
    have hproject := congrArg Project.blob hstored.project
    rw [Project.stored_eq] at hproject
    exact hproject
  case base => exact hlisted
  case detached =>
    intro base' hbase' hnew
    obtain rfl : base = base' := Option.some.inj (hbase.symm.trans hbase')
    refine ⟨d'.baseNumber w₀.localizations.size, rfl, fun hmem => ?_⟩
    obtain ⟨i, hi⟩ := List.getElem?_of_mem hmem
    obtain ⟨hget, -⟩ := (hlisted i).mp hi
    rw [hbase] at hget
    exact hnew (List.mem_of_getElem? hget)
  case bare => exact fun k hk => hstored.bare_installed typed hk

/-! ## A project of two languages -/

def Localization.greetings : Localization where
  localeCode := .text "en"
  texts := [(.text "line:2", .text "Bye"), (.text "line:1", .text "Hello \"you\"")]
  runtime := [(.text "line:9", .text "Hm")]

theorem Localization.wellTyped_greetings : greetings.WellTyped where
  localeCode := ⟨_, rfl⟩
  stringFile := .inl rfl
  containsAssets := ⟨_, rfl⟩
  addressableAssets := ⟨_, rfl⟩
  textual := by simp [greetings, Table.Textual, Scalar.Named, Scalar.name]
  distinct := by simp [greetings, Table.Distinct, Scalar.sameKey_text]
  texts := by simp [greetings, Value.IsText]

def Localization.german : Localization where
  localeCode := .text "de"
  stringFile := .text "de.csv"
  containsAssets := .bool true

theorem Localization.wellTyped_german : german.WellTyped where
  localeCode := ⟨_, rfl⟩
  stringFile := .inr ⟨_, rfl⟩
  containsAssets := ⟨_, rfl⟩
  addressableAssets := ⟨_, rfl⟩
  textual := by simp [german, Table.Textual, Scalar.Named]
  distinct := List.Pairwise.nil
  texts := by simp [german]

/-- A project with its base at the second place and at the fourth. -/
def Project.archived : Project where
  name := .text "intro"
  path := .text "intro.yaml"
  sources := [.text "main", .null]
  declarations := [{ name := .text "$gold", type := .known .number, default := .text "5" }]
  base := some 0
  localizations := [1, 0, 1, 0]
  blob := some [0, 255, 10]

theorem Project.wellTyped_archived : archived.WellTyped where
  name := ⟨_, rfl⟩
  sources := by simp [archived, Value.IsOptionalText, Value.IsText]
  declarations := by
    rw [archived, List.forall_mem_singleton]
    exact ⟨⟨_, rfl⟩, ⟨_, rfl⟩, ⟨_, rfl⟩, .inl rfl⟩
  baseLanguage := ⟨_, rfl⟩
  searchAssemblies := by simp [archived]

def World.archived : World where
  localizations := #[.greetings, .german]
  projects := #[.archived]

theorem World.hasTyped_archived : archived.HasTyped .archived where
  project := Project.wellTyped_archived
  base := ⟨0, rfl, Localization.wellTyped_greetings⟩
  localizations := by
    intro k hk
    simp only [Project.archived, List.mem_cons, List.not_mem_nil, or_false] at hk
    obtain rfl | rfl | rfl | rfl := hk
    · exact Localization.wellTyped_german
    · exact Localization.wellTyped_greetings
    · exact Localization.wellTyped_german
    · exact Localization.wellTyped_greetings

theorem exists_restoredFrom_archived :
    World.archived.HasTyped .archived ∧ ∃ text id w',
      World.archived.projectJson .archived = .ok text ∧
      Action.exec (restoreJson text (.text "copy.yaml")) World.archived = (.ok id, w') ∧
      RestoredFrom World.archived .archived (.text "copy.yaml") w' (w'.project id) :=
  ⟨World.hasTyped_archived,
    exists_restoredFrom_json World.hasTyped_archived (.text "copy.yaml") World.archived⟩

end Dialogue
