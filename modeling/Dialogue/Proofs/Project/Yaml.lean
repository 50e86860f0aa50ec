import Dialogue.Proofs.Project.Json
import Dialogue.Proofs.Yaml.Numerals

/-! The YAML text of a typed project is read as what is persisted of the project, with the lines of
every table in the order that they had. It takes that the texts are kept: no next line character
stands between single quotes, and no line id is so long in its spelling that its colon is not
found. -/

namespace Dialogue

open Yaml (KeyKept ScalarKept Storable keyReach scalarKept_bool scalarKept_natCast scalarKept_null
  scalarKept_text spelled)

variable {depth : Nat}

/-! ## What is kept -/

/-- A value that is kept if it is a text. -/
def Value.Kept (v : Value) : Prop :=
  ∀ s, v = .text s → Yaml.Kept s.toList

theorem Value.kept_text {s : String} (h : Yaml.Kept s.toList) : (Value.text s).Kept := by
  rintro t ht
  cases ht
  exact h

theorem Value.kept_null : Value.null.Kept := by
  rintro t ht
  cases ht

structure Declaration.Kept (d : Declaration) : Prop where
  name : d.name.Kept
  default : d.default.Kept
  description : d.description.Kept

structure Localization.Kept (l : Localization) : Prop where
  localeCode : l.localeCode.Kept
  stringFile : l.stringFile.Kept
  ids : ∀ e ∈ l.texts, ∃ id, KeyKept e.1 id
  texts : ∀ e ∈ l.texts, e.2.Kept

structure Project.Kept (p : Project) : Prop where
  name : p.name.Kept
  sources : ∀ v ∈ p.sources, v.Kept
  declarations : ∀ d ∈ p.declarations, d.Kept
  baseLanguage : p.baseLanguage.Kept
  searchAssemblies : ∀ v ∈ p.searchAssemblies, v.Kept

/-- A base of the list is kept with the list. -/
def BaseRef.Kept : BaseRef → Prop
  | .own l => l.Kept
  | .listed _ | .absent => True

structure Draft.Kept (d : Draft) : Prop where
  project : d.project.Kept
  localizations : ∀ l ∈ d.localizations, l.Kept
  base : d.base.Kept

/-! ## Fields -/

theorem Value.IsText.storable {v : Value} (h : v.IsText) (hkept : v.Kept) : Storable depth v := by
  obtain ⟨s, rfl⟩ := h
  exact .scalar (scalarKept_text (hkept s rfl))

theorem Value.IsOptionalText.storable {v : Value} (h : v.IsOptionalText) (hkept : v.Kept) :
    Storable depth v := by
  obtain rfl | h := h
  · exact .scalar scalarKept_null
  · exact h.storable hkept

theorem Value.IsFlag.storable {v : Value} (h : v.IsFlag) : Storable depth v := by
  obtain ⟨b, rfl⟩ := h
  exact .scalar (scalarKept_bool b)

theorem kept_ascii {text : List Char} (h : Text.Ascii text) : Yaml.Kept text :=
  fun hnext => absurd (h '\x85' hnext) (by decide)

theorem kept_blob (blob : Option Bytes) :
    Value.Kept (match blob with
      | some blob => .text (String.ofList (Text.Base64.encode blob))
      | none => .null) := by
  intro s hs
  cases blob with
  | none => cases hs
  | some blob =>
      obtain rfl : String.ofList (Text.Base64.encode blob) = s := by injections
      rw [String.toList_ofList]
      exact kept_ascii (Text.Base64.ascii_encode blob)

def fieldNames : List String :=
  ["name", "type", "default_value", "description", "locale_code", "string_file",
    "contains_localized_asset", "uses_addressable_assets", "string_table", "source_scripts",
    "declarations", "base_language", "base_localization", "localizations",
    "search_assemblies_for_actions", "compiled_program"]

theorem keyKept_of_mem {name : String} (h : name ∈ fieldNames) :
    KeyKept (.text name) name.toList := by
  have hnames : ∀ name ∈ fieldNames, '\x85' ∉ name.toList ∧
      (spelled .text name.toList).length ≤ keyReach := by decide
  obtain ⟨hnext, hreach⟩ := hnames name h
  exact ⟨rfl, fun hmem => absurd hmem hnext, fun _ => hreach⟩

theorem storable_named {fields : List (String × Value)} (nodup : (fields.map Prod.fst).Nodup)
    (hnames : fields.map Prod.fst ⊆ fieldNames) (h : ∀ f ∈ fields, Storable depth f.2) :
    Storable (depth + 1) (.mapping (Table.named fields)) := by
  refine .mapping (Table.distinct_named nodup) ?_ ?_
  · exact List.forall_mem_map.mpr fun f hf =>
      ⟨_, keyKept_of_mem (hnames (List.mem_map_of_mem hf))⟩
  · exact List.forall_mem_map.mpr h

/-! ## Parts of projects -/

theorem Declaration.WellTyped.exists_storable {d : Declaration} (h : d.WellTyped) (hkept : d.Kept) :
    ∃ v, d.toValue = .ok v ∧ Storable (depth + 1) v ∧ ofValue v = .ok d := by
  obtain ⟨type, htype⟩ := h.type
  refine ⟨_, toValue_of_known htype, storable_named (d.nodup_fields type)
    (by simp [fields, fieldNames]) ?_,
    ofValue_of_perm htype (.refl _)⟩
  simp only [fields, List.forall_mem_cons, List.not_mem_nil, false_implies, implies_true, and_true]
  have htag : Yaml.Kept type.tag.toList := fun hnext => absurd hnext (by cases type <;> decide)
  exact ⟨h.name.storable hkept.name, .scalar (scalarKept_text htag),
    h.default.storable hkept.default, h.description.storable hkept.description⟩

theorem exists_storable_declarations {ds : List Declaration} (h : ∀ d ∈ ds, d.WellTyped)
    (hkept : ∀ d ∈ ds, d.Kept) :
    ∃ vs, ds.mapM Declaration.toValue = .ok vs ∧ (∀ v ∈ vs, Storable (depth + 1) v) ∧
      vs.mapM Declaration.ofValue = .ok ds := by
  induction ds with
  | nil => exact ⟨[], rfl, by simp, rfl⟩
  | cons d ds ih =>
      obtain ⟨hd, hds⟩ := List.forall_mem_cons.mp h
      obtain ⟨hdkept, hdskept⟩ := List.forall_mem_cons.mp hkept
      obtain ⟨v, hv, hstorable, hofValue⟩ := hd.exists_storable hdkept
      obtain ⟨vs, hvs, hall, hofValues⟩ := ih hds hdskept
      refine ⟨v :: vs, ?_, List.forall_mem_cons.mpr ⟨hstorable, hall⟩, ?_⟩
      · rw [List.mapM_cons, hv, hvs]
        rfl
      · rw [List.mapM_cons, hofValue, hofValues]
        rfl

namespace Localization

variable {l : Localization}

theorem WellTyped.storable (h : l.WellTyped) (hkept : l.Kept) : Storable (depth + 2) l.toValue := by
  rw [toValue_eq]
  refine storable_named (l.nodup_fields _) (by simp [fields, fieldNames]) ?_
  simp only [fields, List.forall_mem_cons, List.not_mem_nil, false_implies, implies_true, and_true]
  exact ⟨h.localeCode.storable hkept.localeCode, h.stringFile.storable hkept.stringFile,
    h.containsAssets.storable, h.addressableAssets.storable,
    .mapping h.distinct hkept.ids fun e he => (h.texts e he).storable (hkept.texts e he)⟩

theorem WellTyped.ofValue_toValue (h : l.WellTyped) : ofValue l.toValue = .ok (l.stored l.texts) :=
  ofValue_of_perm h.distinct (.refl _)

theorem mapM_ofValue {ls : List Localization} (h : ∀ l ∈ ls, l.WellTyped) :
    (ls.map toValue).mapM ofValue = .ok (ls.map fun l => l.stored l.texts) := by
  induction ls with
  | nil => rfl
  | cons l ls ih =>
      obtain ⟨hl, hls⟩ := List.forall_mem_cons.mp h
      rw [List.map_cons, List.mapM_cons, hl.ofValue_toValue, ih hls]
      rfl

end Localization

namespace BaseRef

def stored : BaseRef → BaseRef
  | .listed place => .listed place
  | .own l => .own (l.stored l.texts)
  | .absent => .absent

variable {base : BaseRef} {length : Nat}

theorem WellTyped.storable (h : base.WellTyped length) (hkept : base.Kept) (baseLanguage : Value) :
    Storable (depth + 2) (base.toValue baseLanguage) := by
  cases base with
  | listed place => exact .scalar (scalarKept_natCast place)
  | own l => exact Localization.WellTyped.storable h hkept
  | absent => exact h.elim

theorem WellTyped.ofValue_toValue {read : List Localization} (h : base.WellTyped read.length)
    (baseLanguage : Value) :
    Draft.baseOfValue read (base.toValue baseLanguage) = .ok base.stored := by
  cases base with
  | listed place =>
      change Draft.baseOfValue read (.int place) = _
      simp only [Draft.baseOfValue, Value.int?, placeIn?_of_lt h, stored]
  | own l =>
      have hofValue := Localization.WellTyped.ofValue_toValue h
      rw [Localization.toValue_eq] at hofValue
      rw [toValue, Localization.toValue_eq]
      simp only [Draft.baseOfValue, Value.int?, hofValue]
      rfl
  | absent => exact h.elim

end BaseRef

/-! ## Drafts -/

namespace Draft

def stored (d : Draft) (path : Value) : Draft where
  project := d.project.stored path
  localizations := d.localizations.map fun l => l.stored l.texts
  base := d.base.stored

variable {d : Draft}

theorem toValue_stored (d : Draft) (path : Value) : (d.stored path).toValue = d.toValue := by
  have hlocalizations : (d.stored path).localizations.map Localization.toValue =
      d.localizations.map Localization.toValue := by
    simp [stored, Localization.toValue_eq, Localization.fields, Localization.stored]
  have hbase : (d.stored path).base.toValue (d.stored path).project.baseLanguage =
      d.base.toValue d.project.baseLanguage := by
    simp only [stored, Project.stored_eq]
    cases d.base <;> rfl
  have hproject : (d.stored path).project.stored path = d.project.stored path :=
    d.project.stored_stored path path
  have hdeclarations := Project.declarations_of_stored hproject
  cases hvs : d.project.declarations.mapM Declaration.toValue with
  | ok vs =>
      rw [toValue_eq_ok hvs, toValue_eq_ok (by rw [hdeclarations, hvs]), fields_of_stored hproject,
        hlocalizations, hbase]
  | error e =>
      rw [toValue, toValue, hdeclarations, hvs]
      rfl

theorem WellTyped.base_ne_absent (h : d.WellTyped) : d.base ≠ .absent := by
  intro habsent
  have hbase := h.base
  rwa [habsent] at hbase

theorem storedAs_stored (hpresent : d.base ≠ .absent) (path : Value) :
    d.StoredAs path (d.stored path) where
  project := rfl
  localizations := List.forall₂_map_right_iff.mpr
    (List.forall₂_same.mpr fun l _ => ⟨l.texts, .refl _, rfl⟩)
  base := by
    simp only [stored]
    cases hbase : d.base with
    | listed place => rfl
    | own l => exact ⟨l.texts, .refl _, rfl⟩
    | absent => exact absurd hbase hpresent

/-- The YAML text of a typed project whose texts are kept is read as what is persisted of it. -/
theorem WellTyped.exists_ofYaml (h : d.WellTyped) (hkept : d.Kept) (path : Value) :
    ∃ text, d.toYaml = .ok text ∧ Yaml.Printed text.toList ∧
      ofYaml text path = .ok (d.stored path) := by
  obtain ⟨vs, hvs, hdeclarations, hvs'⟩ :=
    @exists_storable_declarations 1 _ h.project.declarations hkept.project.declarations
  have hp := h.project
  have hpkept := hkept.project
  have hstorable : Storable 4 (.mapping (Table.named (d.fields vs
      (d.base.toValue d.project.baseLanguage) (d.localizations.map Localization.toValue)))) := by
    refine storable_named (d.nodup_fields _ _ _) (by simp [fields, fieldNames]) ?_
    simp only [fields, List.forall_mem_cons, List.not_mem_nil, false_implies, implies_true,
      and_true]
    exact ⟨hp.name.storable hpkept.name,
      .list fun v hv => (hp.sources v hv).storable (hpkept.sources v hv),
      .list hdeclarations,
      hp.baseLanguage.storable hpkept.baseLanguage,
      h.base.storable hkept.base _,
      .list (List.forall_mem_map.mpr fun l hl =>
        (h.localizations l hl).storable (hkept.localizations l hl)),
      .list fun v hv => (hp.searchAssemblies v hv).storable (hpkept.searchAssemblies v hv),
      (isOptionalText_blob d.project.blob).storable (kept_blob d.project.blob)⟩
  obtain ⟨text, hrender, hprinted, hparse⟩ := Yaml.exists_parse_render hstorable (by decide)
  refine ⟨text, ?_, hprinted, ?_⟩
  · rw [toYaml, toValue_eq_ok hvs]
    exact hrender
  · have hbase := h.base
    have hlength : d.localizations.length =
        (d.localizations.map fun l => l.stored l.texts).length := by rw [List.length_map]
    rw [hlength] at hbase
    rw [ofYaml, hparse]
    exact ofValue_of_perm hvs' (Localization.mapM_ofValue h.localizations)
      (hbase.ofValue_toValue d.project.baseLanguage) (.refl _) path

end Draft

end Dialogue
