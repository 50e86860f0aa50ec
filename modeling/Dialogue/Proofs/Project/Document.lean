import Dialogue.Document
import Dialogue.Proofs.Program.Equality
import Dialogue.Proofs.Text.Base64
import Dialogue.Proofs.World.Store

/-! Which projects are typed, and what is read of the document of one, in whatever order the members
of its mappings stand: the project again without runtime texts, assets and listeners, and with the
texts of its tables in the order in which they were read. -/

namespace Dialogue

/-! ## Fields -/

namespace Table

variable {α : Type}

def named (fields : List (String × α)) : Table α :=
  fields.map fun f => (.text f.1, f.2)

variable {fields : List (String × α)} {members : Table α}

theorem textual_named : (named fields).Textual := by
  intro e he
  obtain ⟨f, -, rfl⟩ := List.mem_map.mp he
  rfl

theorem distinct_named (h : (fields.map Prod.fst).Nodup) : (named fields).Distinct := by
  rw [named, Distinct, List.pairwise_map]
  refine (List.pairwise_map.mp h).imp fun hne => ?_
  rw [Scalar.sameKey_text]
  exact decide_eq_false hne

theorem lookup_named (fields : List (String × α)) (name : String) :
    lookup (named fields) (.text name) = fields.lookup name := by
  induction fields with
  | nil => rfl
  | cons f fields ih =>
      obtain ⟨key, v⟩ := f
      rw [named, List.map_cons, lookup_cons, Scalar.sameKey_text, List.lookup_cons]
      by_cases hkey : key = name
      · simp [hkey]
      · have hkey' : (name == key) = false := by simpa using Ne.symm hkey
        rw [decide_eq_false hkey, hkey']
        exact ih

/-- In whatever order they stand, fields are found. -/
theorem lookup_of_perm (h : (fields.map Prod.fst).Nodup) (hperm : members.Perm (named fields))
    (name : String) {v : α} (hfield : fields.lookup name = some v) :
    lookup members (.text name) = some v := by
  rw [(distinct_named h).lookup_perm hperm, lookup_named, hfield]

end Table

theorem Value.index_of_lookup {members : Table Value} {name : String} {v : Value}
    (h : Table.lookup members (.text name) = some v) :
      Value.index (.mapping members) name = .ok v := by
  rw [Value.index, h]

/-! ## Typed projects -/

namespace Value

def IsText (v : Value) : Prop :=
  ∃ s, v = .text s

def IsOptionalText (v : Value) : Prop :=
  v = .null ∨ v.IsText

def IsFlag (v : Value) : Prop :=
  ∃ b, v = .bool b

end Value

/-- A declaration of a known type, with texts for its name and its default. -/
structure Declaration.WellTyped (d : Declaration) : Prop where
  name : d.name.IsText
  type : ∃ type, d.type = .known type
  default : d.default.IsText
  description : d.description.IsOptionalText

/-- A localization whose fields are texts and flags, and whose table has texts under texts, each key
once. -/
structure Localization.WellTyped (l : Localization) : Prop where
  localeCode : l.localeCode.IsText
  stringFile : l.stringFile.IsOptionalText
  containsAssets : l.containsAssets.IsFlag
  addressableAssets : l.addressableAssets.IsFlag
  textual : l.texts.Textual
  distinct : l.texts.Distinct
  texts : ∀ e ∈ l.texts, e.2.IsText

/-- A project whose fields are texts, with null for a source that is left out. -/
structure Project.WellTyped (p : Project) : Prop where
  name : p.name.IsText
  sources : ∀ v ∈ p.sources, v.IsOptionalText
  declarations : ∀ d ∈ p.declarations, d.WellTyped
  baseLanguage : p.baseLanguage.IsText
  searchAssemblies : ∀ v ∈ p.searchAssemblies, v.IsText

/-- A base that stands in a list of a certain length, or is a typed localization of its own. -/
def BaseRef.WellTyped (length : Nat) : BaseRef → Prop
  | .listed place => place < length
  | .own l => l.WellTyped
  | .absent => False

structure Draft.WellTyped (d : Draft) : Prop where
  project : d.project.WellTyped
  localizations : ∀ l ∈ d.localizations, l.WellTyped
  base : d.base.WellTyped d.localizations.length

/-! ## Declarations -/

namespace Declaration

def fields (d : Declaration) (type : VariableType) : List (String × Value) :=
  [("name", d.name), ("type", .text type.tag), ("default_value", d.default),
    ("description", d.description)]

variable {d : Declaration} {type : VariableType}

theorem nodup_fields (d : Declaration) (type : VariableType) :
    ((d.fields type).map Prod.fst).Nodup := by
  simp [fields]

theorem toValue_of_known (h : d.type = .known type) :
    d.toValue = .ok (.mapping (Table.named (d.fields type))) := by
  rw [toValue, h]
  rfl

theorem ofValue_of_perm (h : d.type = .known type) {members : Table Value}
    (hperm : members.Perm (Table.named (d.fields type))) : ofValue (.mapping members) = .ok d := by
  have hlookup {name : String} {v : Value} :=
    Table.lookup_of_perm (d.nodup_fields type) hperm name (v := v)
  have htype : typeOfValue (.text type.tag) = .ok type := by
    simp [typeOfValue, Value.text?, VariableType.ofTag?_tag]
  refine bind_eq_ok.mpr ⟨d.name, Value.index_of_lookup (hlookup rfl), ?_⟩
  refine bind_eq_ok.mpr ⟨.text type.tag, Value.index_of_lookup (hlookup rfl), ?_⟩
  refine bind_eq_ok.mpr ⟨type, htype, ?_⟩
  refine bind_eq_ok.mpr ⟨d.default, getD_of_lookup (hlookup rfl) _, ?_⟩
  refine bind_eq_ok.mpr ⟨d.description, getD_of_lookup (hlookup rfl) _, ?_⟩
  rw [← h]
  rfl

end Declaration

/-! ## Localizations -/

namespace Localization

def fields (l : Localization) (texts : Table Value) : List (String × Value) :=
  [("locale_code", l.localeCode), ("string_file", l.stringFile),
    ("contains_localized_asset", l.containsAssets),
      ("uses_addressable_assets", l.addressableAssets),
    ("string_table", .mapping texts)]

/-- What is persisted of a localization, with its texts as they are given. -/
def stored (l : Localization) (texts : Table Value) : Localization where
  localeCode := l.localeCode
  stringFile := l.stringFile
  containsAssets := l.containsAssets
  addressableAssets := l.addressableAssets
  texts := texts

/-- The second is what is persisted of the first, with the texts in some order. -/
def StoredAs (l l' : Localization) : Prop :=
  ∃ texts, texts.Perm l.texts ∧ l' = l.stored texts

variable {l l' : Localization} {texts : Table Value}

theorem nodup_fields (l : Localization) (texts : Table Value) :
    ((l.fields texts).map Prod.fst).Nodup := by
  simp [fields]

theorem toValue_eq (l : Localization) : l.toValue = .mapping (Table.named (l.fields l.texts)) := rfl

theorem ofValue_of_perm (hdistinct : texts.Distinct) {members : Table Value}
    (hperm : members.Perm (Table.named (l.fields texts))) :
    ofValue (.mapping members) = .ok (l.stored texts) := by
  have hlookup {name : String} {v : Value} :=
    Table.lookup_of_perm (l.nodup_fields texts) hperm name (v := v)
  have htexts := Table.ofEntries_of_distinct hdistinct
  refine bind_eq_ok.mpr ⟨l.localeCode, getD_of_lookup (hlookup rfl) _, ?_⟩
  refine bind_eq_ok.mpr ⟨l.stringFile, getD_of_lookup (hlookup rfl) _, ?_⟩
  refine bind_eq_ok.mpr ⟨l.containsAssets, getD_of_lookup (hlookup rfl) _, ?_⟩
  refine bind_eq_ok.mpr ⟨l.addressableAssets, getD_of_lookup (hlookup rfl) _, ?_⟩
  refine bind_eq_ok.mpr ⟨.mapping texts, getD_of_lookup (hlookup rfl) _, ?_⟩
  refine bind_eq_ok.mpr ⟨texts, rfl, ?_⟩
  rw [foldl_storeText]
  rw [Table.ofEntries] at htexts
  rw [htexts]
  rfl

theorem WellTyped.withPath (h : l.WellTyped) {path : Value} (hpath : path.IsOptionalText) :
    { l with stringFile := path : Localization }.WellTyped :=
  ⟨h.localeCode, hpath, h.containsAssets, h.addressableAssets, h.textual, h.distinct, h.texts⟩

/-- Texts written under texts, however often under the same. -/
theorem WellTyped.withEntries (h : l.WellTyped) {entries : List (Scalar × Value)}
    (hentries : ∀ e ∈ entries, e.1 = .text e.1.name ∧ e.2.IsText) :
    { l with texts := Table.ofEntries entries : Localization }.WellTyped := by
  have htexts := Table.forall_ofEntries (P := fun k => k = .text k.name)
    (Q := Value.IsText) hentries
  exact ⟨h.localeCode, h.stringFile, h.containsAssets, h.addressableAssets,
    fun e he => (htexts e he).1, Table.distinct_ofEntries entries, fun e he => (htexts e he).2⟩

end Localization

/-! ## Drafts -/

namespace Project

def stored (p : Project) (path : Value) : Project :=
  let q : Project := {
    name := p.name, path, sources := p.sources, declarations := p.declarations,
    baseLanguage := p.baseLanguage, searchAssemblies := p.searchAssemblies }
  if p.blob.isSome then q.setBlob p.blob else q

theorem stored_eq (p : Project) (path : Value) : p.stored path = {
    name := p.name, path, sources := p.sources, declarations := p.declarations,
    baseLanguage := p.baseLanguage, searchAssemblies := p.searchAssemblies, blob := p.blob,
    blobVersion := if p.blob.isSome then 1 else 0 } := by
  cases hblob : p.blob <;> simp [stored, hblob, setBlob]

theorem stored_stored (p : Project) (path path' : Value) :
    (p.stored path).stored path' = p.stored path' := by
  simp only [stored_eq]

section Stored

variable {p q : Project} {path : Value} (h : q.stored path = p.stored path)

include h

theorem declarations_of_stored : q.declarations = p.declarations := by
  have hproject := congrArg Project.declarations h
  rwa [stored_eq, stored_eq] at hproject

theorem baseLanguage_of_stored : q.baseLanguage = p.baseLanguage := by
  have hproject := congrArg Project.baseLanguage h
  rwa [stored_eq, stored_eq] at hproject

end Stored

end Project

namespace BaseRef

def toValue (base : BaseRef) (baseLanguage : Value) : Value :=
  match base with
  | .listed place => .int place
  | .own l => l.toValue
  | .absent => ({ localeCode := baseLanguage } : Localization).toValue

/-- The second is what is persisted of the first. -/
def StoredAs : BaseRef → BaseRef → Prop
  | .listed place, .listed place' => place' = place
  | .own l, .own l' => l.StoredAs l'
  | _, _ => False

end BaseRef

namespace Draft

def fields (d : Draft) (declarations : List Value) (base : Value) (localizations : List Value) :
    List (String × Value) :=
  [("name", d.project.name), ("source_scripts", .list d.project.sources),
    ("declarations", .list declarations), ("base_language", d.project.baseLanguage),
    ("base_localization", base), ("localizations", .list localizations),
    ("search_assemblies_for_actions", .list d.project.searchAssemblies),
    ("compiled_program", match d.project.blob with
      | some blob => .text (String.ofList (Text.Base64.encode blob))
      | none => .null)]

/-- The second is what is persisted of the first, under a path. -/
structure StoredAs (d : Draft) (path : Value) (d' : Draft) : Prop where
  project : d'.project = d.project.stored path
  localizations : List.Forall₂ Localization.StoredAs d.localizations d'.localizations
  base : d.base.StoredAs d'.base

variable {d : Draft} {declarations localizations : List Value} {base : Value}

theorem nodup_fields (d : Draft) (declarations : List Value) (base : Value)
    (localizations : List Value) :
    ((d.fields declarations base localizations).map Prod.fst).Nodup := by
  simp [fields]

/-- The fields of a project are those of what is persisted of it. -/
theorem fields_of_stored {d' : Draft} {path : Value}
    (h : d'.project.stored path = d.project.stored path)
    (declarations : List Value) (base : Value) (localizations : List Value) :
    d'.fields declarations base localizations = d.fields declarations base localizations := by
  have hfields : ∀ d : Draft, d.fields declarations base localizations =
      { d with project := d.project.stored path : Draft }.fields
        declarations base localizations := by
    intro d
    rw [Project.stored_eq]
    rfl
  rw [hfields d', h, hfields d]
  rfl

theorem toValue_eq_ok (h : d.project.declarations.mapM Declaration.toValue = .ok declarations) :
    d.toValue =
      .ok (.mapping (Table.named (d.fields declarations (d.base.toValue d.project.baseLanguage)
      (d.localizations.map Localization.toValue)))) := by
  rw [toValue, h]
  rfl

theorem blobOfValue_field (d : Draft) : blobOfValue (match d.project.blob with
    | some blob => .text (String.ofList (Text.Base64.encode blob))
    | none => .null) = .ok d.project.blob := by
  cases d.project.blob with
  | none => rfl
  | some blob =>
      simp only [blobOfValue, Text.Loose.shown_coe, String.toList_ofList, Text.Base64.decode_encode]
      rfl

/-- A project is read of its fields if the values among them are read of theirs. -/
theorem ofValue_of_perm {read : List Localization} {ref : BaseRef}
    (hdeclarations : declarations.mapM Declaration.ofValue = .ok d.project.declarations)
    (hlocalizations : localizations.mapM Localization.ofValue = .ok read)
    (hbase : baseOfValue read base = .ok ref) {members : Table Value}
    (hperm : members.Perm (Table.named (d.fields declarations base localizations))) (path : Value) :
    ofValue (.mapping members) path =
      .ok { project := d.project.stored path, localizations := read, base := ref } := by
  have hlookup {name : String} {v : Value} := Table.lookup_of_perm
    (d.nodup_fields declarations base localizations) hperm name (v := v)
  refine bind_eq_ok.mpr ⟨.list localizations, getD_of_lookup (hlookup rfl) _, ?_⟩
  refine bind_eq_ok.mpr ⟨localizations, rfl, bind_eq_ok.mpr ⟨read, hlocalizations, ?_⟩⟩
  refine bind_eq_ok.mpr ⟨base, getD_of_lookup (hlookup rfl) _, bind_eq_ok.mpr ⟨ref, hbase, ?_⟩⟩
  refine bind_eq_ok.mpr ⟨d.project.name, getD_of_lookup (hlookup rfl) _, ?_⟩
  refine bind_eq_ok.mpr ⟨.list d.project.sources, getD_of_lookup (hlookup rfl) _, ?_⟩
  refine bind_eq_ok.mpr ⟨d.project.sources, rfl, ?_⟩
  refine bind_eq_ok.mpr ⟨.list declarations, getD_of_lookup (hlookup rfl) _, ?_⟩
  refine bind_eq_ok.mpr ⟨declarations, rfl, bind_eq_ok.mpr ⟨_, hdeclarations, ?_⟩⟩
  refine bind_eq_ok.mpr ⟨d.project.baseLanguage, getD_of_lookup (hlookup rfl) _, ?_⟩
  refine bind_eq_ok.mpr ⟨.list d.project.searchAssemblies, getD_of_lookup (hlookup rfl) _, ?_⟩
  refine bind_eq_ok.mpr ⟨d.project.searchAssemblies, rfl, ?_⟩
  refine bind_eq_ok.mpr ⟨_, getD_of_lookup (hlookup rfl) _, ?_⟩
  exact bind_eq_ok.mpr ⟨d.project.blob, d.blobOfValue_field, rfl⟩

end Draft

end Dialogue
