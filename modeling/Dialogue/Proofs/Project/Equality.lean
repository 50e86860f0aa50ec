import Dialogue.Proofs.Project.Document

/-! What is persisted of a typed project makes a document that equals the document of the project
and is written as the same JSON text: the two differ in the order of the texts at most, which
neither equality nor the writer looks at. -/

namespace Dialogue

/-! ## Values -/

namespace Value

theorem sameEntries_eq (t u : Table Value) :
    sameEntries t u = t.all fun e => (Table.lookup u e.1).any (same e.2) := by
  induction t with
  | nil => rfl
  | cons e t ih =>
      rw [sameEntries, ih, List.all_cons]
      cases Table.lookup u e.1 <;> rfl

theorem same_mapping (t u : Table Value) : (mapping t).same (mapping u) = Table.same same t u := by
  rw [same, sameEntries_eq, Table.same]

theorem sameItems_of_forall₂ {items items' : List Value}
    (h : List.Forall₂ (fun v v' => v.same v' = true) items items') :
      sameItems items items' = true := by
  induction h with
  | nil => rfl
  | cons hv _ ih => rw [sameItems, hv, ih, Bool.and_true]

/-- Equal values that are written as the same text. -/
structure Interchangeable (v v' : Value) : Prop where
  same : v'.same v = true
  write : Json.write v' = Json.write v

theorem Interchangeable.of_same_self {v : Value} (h : v.same v = true) : v.Interchangeable v :=
  ⟨h, rfl⟩

theorem interchangeable_scalar {s : Scalar} (h : ∀ x, s ≠ .float x) :
    (Value.scalar s).Interchangeable (.scalar s) :=
  .of_same_self (by rw [same]; exact Scalar.same_self fun x hx => absurd hx (h x))

theorem IsText.interchangeable {v : Value} (h : v.IsText) : v.Interchangeable v := by
  obtain ⟨s, rfl⟩ := h
  exact interchangeable_scalar (by simp)

theorem IsOptionalText.interchangeable {v : Value} (h : v.IsOptionalText) :
    v.Interchangeable v := by
  obtain rfl | h := h
  · exact interchangeable_scalar (by simp)
  · exact h.interchangeable

theorem IsFlag.interchangeable {v : Value} (h : v.IsFlag) : v.Interchangeable v := by
  obtain ⟨b, rfl⟩ := h
  exact interchangeable_scalar (by simp)

theorem interchangeable_list {items items' : List Value}
    (h : List.Forall₂ Interchangeable items items') :
      (list items).Interchangeable (list items') where
  same := by
    rw [same]
    exact sameItems_of_forall₂ (h.flip.imp fun _ _ hv => hv.same)
  write := by
    have hitems : Json.writeItems items' = Json.writeItems items := by
      induction h with
      | nil => rfl
      | cons hv _ ih => rw [Json.writeItems, Json.writeItems, hv.write, ih]
    rw [Json.write, Json.write, hitems]

/-- Entries with interchangeable values under the same keys. -/
def InterchangeableEntry (e e' : Scalar × Value) : Prop :=
  e'.1 = e.1 ∧ e.2.Interchangeable e'.2

theorem exists_mem_of_forall₂ {α β : Type} {R : α → β → Prop} {as : List α} {bs : List β}
    (h : List.Forall₂ R as bs) {b : β} (hb : b ∈ bs) : ∃ a ∈ as, R a b := by
  induction h with
  | nil => cases hb
  | @cons a b' _ _ hab _ ih =>
      rcases List.mem_cons.mp hb with rfl | hb
      · exact ⟨a, List.mem_cons_self .., hab⟩
      · obtain ⟨a', ha', hR⟩ := ih hb
        exact ⟨a', List.mem_cons_of_mem _ ha', hR⟩

theorem interchangeable_mapping {t t' : Table Value} (distinct : t.Distinct)
    (h : List.Forall₂ InterchangeableEntry t t') : (mapping t).Interchangeable (mapping t') where
  same := by
    rw [same_mapping, Table.same, h.length_eq, beq_self_eq_true, Bool.true_and, List.all_eq_true]
    intro e' he'
    obtain ⟨e, he, hkey, hvalue⟩ := exists_mem_of_forall₂ h he'
    have hlookup : Table.lookup t e'.1 = some e.2 :=
      distinct.lookup_eq_some_iff.mpr ⟨e.1, he, by rw [hkey]; exact Scalar.sameKey_refl _⟩
    rw [hlookup, Option.any_some]
    exact hvalue.same
  write := by
    have hentries : Json.writeEntries t' = Json.writeEntries t := by
      rw [Json.writeEntries_eq, Json.writeEntries_eq]
      induction h with
      | nil => rfl
      | cons he _ ih =>
          rw [List.map_cons, List.map_cons, ih (List.pairwise_cons.mp distinct).2, he.1, he.2.write]
    rw [Json.write, Json.write, hentries]

/-- A mapping and the same one with its entries in another order. -/
theorem interchangeable_of_perm {t t' : Table Value} (textual : t.Textual) (distinct : t.Distinct)
    (hperm : t'.Perm t) (h : ∀ e ∈ t, e.2.same e.2 = true) :
    (mapping t).Interchangeable (mapping t') where
  same := by
    rw [same_mapping]
    exact Table.same_of_perm distinct hperm h
  write := Json.write_mapping_perm textual.textKeyed distinct hperm

theorem interchangeable_named {fields fields' : List (String × Value)}
    (nodup : (fields.map Prod.fst).Nodup)
    (h : List.Forall₂ (fun f f' => f'.1 = f.1 ∧ f.2.Interchangeable f'.2) fields fields') :
    (mapping (Table.named fields)).Interchangeable (mapping (Table.named fields')) := by
  refine interchangeable_mapping (Table.distinct_named nodup) ?_
  rw [Table.named, Table.named, List.forall₂_map_left_iff, List.forall₂_map_right_iff]
  exact h.imp fun _ _ hf => ⟨congrArg (fun name : String => Scalar.text name) hf.1, hf.2⟩

end Value

/-! ## Parts of projects -/

theorem Declaration.WellTyped.exists_toValue {d : Declaration} (h : d.WellTyped) :
    ∃ v, d.toValue = .ok v ∧ v.Interchangeable v := by
  obtain ⟨type, htype⟩ := h.type
  refine ⟨_, toValue_of_known htype, Value.interchangeable_named (d.nodup_fields type) ?_⟩
  exact .cons ⟨rfl, h.name.interchangeable⟩ (.cons ⟨rfl, Value.IsText.interchangeable ⟨_, rfl⟩⟩
    (.cons ⟨rfl, h.default.interchangeable⟩ (.cons ⟨rfl, h.description.interchangeable⟩ .nil)))

theorem exists_declarations {ds : List Declaration} (h : ∀ d ∈ ds, d.WellTyped) :
    ∃ vs, ds.mapM Declaration.toValue = .ok vs ∧ List.Forall₂ Value.Interchangeable vs vs := by
  induction ds with
  | nil => exact ⟨[], rfl, .nil⟩
  | cons d ds ih =>
      obtain ⟨hd, hds⟩ := List.forall_mem_cons.mp h
      obtain ⟨v, hv, hsame⟩ := hd.exists_toValue
      obtain ⟨vs, hvs, hall⟩ := ih hds
      refine ⟨v :: vs, ?_, .cons hsame hall⟩
      rw [List.mapM_cons, hv, hvs]
      rfl

/-- Agreement in all that is persisted, but for the order of texts. -/
structure Localization.SameDocument (l l' : Localization) : Prop where
  localeCode : l'.localeCode = l.localeCode
  stringFile : l'.stringFile = l.stringFile
  containsAssets : l'.containsAssets = l.containsAssets
  addressableAssets : l'.addressableAssets = l.addressableAssets
  texts : l'.texts.Perm l.texts

theorem Localization.SameDocument.refl (l : Localization) : l.SameDocument l :=
  ⟨rfl, rfl, rfl, rfl, .refl _⟩

theorem Localization.SameDocument.trans {l l' l'' : Localization} (h : l.SameDocument l')
    (h' : l'.SameDocument l'') : l.SameDocument l'' :=
  ⟨h'.localeCode.trans h.localeCode, h'.stringFile.trans h.stringFile,
    h'.containsAssets.trans h.containsAssets, h'.addressableAssets.trans h.addressableAssets,
    h'.texts.trans h.texts⟩

theorem Localization.SameDocument.symm {l l' : Localization} (h : l.SameDocument l') :
    l'.SameDocument l :=
  ⟨h.localeCode.symm, h.stringFile.symm, h.containsAssets.symm, h.addressableAssets.symm,
    h.texts.symm⟩

theorem Localization.WellTyped.of_sameDocument {l l' : Localization} (typed : l.WellTyped)
    (h : l.SameDocument l') : l'.WellTyped where
  localeCode := h.localeCode ▸ typed.localeCode
  stringFile := h.stringFile ▸ typed.stringFile
  containsAssets := h.containsAssets ▸ typed.containsAssets
  addressableAssets := h.addressableAssets ▸ typed.addressableAssets
  textual e he := typed.textual e (h.texts.mem_iff.mp he)
  distinct := typed.distinct.perm h.texts
  texts e he := typed.texts e (h.texts.mem_iff.mp he)

theorem Localization.StoredAs.sameDocument {l l' : Localization} (h : l.StoredAs l') :
    l.SameDocument l' := by
  obtain ⟨texts, hperm, rfl⟩ := h
  exact ⟨rfl, rfl, rfl, rfl, hperm⟩

theorem Localization.SameDocument.interchangeable {l l' : Localization} (h : l.SameDocument l')
    (typed : l.WellTyped) : l.toValue.Interchangeable l'.toValue := by
  have hself : ∀ e ∈ l.texts, e.2.same e.2 = true :=
    fun e he => (typed.texts e he).interchangeable.same
  have htexts := Value.interchangeable_of_perm typed.textual typed.distinct h.texts hself
  rw [toValue_eq, toValue_eq, fields, fields, h.localeCode, h.stringFile, h.containsAssets,
    h.addressableAssets]
  refine Value.interchangeable_named (l.nodup_fields l.texts) ?_
  exact .cons ⟨rfl, typed.localeCode.interchangeable⟩
    (.cons ⟨rfl, typed.stringFile.interchangeable⟩
      (.cons ⟨rfl, typed.containsAssets.interchangeable⟩
        (.cons ⟨rfl, typed.addressableAssets.interchangeable⟩ (.cons ⟨rfl, htexts⟩ .nil))))

/-- Bases at the same place, or with the same document but for the order of texts. -/
def BaseRef.SameDocument : BaseRef → BaseRef → Prop
  | .listed place, .listed place' => place' = place
  | .own l, .own l' => l.SameDocument l'
  | _, _ => False

theorem BaseRef.StoredAs.sameDocument {base base' : BaseRef} (h : base.StoredAs base') :
    base.SameDocument base' := by
  cases base <;> cases base' <;> first
    | exact h
    | exact Localization.StoredAs.sameDocument h

theorem BaseRef.SameDocument.interchangeable {base base' : BaseRef} {length : Nat}
    (h : base.SameDocument base') (typed : base.WellTyped length) (baseLanguage : Value) :
    (base.toValue baseLanguage).Interchangeable (base'.toValue baseLanguage) := by
  cases base with
  | listed place =>
      cases base' with
      | listed place' =>
          obtain rfl : place' = place := h
          exact Value.interchangeable_scalar (by simp)
      | own l => exact h.elim
      | absent => exact h.elim
  | own l =>
      cases base' with
      | own l' => exact Localization.SameDocument.interchangeable h typed
      | listed place => exact h.elim
      | absent => exact h.elim
  | absent => exact typed.elim

/-! ## Whole documents -/

theorem interchangeable_values {vs : List Value} (h : ∀ v ∈ vs, v.Interchangeable v) :
    (Value.list vs).Interchangeable (.list vs) :=
  Value.interchangeable_list (List.forall₂_same.mpr h)

theorem isOptionalText_blob (blob : Option Bytes) :
    Value.IsOptionalText (match blob with
      | some blob => .text (String.ofList (Text.Base64.encode blob))
      | none => .null) := by
  cases blob with
  | none => exact .inl rfl
  | some blob => exact .inr ⟨_, rfl⟩

theorem interchangeable_localizations {ls ls' : List Localization}
    (h : List.Forall₂ Localization.SameDocument ls ls') (typed : ∀ l ∈ ls, l.WellTyped) :
    (Value.list (ls.map Localization.toValue)).Interchangeable
      (.list (ls'.map Localization.toValue)) := by
  refine Value.interchangeable_list ?_
  induction h with
  | nil => exact .nil
  | cons hl _ ih =>
      obtain ⟨htyped, typed⟩ := List.forall_mem_cons.mp typed
      exact .cons (hl.interchangeable htyped) (ih typed)

namespace Draft

structure SameDocument (d d' : Draft) : Prop where
  project : ∃ path, d'.project.stored path = d.project.stored path
  localizations : List.Forall₂ Localization.SameDocument d.localizations d'.localizations
  base : d.base.SameDocument d'.base

variable {d d' : Draft}

theorem StoredAs.sameDocument {path : Value} (h : d.StoredAs path d') : d.SameDocument d' where
  project := ⟨path, by rw [h.project, Project.stored_stored]⟩
  localizations := h.localizations.imp fun _ _ hl => hl.sameDocument
  base := h.base.sameDocument

/-- Typed drafts that agree have the same document, but for the order of texts. -/
theorem SameDocument.interchangeable (h : d.SameDocument d') (typed : d.WellTyped) :
    ∃ v v', d.toValue = .ok v ∧ d'.toValue = .ok v' ∧ v.Interchangeable v' := by
  obtain ⟨path, hproject⟩ := h.project
  obtain ⟨vs, hvs, hdeclarations⟩ := exists_declarations typed.project.declarations
  have hvs' : d'.project.declarations.mapM Declaration.toValue = .ok vs := by
    rw [Project.declarations_of_stored hproject]
    exact hvs
  refine ⟨_, _, toValue_eq_ok hvs, toValue_eq_ok hvs', ?_⟩
  rw [fields_of_stored hproject, Project.baseLanguage_of_stored hproject]
  refine Value.interchangeable_named (d.nodup_fields ..) ?_
  have hp := typed.project
  exact .cons ⟨rfl, hp.name.interchangeable⟩
    (.cons ⟨rfl, interchangeable_values fun v hv => (hp.sources v hv).interchangeable⟩
    (.cons ⟨rfl, Value.interchangeable_list hdeclarations⟩
    (.cons ⟨rfl, hp.baseLanguage.interchangeable⟩
    (.cons ⟨rfl, h.base.interchangeable typed.base _⟩
    (.cons ⟨rfl, interchangeable_localizations h.localizations typed.localizations⟩
    (.cons ⟨rfl, interchangeable_values fun v hv => (hp.searchAssemblies v hv).interchangeable⟩
    (.cons ⟨rfl, (isOptionalText_blob d.project.blob).interchangeable⟩ .nil)))))))

end Draft

end Dialogue
