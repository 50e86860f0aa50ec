import Dialogue.Proofs.Project.Equality
import Dialogue.Proofs.Project.Installed
import Dialogue.Storage

/-! The JSON text of a typed project is read as what is persisted of the project. The project
restored from it has the same document, its base is the same one of its list, and it is written as
the same text. -/

namespace Dialogue

open Json (ReadAs EntryReadAs legibleKeys_of_textual readAs_list readAs_mapping readAs_scalar
  readAs_text)

/-! ## Fields -/

theorem Value.IsText.readAs {v : Value} (h : v.IsText) : ReadAs v v := by
  obtain ⟨s, rfl⟩ := h
  exact readAs_text s

theorem Value.IsOptionalText.readAs {v : Value} (h : v.IsOptionalText) : ReadAs v v := by
  obtain rfl | h := h
  · exact readAs_scalar rfl
  · exact h.readAs

theorem Value.IsFlag.readAs {v : Value} (h : v.IsFlag) : ReadAs v v := by
  obtain ⟨b, rfl⟩ := h
  exact readAs_scalar rfl

theorem readAs_values {vs : List Value} (h : ∀ v ∈ vs, ReadAs v v) : ReadAs (.list vs) (.list vs) :=
  readAs_list (List.forall₂_same.mpr h)

theorem exists_readAs_named {fields : List (String × Value)} (fields' : List (String × Value))
    (nodup : (fields.map Prod.fst).Nodup)
    (h : List.Forall₂ (fun f f' => f'.1 = f.1 ∧ ReadAs f.2 f'.2) fields fields') :
    ∃ members : Table Value, members.Perm (Table.named fields') ∧
      ReadAs (.mapping (Table.named fields)) (.mapping members) := by
  refine readAs_mapping (legibleKeys_of_textual Table.textual_named) (Table.distinct_named nodup) ?_
  rw [Table.named, Table.named, List.forall₂_map_left_iff, List.forall₂_map_right_iff]
  exact h.imp fun _ _ hf => ⟨congrArg (fun name : String => Scalar.text name) hf.1, hf.2⟩

/-! ## Parts of projects -/

/-- The document of a declaration is read as the declaration. -/
theorem Declaration.WellTyped.exists_readAs {d : Declaration} (h : d.WellTyped) :
    ∃ v v', d.toValue = .ok v ∧ ReadAs v v' ∧ ofValue v' = .ok d := by
  obtain ⟨type, htype⟩ := h.type
  obtain ⟨members, hperm, hread⟩ := exists_readAs_named (d.fields type) (d.nodup_fields type)
    (.cons ⟨rfl, h.name.readAs⟩ (.cons ⟨rfl, readAs_text _⟩ (.cons ⟨rfl, h.default.readAs⟩
      (.cons ⟨rfl, h.description.readAs⟩ .nil))))
  exact ⟨_, _, toValue_of_known htype, hread, ofValue_of_perm htype hperm⟩

theorem exists_readAs_declarations {ds : List Declaration} (h : ∀ d ∈ ds, d.WellTyped) :
    ∃ vs vs', ds.mapM Declaration.toValue = .ok vs ∧ List.Forall₂ ReadAs vs vs' ∧
      vs'.mapM Declaration.ofValue = .ok ds := by
  induction ds with
  | nil => exact ⟨[], [], rfl, .nil, rfl⟩
  | cons d ds ih =>
      obtain ⟨hd, hds⟩ := List.forall_mem_cons.mp h
      obtain ⟨v, v', hv, hread, hofValue⟩ := hd.exists_readAs
      obtain ⟨vs, vs', hvs, hall, hofValues⟩ := ih hds
      refine ⟨v :: vs, v' :: vs', ?_, .cons hread hall, ?_⟩
      · rw [List.mapM_cons, hv, hvs]
        rfl
      · rw [List.mapM_cons, hofValue, hofValues]
        rfl

/-- The document of a localization is read as what is persisted of it. -/
theorem Localization.WellTyped.exists_readAs {l : Localization} (h : l.WellTyped) :
    ∃ members l', ReadAs l.toValue (.mapping members) ∧ ofValue (.mapping members) = .ok l' ∧
      l.StoredAs l' := by
  have htexts : List.Forall₂ EntryReadAs l.texts l.texts :=
    List.forall₂_same.mpr fun e he => ⟨rfl, (h.texts e he).readAs⟩
  obtain ⟨texts, hperm, htexts⟩ :=
    readAs_mapping (legibleKeys_of_textual h.textual) h.distinct htexts
  obtain ⟨members, hmembers, hread⟩ := exists_readAs_named (l.fields texts) (l.nodup_fields l.texts)
    (.cons ⟨rfl, h.localeCode.readAs⟩ (.cons ⟨rfl, h.stringFile.readAs⟩
      (.cons ⟨rfl, h.containsAssets.readAs⟩ (.cons ⟨rfl, h.addressableAssets.readAs⟩
        (.cons ⟨rfl, htexts⟩ .nil)))))
  exact ⟨members, l.stored texts, hread, ofValue_of_perm (h.distinct.perm hperm) hmembers,
    texts, hperm, rfl⟩

theorem exists_readAs_localizations {ls : List Localization} (h : ∀ l ∈ ls, l.WellTyped) :
    ∃ vs ls', List.Forall₂ ReadAs (ls.map Localization.toValue) vs ∧
      vs.mapM Localization.ofValue = .ok ls' ∧ List.Forall₂ Localization.StoredAs ls ls' := by
  induction ls with
  | nil => exact ⟨[], [], .nil, rfl, .nil⟩
  | cons l ls ih =>
      obtain ⟨hl, hls⟩ := List.forall_mem_cons.mp h
      obtain ⟨members, l', hread, hofValue, hstored⟩ := hl.exists_readAs
      obtain ⟨vs, ls', hall, hofValues, hstoreds⟩ := ih hls
      refine ⟨.mapping members :: vs, l' :: ls', .cons hread hall, ?_, .cons hstored hstoreds⟩
      rw [List.mapM_cons, hofValue, hofValues]
      rfl

theorem placeIn?_of_lt {length place : Nat} (h : place < length) :
    Draft.placeIn? length place = some place := by
  have hnonneg : ¬ (place : Int) < 0 := by omega
  simp [Draft.placeIn?, hnonneg, h]

/-- The field of the base is read as what is persisted of the base. -/
theorem BaseRef.WellTyped.exists_readAs {base : BaseRef} {read : List Localization}
    (h : base.WellTyped read.length) (baseLanguage : Value) :
    ∃ v base', ReadAs (base.toValue baseLanguage) v ∧ Draft.baseOfValue read v = .ok base' ∧
      base.StoredAs base' := by
  cases base with
  | listed place =>
      refine ⟨.int place, .listed place, readAs_scalar rfl, ?_, rfl⟩
      simp only [Draft.baseOfValue, Value.int?, placeIn?_of_lt h]
  | own l =>
      obtain ⟨members, l', hread, hofValue, hstored⟩ := Localization.WellTyped.exists_readAs h
      refine ⟨.mapping members, .own l', hread, ?_, hstored⟩
      simp only [Draft.baseOfValue, Value.int?, hofValue]
      rfl
  | absent => exact h.elim

/-! ## Drafts -/

/-- The JSON text of a typed project is read as what is persisted of it. -/
theorem Draft.WellTyped.exists_ofJson {d : Draft} (h : d.WellTyped) (path : Value) :
    ∃ text d', d.toJson = .ok text ∧ ofJson text path = .ok d' ∧ d.StoredAs path d' := by
  obtain ⟨vs, vs', hvs, hdeclarations, hvs'⟩ := exists_readAs_declarations h.project.declarations
  obtain ⟨ls, ls', hls, hls', hstoreds⟩ := exists_readAs_localizations h.localizations
  have hbase := h.base
  rw [hstoreds.length_eq] at hbase
  obtain ⟨base, base', hread, hbase', hstored⟩ := hbase.exists_readAs d.project.baseLanguage
  have hp := h.project
  obtain ⟨members, hmembers, hdocument⟩ := exists_readAs_named (d.fields vs' base ls)
    (d.nodup_fields vs (d.base.toValue d.project.baseLanguage)
      (d.localizations.map Localization.toValue))
    (.cons ⟨rfl, hp.name.readAs⟩
    (.cons ⟨rfl, readAs_values fun v hv => (hp.sources v hv).readAs⟩
    (.cons ⟨rfl, readAs_list hdeclarations⟩
    (.cons ⟨rfl, hp.baseLanguage.readAs⟩
    (.cons ⟨rfl, hread⟩
    (.cons ⟨rfl, readAs_list hls⟩
    (.cons ⟨rfl, readAs_values fun v hv => (hp.searchAssemblies v hv).readAs⟩
    (.cons ⟨rfl, (isOptionalText_blob d.project.blob).readAs⟩ .nil))))))))
  obtain ⟨text, hrender, -, hparse⟩ := hdocument.parse_render
  refine ⟨text, ⟨d.project.stored path, ls', base'⟩, ?_, ?_, ⟨rfl, hstoreds, hstored⟩⟩
  · rw [toJson, toValue_eq_ok hvs]
    exact congrArg (Except.mapError _) hrender
  · rw [ofJson, hparse]
    exact ofValue_of_perm hvs' hls' hbase' hmembers path

end Dialogue
