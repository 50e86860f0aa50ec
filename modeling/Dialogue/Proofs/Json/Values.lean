import Dialogue.Proofs.Json.Spelling
import Dialogue.Proofs.Value.Order

/-! Texts, numbers and words are read back from what is written of them, and lists and mappings are
if their parts are, the members of mappings in order. Whatever else is written is read as well. -/

namespace Dialogue.Json

open Text (CodePoint)

/-! ## Mappings -/

theorem writeEntries_eq (entries : List (Scalar × Value)) :
    writeEntries entries = entries.map fun e => (e.1, write e.2) := by
  induction entries with
  | nil => rfl
  | cons e entries ih => rw [writeEntries, ih, List.map_cons]

def writeMember (member : Scalar × Except WriteFault (List Char)) :
    Except WriteFault (List Char) := do
  return (← writeName member.1) ++ ':' :: ' ' :: (← member.2)

theorem writeMember_text {t : Text.Loose} {text : List Char} :
    writeMember (.text t, .ok text) = .ok (memberText t.points text) := rfl

/-- A mapping with texts for keys is written in the order of its keys. -/
theorem write_mapping {entries : Table Value} (keyed : entries.TextKeyed)
    (distinct : entries.Distinct) : write (.mapping entries) = (do
      let texts ← (entries.sorted.map fun e => (e.1, write e.2)).mapM writeMember
      return '{' :: commaSeparated texts ++ ['}']) := by
  have hkeyed : Table.TextKeyed (entries.map fun e => (e.1, write e.2)) := by
    intro e he
    obtain ⟨e', he', rfl⟩ := List.mem_map.mp he
    exact keyed e' he'
  rw [write, writeEntries_eq, joinMembers,
    hkeyed.sortedBy_eq (List.pairwise_map.mpr distinct), keyed.sorted_map distinct]
  rfl

/-- The order of the entries does not show in what is written. -/
theorem write_mapping_perm {entries other : Table Value} (keyed : entries.TextKeyed)
    (distinct : entries.Distinct) (hperm : other.Perm entries) :
    write (.mapping other) = write (.mapping entries) := by
  rw [write_mapping keyed distinct, write_mapping (keyed.perm hperm) (distinct.perm hperm),
    keyed.sorted_congr distinct hperm]

/-! ## Reading back -/

def ReadAs (v v' : Value) : Prop :=
  ∃ text, write v = .ok text ∧ Spells text v'

/-- A text that can be read back: no two of its surrogates stand for a character. -/
def Legible (t : Text.Loose) : Prop :=
  joined t.points = t.points

theorem legible_coe (s : String) : Legible s := by
  simp [Legible]

theorem legible_ofPoints {points : List CodePoint} (h : joined points = points) :
    Legible (.ofPoints points) := by
  simpa [Legible] using h

theorem Legible.ofPoints_joined {t : Text.Loose} (h : Legible t) :
    Text.Loose.ofPoints (joined t.points) = t := by
  rw [h, Text.Loose.ofPoints_points]

theorem readAs_legible {t : Text.Loose} (h : Legible t) :
    ReadAs (.scalar (.text t)) (.scalar (.text t)) := by
  have hspells := spells_text t.points
  rw [h.ofPoints_joined] at hspells
  exact ⟨_, rfl, hspells⟩

theorem readAs_text (s : String) : ReadAs (.text s) (.text s) :=
  readAs_legible (legible_coe s)

theorem write_of_bareText {s : Scalar} {text : List Char} (h : bareText? s = some text) :
    write (.scalar s) = .ok text := by
  cases s with
  | text t => cases h
  | null | bool | int | float | bytes | asset => simp only [write, writeScalar, h]

theorem readAs_scalar {s : Scalar} (h : (bareText? s).isSome = true) :
    ReadAs (.scalar s) (.scalar s) := by
  obtain ⟨text, htext⟩ := Option.isSome_iff_exists.mp h
  exact ⟨text, write_of_bareText htext, spells_bareText htext⟩

theorem readAs_list {items items' : List Value} (h : List.Forall₂ ReadAs items items') :
    ReadAs (.list items) (.list items') := by
  have hitems : ∃ texts, writeItems items = .ok texts ∧ List.Forall₂ Spells texts items' := by
    induction h with
    | nil => exact ⟨[], rfl, .nil⟩
    | cons hitem _ ih =>
        obtain ⟨text, htext, hspells⟩ := hitem
        obtain ⟨texts, htexts, hall⟩ := ih
        exact ⟨text :: texts, by rw [writeItems, htext, htexts], .cons hspells hall⟩
  obtain ⟨texts, htexts, hall⟩ := hitems
  exact ⟨_, by rw [write, htexts], spells_list hall⟩

def EntryReadAs (e e' : Scalar × Value) : Prop :=
  e'.1 = e.1 ∧ ReadAs e.2 e'.2

/-- A table with a text that can be read back for every key. -/
def LegibleKeys {α : Type} (entries : Table α) : Prop :=
  ∀ e ∈ entries, ∃ t, e.1 = .text t ∧ Legible t

section LegibleKeys

variable {α : Type} {entries : Table α}

theorem LegibleKeys.textKeyed (h : LegibleKeys entries) : entries.TextKeyed := by
  intro e he
  obtain ⟨t, ht, -⟩ := h e he
  simp only [ht, Scalar.loose]

theorem LegibleKeys.perm {other : Table α} (h : LegibleKeys entries)
    (hperm : other.Perm entries) : LegibleKeys other :=
  fun e he => h e (hperm.mem_iff.mp he)

theorem LegibleKeys.map {β : Type} (h : LegibleKeys entries) (f : α → β) :
    LegibleKeys (entries.map fun e => (e.1, f e.2)) :=
  List.forall_mem_map.mpr h

theorem legibleKeys_of_textual (h : entries.Textual) : LegibleKeys entries :=
  fun e he => ⟨_, h e he, legible_coe _⟩

end LegibleKeys

theorem keys_of_forall₂ {entries entries' : Table Value}
    (h : List.Forall₂ EntryReadAs entries entries') : entries'.keys = entries.keys := by
  induction h with
  | nil => rfl
  | cons he _ ih => exact congrArg₂ List.cons he.1 ih

theorem exists_writeMembers {entries entries' : Table Value} (legible : LegibleKeys entries)
    (h : List.Forall₂ EntryReadAs entries entries') :
    ∃ texts, (entries.map fun e => (e.1, write e.2)).mapM writeMember = .ok texts ∧
      List.Forall₂ SpellsMember texts entries' := by
  induction h with
  | nil => exact ⟨[], rfl, .nil⟩
  | @cons e e' _ _ he _ ih =>
      obtain ⟨hkey, text, htext, hspells⟩ := he
      obtain ⟨⟨t, ht, hlegible⟩, hrest⟩ := List.forall_mem_cons.mp legible
      obtain ⟨texts, htexts, hall⟩ := ih hrest
      have hname : e'.1 = .text (.ofPoints (joined t.points)) := by
        rw [hkey, ht, hlegible.ofPoints_joined]
      refine ⟨memberText t.points text :: texts, ?_, .cons ⟨_, _, rfl, hname, hspells⟩ hall⟩
      rw [List.map_cons, List.mapM_cons, htexts, htext, ht, writeMember_text]
      rfl

/-- A mapping with texts for keys is read as what its entries in order are read as. -/
theorem readAs_sorted {entries members : Table Value} (legible : LegibleKeys entries)
    (distinct : entries.Distinct) (h : List.Forall₂ EntryReadAs entries.sorted members) :
    ReadAs (.mapping entries) (.mapping members) := by
  have hsorted := entries.sorted_perm
  obtain ⟨texts, htexts, hall⟩ := exists_writeMembers (legible.perm hsorted) h
  have hdistinct : Table.Distinct members :=
    (distinct.perm hsorted).of_keys (keys_of_forall₂ h)
  refine ⟨'{' :: commaSeparated texts ++ ['}'], ?_, ?_⟩
  · rw [write_mapping legible.textKeyed distinct, htexts]
    rfl
  · rw [← Table.ofEntries_of_distinct hdistinct]
    exact spells_mapping hall

/-- A mapping with texts for keys is read with the same keys, in their order. -/
theorem readAs_mapping {entries entries' : Table Value} (legible : LegibleKeys entries)
    (distinct : entries.Distinct) (h : List.Forall₂ EntryReadAs entries entries') :
    ∃ members : Table Value, members.Perm entries' ∧
      ReadAs (.mapping entries) (.mapping members) := by
  obtain ⟨members, hmembers, hperm⟩ := List.perm_comp_forall₂ entries.sorted_perm h
  exact ⟨members, hperm, readAs_sorted legible distinct hmembers⟩

/-! ## All that is written -/

theorem exists_points_of_writeName {s : Scalar} {text : List Char} (h : writeName s = .ok text) :
    ∃ points, text = writeString points := by
  rw [writeName.eq_def] at h
  split at h
  · exact ⟨_, (Except.ok.inj h).symm⟩
  · split at h
    · exact ⟨_, (Except.ok.inj h).symm⟩
    · cases h

theorem exists_spellsMembers {members : List (Scalar × Except WriteFault (List Char))}
    (hmembers : ∀ m ∈ members, ∀ text, m.2 = .ok text → ∃ v, Spells text v)
    {texts : List (List Char)} (h : members.mapM writeMember = .ok texts) :
    ∃ entries, List.Forall₂ SpellsMember texts entries := by
  induction members generalizing texts with
  | nil =>
      cases h
      exact ⟨[], .nil⟩
  | cons m members ih =>
      rw [List.mapM_cons] at h
      obtain ⟨text, htext, h⟩ := bind_eq_ok.mp h
      obtain ⟨texts, htexts, h⟩ := bind_eq_ok.mp h
      cases h
      obtain ⟨nameText, hname, htext⟩ := bind_eq_ok.mp htext
      obtain ⟨valueText, hvalue, htext⟩ := bind_eq_ok.mp htext
      cases htext
      obtain ⟨name, rfl⟩ := exists_points_of_writeName hname
      obtain ⟨v, hv⟩ := hmembers m (List.mem_cons_self ..) valueText hvalue
      obtain ⟨entries, hall⟩ := ih (fun m' hm' => hmembers m' (List.mem_cons_of_mem _ hm')) htexts
      exact ⟨(.text (.ofPoints (joined name)), v) :: entries,
        .cons ⟨name, valueText, rfl, rfl, hv⟩ hall⟩

mutual

theorem exists_spells (v : Value) {text : List Char} (h : write v = .ok text) :
    ∃ v', Spells text v' := by
  cases v with
  | scalar s =>
      rw [write, writeScalar.eq_def] at h
      split at h
      · cases h
        exact ⟨_, spells_text _⟩
      · split at h
        · next hbare =>
            cases h
            exact ⟨_, spells_bareText hbare⟩
        · cases h
  | list items =>
      rw [write] at h
      split at h
      · rename_i texts htexts
        cases h
        obtain ⟨values, hall⟩ := exists_spells_items items htexts
        exact ⟨_, spells_list hall⟩
      · cases h
  | mapping entries =>
      rw [write, joinMembers] at h
      split at h
      · cases h
      · rename_i sorted hsorted
        obtain ⟨texts, htexts, h⟩ := bind_eq_ok.mp h
        cases h
        obtain ⟨members, hall⟩ := exists_spellsMembers
          (fun m hm => exists_spells_entries entries m (Scalar.mem_of_sortedBy hsorted hm)) htexts
        exact ⟨_, spells_mapping hall⟩

theorem exists_spells_items (items : List Value) {texts : List (List Char)}
    (h : writeItems items = .ok texts) : ∃ values, List.Forall₂ Spells texts values := by
  cases items with
  | nil =>
      cases h
      exact ⟨[], .nil⟩
  | cons v items =>
      rw [writeItems] at h
      split at h
      · cases h
      · rename_i text htext
        split at h
        · rename_i texts htexts
          cases h
          obtain ⟨v', hv'⟩ := exists_spells v htext
          obtain ⟨values, hall⟩ := exists_spells_items items htexts
          exact ⟨v' :: values, .cons hv' hall⟩
        · cases h

theorem exists_spells_entries (entries : List (Scalar × Value)) :
    ∀ m ∈ writeEntries entries, ∀ text, m.2 = .ok text → ∃ v, Spells text v := by
  cases entries with
  | nil => simp [writeEntries]
  | cons e entries =>
      obtain ⟨k, v⟩ := e
      rw [writeEntries, List.forall_mem_cons]
      exact ⟨fun text htext => exists_spells v htext, exists_spells_entries entries⟩

end

/-- Of a mapping that is written, every value is written and read as some value. -/
theorem exists_readAs_of_mapping {entries : Table Value} (keyed : entries.TextKeyed)
    (distinct : entries.Distinct) {text : List Char} (h : write (.mapping entries) = .ok text) :
    ∀ e ∈ entries, ∃ v', ReadAs e.2 v' := by
  intro e he
  rw [write_mapping keyed distinct] at h
  obtain ⟨texts, htexts, -⟩ := bind_eq_ok.mp h
  obtain ⟨memberText, hmember⟩ := exists_of_mapM_eq_ok htexts (e.1, write e.2)
    (List.mem_map_of_mem (entries.sorted_perm.mem_iff.mpr he))
  obtain ⟨nameText, -, hmember⟩ := bind_eq_ok.mp hmember
  obtain ⟨valueText, hvalue, -⟩ := bind_eq_ok.mp hmember
  obtain ⟨v', hv'⟩ := exists_spells e.2 hvalue
  exact ⟨v', valueText, hvalue, hv'⟩

/-! ## Reading a whole text -/

theorem parseChars_of_spells {text : List Char} {v : Value} (h : Spells text v) :
    parseChars text = .ok v := by
  have hmark : text.head? ≠ some '\ufeff' := by
    intro hhead
    exact absurd (h.ascii _ (List.mem_of_head? hhead)) (by decide)
  have hskip := h.skip 0 []
  have hread := h.reads (2 * text.length + 2) 0 [] (by omega) (by simp [EndsNumber])
  rw [List.append_nil] at hskip hread
  rw [parseChars, if_neg hmark]
  simp only [hskip, hread, skipSpace]
  rfl

theorem ReadAs.parse_render {v v' : Value} (h : ReadAs v v') :
    ∃ text, render v = .ok text ∧ Text.Ascii text.toList ∧ parse text = .ok v' := by
  obtain ⟨text, hwrite, hspells⟩ := h
  refine ⟨String.ofList text, by rw [render, hwrite]; rfl, by simpa using hspells.ascii, ?_⟩
  rw [parse, String.toList_ofList, parseChars_of_spells hspells]
  rfl

end Dialogue.Json
