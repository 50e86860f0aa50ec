import Dialogue.Proofs.Json.Values

/-! What is read from a text is plain: its scalars can be written, and its mappings have each name
once. A plain value is written as its ordered form is, in which all mappings stand in the order of
their names. It is read back as that form, which equals it. -/

namespace Dialogue

/-- A value that a text can spell. -/
inductive Value.Plain : Value → Prop where
  | scalar {s : Scalar} (written : (Json.bareText? s).isSome = true) : Plain (.scalar s)
  | text {t : Text.Loose} (legible : Json.Legible t) : Plain (.scalar (.text t))
  | list {items : List Value} (items_plain : ∀ v ∈ items, Plain v) : Plain (.list items)
  | mapping {entries : List (Scalar × Value)} (legible : Json.LegibleKeys entries)
      (distinct : Table.Distinct entries) (values_plain : ∀ e ∈ entries, Plain e.2) :
      Plain (.mapping entries)

namespace Value

mutual

/-- The value with all of its mappings in the order of their names. -/
def ordered : Value → Value
  | .scalar s => .scalar s
  | .list items => .list (orderedItems items)
  | .mapping entries => .mapping (Table.sorted (orderedEntries entries))
termination_by structural v => v

def orderedItems : List Value → List Value
  | [] => []
  | v :: rest => v.ordered :: orderedItems rest
termination_by structural v => v

def orderedEntries : List (Scalar × Value) → List (Scalar × Value)
  | [] => []
  | (k, v) :: rest => (k, v.ordered) :: orderedEntries rest
termination_by structural v => v

end

theorem orderedItems_eq (items : List Value) : orderedItems items = items.map ordered := by
  induction items with
  | nil => rfl
  | cons v items ih => rw [orderedItems, ih, List.map_cons]

theorem orderedEntries_eq (entries : List (Scalar × Value)) :
    orderedEntries entries = entries.map fun e => (e.1, e.2.ordered) := by
  induction entries with
  | nil => rfl
  | cons e entries ih => rw [orderedEntries, ih, List.map_cons]

@[simp]
theorem ordered_scalar (s : Scalar) : (scalar s).ordered = .scalar s := rfl

@[simp]
theorem ordered_list (items : List Value) :
    (list items).ordered = .list (items.map ordered) := by
  rw [ordered, orderedItems_eq]

@[simp]
theorem ordered_mapping (entries : List (Scalar × Value)) : (mapping entries).ordered =
    .mapping (Table.sorted (entries.map fun e => (e.1, e.2.ordered))) := by
  rw [ordered, orderedEntries_eq]

end Value

theorem Table.TextKeyed.map {α β : Type} {t : Table α} (h : t.TextKeyed) (f : α → β) :
    TextKeyed (t.map fun e => (e.1, f e.2)) := by
  intro e he
  obtain ⟨e', he', rfl⟩ := List.mem_map.mp he
  exact h e' he'

theorem Table.Distinct.map {α β : Type} {t : Table α} (h : t.Distinct) (f : α → β) :
    Distinct (t.map fun e => (e.1, f e.2)) :=
  List.pairwise_map.mpr h

namespace Json

/-! ## Writing -/

section Congr

variable {α : Type} {f g : α → Value}

theorem writeItems_congr {items : List α} (h : ∀ a ∈ items, write (f a) = write (g a)) :
    writeItems (items.map f) = writeItems (items.map g) := by
  induction items with
  | nil => rfl
  | cons a items ih =>
      obtain ⟨ha, hitems⟩ := List.forall_mem_cons.mp h
      rw [List.map_cons, List.map_cons, writeItems, writeItems, ha, ih hitems]

theorem writeEntries_congr {entries : Table α} (h : ∀ e ∈ entries, write (f e.2) = write (g e.2)) :
    writeEntries (entries.map fun e => (e.1, f e.2)) =
      writeEntries (entries.map fun e => (e.1, g e.2)) := by
  rw [writeEntries_eq, writeEntries_eq, List.map_map, List.map_map]
  exact List.map_congr_left fun e he => by simp [h e he]

/-- Entries are written as what stands in their places is, in any order. -/
theorem write_mapping_congr {entries other : Table α} (keyed : entries.TextKeyed)
    (distinct : entries.Distinct) (hperm : other.Perm entries)
    (h : ∀ e ∈ entries, write (f e.2) = write (g e.2)) :
    write (.mapping (other.map fun e => (e.1, f e.2))) =
      write (.mapping (entries.map fun e => (e.1, g e.2))) := by
  rw [write_mapping_perm (keyed.map f) (distinct.map f) (hperm.map _), write, write,
    writeEntries_congr h]

end Congr

/-- A plain value is written as its ordered form is. -/
theorem write_ordered {v : Value} (h : v.Plain) : write v.ordered = write v := by
  induction h with
  | scalar | text => rfl
  | @list items _ ih =>
      have hitems := writeItems_congr (g := id) ih
      rw [List.map_id] at hitems
      rw [Value.ordered_list, write, write, hitems]
  | @mapping entries legible distinct _ ih =>
      have hkeyed := legible.textKeyed
      have hentries := write_mapping_congr (g := id) hkeyed distinct (Table.sorted_perm _) ih
      rw [Value.ordered_mapping, hkeyed.sorted_map distinct]
      simpa using hentries

/-- A plain value is read back as its ordered form. -/
theorem readAs_ordered {v : Value} (h : v.Plain) : ReadAs v v.ordered := by
  induction h with
  | scalar written => exact readAs_scalar written
  | text legible => exact readAs_legible legible
  | list _ ih =>
      rw [Value.ordered_list]
      exact readAs_list (List.forall₂_map_right_iff.mpr (List.forall₂_same.mpr ih))
  | @mapping entries legible distinct _ ih =>
      rw [Value.ordered_mapping, legible.textKeyed.sorted_map distinct]
      refine readAs_sorted legible distinct ?_
      refine List.forall₂_map_right_iff.mpr (List.forall₂_same.mpr fun e he => ⟨rfl, ih e ?_⟩)
      exact (Table.sorted_perm entries).mem_iff.mp he

/-! ## Reading -/

theorem isSome_magnitudeFrom {negative : Bool} {place : Nat} {text : List Char} {r : Read Scalar}
    (h : magnitudeFrom negative place text = some r) : (bareText? r.value).isSome = true := by
  rw [magnitudeFrom, Option.map_eq_some_iff] at h
  obtain ⟨_, -, rfl⟩ := h
  split
  split
  dsimp only
  split <;> rfl

theorem isSome_scalarFrom {place : Nat} {text : List Char} {r : Read Scalar}
    (h : scalarFrom place text = some r) : (bareText? r.value).isSome = true := by
  unfold scalarFrom at h
  split at h
  · next word value hword =>
      obtain rfl := Option.some.inj h
      have hall : ∀ w ∈ words, (bareText? w.2).isSome = true := by simp [words, bareText?]
      exact hall _ (List.mem_of_find?_eq_some hword)
  · split at h
    · exact isSome_magnitudeFrom h
    · exact isSome_magnitudeFrom h

def IsPlainMember (e : Scalar × Value) : Prop :=
  (∃ t, e.1 = .text t ∧ Legible t) ∧ e.2.Plain

theorem plain_ofEntries {members : List (Scalar × Value)} (h : ∀ e ∈ members, IsPlainMember e) :
    (Value.mapping (Table.ofEntries members)).Plain := by
  have hall := Table.forall_ofEntries (P := fun k => ∃ t, k = .text t ∧ Legible t)
    (Q := Value.Plain) h
  exact .mapping (fun e he => (hall e he).1) (Table.distinct_ofEntries members)
    fun e he => (hall e he).2

/-- What is read with some fuel is plain. -/
structure ReadsPlain (fuel : Nat) : Prop where
  value : ∀ {place text r}, valueFrom fuel place text = .ok r → r.value.Plain
  items : ∀ {place text r}, itemsFrom fuel place text = .ok r → ∀ v ∈ r.value, v.Plain
  members : ∀ {place text r}, membersFrom fuel place text = .ok r →
    ∀ e ∈ r.value, IsPlainMember e

section Step

variable {fuel place : Nat} {text : List Char}

theorem plain_valueFrom (h : ReadsPlain fuel) {r : Read Value}
    (hread : valueFrom (fuel + 1) place text = .ok r) : r.value.Plain := by
  unfold valueFrom at hread
  split at hread
  · split at hread
    · next hstring =>
        cases hread
        exact .text (legible_ofPoints (joinedFrom_stringFrom hstring).joined_eq)
    · cases hread
  · dsimp only at hread
    split at hread
    · cases hread
      exact .list (by simp)
    · split at hread
      · next items hitems =>
          cases hread
          exact .list (h.items hitems)
      · cases hread
  · dsimp only at hread
    split at hread
    · cases hread
      exact .mapping (by simp [LegibleKeys]) List.Pairwise.nil (by simp)
    · split at hread
      · next members hmembers =>
          cases hread
          exact plain_ofEntries (h.members hmembers)
      · cases hread
  · split at hread
    · next s hs =>
        cases hread
        exact .scalar (isSome_scalarFrom hs)
    · cases hread

theorem plain_itemsFrom (h : ReadsPlain fuel) {r : Read (List Value)}
    (hread : itemsFrom (fuel + 1) place text = .ok r) : ∀ v ∈ r.value, v.Plain := by
  unfold itemsFrom at hread
  split at hread
  · cases hread
  · next item hitem =>
      have hplain := h.value hitem
      dsimp only at hread
      split at hread
      · cases hread
        simpa using hplain
      · split at hread
        · next items hitems =>
            cases hread
            exact List.forall_mem_cons.mpr ⟨hplain, h.items hitems⟩
        · cases hread
      · cases hread

theorem plain_membersFrom (h : ReadsPlain fuel) {r : Read (List (Scalar × Value))}
    (hread : membersFrom (fuel + 1) place text = .ok r) : ∀ e ∈ r.value, IsPlainMember e := by
  unfold membersFrom at hread
  split at hread
  · split at hread
    · cases hread
    · next name hname =>
        have hlegible := legible_ofPoints (joinedFrom_stringFrom hname).joined_eq
        dsimp only at hread
        split at hread
        · split at hread
          · cases hread
          · next value hvalue =>
              have hplain := h.value hvalue
              split at hread
              · cases hread
                exact List.forall_mem_singleton.mpr ⟨⟨_, rfl, hlegible⟩, hplain⟩
              · split at hread
                · next members hmembers =>
                    cases hread
                    exact List.forall_mem_cons.mpr
                      ⟨⟨⟨_, rfl, hlegible⟩, hplain⟩, h.members hmembers⟩
                · cases hread
              · cases hread
        · cases hread
  · cases hread

end Step

theorem readsPlain (fuel : Nat) : ReadsPlain fuel := by
  induction fuel with
  | zero =>
      constructor
      case value =>
        intro place text r h
        cases h
      case items =>
        intro place text r h
        cases h
      case members =>
        intro place text r h
        cases h
  | succ fuel ih => exact ⟨plain_valueFrom ih, plain_itemsFrom ih, plain_membersFrom ih⟩

/-- What a text spells is plain. -/
theorem plain_parse {text : String} {v : Value} (h : parse text = .ok v) : v.Plain := by
  rw [parse, parseChars] at h
  split at h
  · cases h
  · dsimp only at h
    cases hvalue : valueFrom (2 * text.toList.length + 2) (skipSpace 0 text.toList).place
        (skipSpace 0 text.toList).rest with
    | error e =>
        rw [hvalue] at h
        cases h
    | ok r =>
        rw [hvalue] at h
        dsimp only at h
        split at h
        · cases h
          exact (readsPlain _).value hvalue
        · cases h

end Json

/-! ## Equality of parts -/

/-- Equality of scalars that are parts of something. One object equals itself there, whatever it
equals as a value, and what is not a number is one object wherever it has been read. -/
def Scalar.equals (a b : Scalar) : Bool :=
  a = b || a.same b

namespace Value

mutual

/-- Equality of values that are parts of something. Mappings are compared whatever their order. -/
def equals : Value → Value → Bool
  | .scalar a, .scalar b => a.equals b
  | .list a, .list b => equalItems a b
  | .mapping a, .mapping b => a.length == b.length && equalEntries a b
  | _, _ => false
termination_by structural v => v

def equalItems : List Value → List Value → Bool
  | [], [] => true
  | a :: as, b :: bs => a.equals b && equalItems as bs
  | _, _ => false
termination_by structural v => v

/-- Whether every entry of the first mapping has its equal in the second. -/
def equalEntries : List (Scalar × Value) → List (Scalar × Value) → Bool
  | [], _ => true
  | (k, v) :: rest, other => (Table.lookup other k).any v.equals && equalEntries rest other
termination_by structural v => v

end

theorem equalItems_map {items : List Value} {f : Value → Value}
    (h : ∀ v ∈ items, (f v).equals v = true) : equalItems (items.map f) items = true := by
  induction items with
  | nil => rfl
  | cons v items ih =>
      obtain ⟨hv, hitems⟩ := List.forall_mem_cons.mp h
      simp [equalItems, hv, ih hitems]

theorem equalEntries_eq (entries other : List (Scalar × Value)) : equalEntries entries other =
    entries.all fun e => (Table.lookup other e.1).any e.2.equals := by
  induction entries with
  | nil => rfl
  | cons e entries ih => rw [equalEntries, ih, List.all_cons]

/-- The ordered form of a plain value equals the value. -/
theorem equals_ordered {v : Value} (h : v.Plain) : v.ordered.equals v = true := by
  induction h with
  | scalar | text => simp [equals, Scalar.equals]
  | list _ ih =>
      rw [ordered_list, equals]
      exact equalItems_map ih
  | @mapping entries _ distinct _ ih =>
      have hperm := Table.sorted_perm (entries.map fun e => (e.1, e.2.ordered))
      rw [ordered_mapping, equals, equalEntries_eq, hperm.length_eq, List.length_map,
        beq_self_eq_true, Bool.true_and, List.all_eq_true]
      intro e he
      obtain ⟨e, hmem, rfl⟩ := List.mem_map.mp (hperm.mem_iff.mp he)
      have hlookup : Table.lookup entries e.1 = some e.2 :=
        distinct.lookup_eq_some_iff.mpr ⟨e.1, hmem, Scalar.sameKey_refl _⟩
      rw [hlookup, Option.any_some]
      exact ih e hmem

end Value

end Dialogue
