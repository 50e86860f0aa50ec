import Dialogue.Value.Basic

/-! What a table holds after a write and after a list of writes: under each key the value written
last, and the keys in the order in which they were first written. -/

namespace Dialogue

namespace Scalar

theorem sameKey_iff {a b : Scalar} : a.sameKey b = true ↔ a.norm = b.norm := by
  simp [sameKey]

theorem sameKey_comm (a b : Scalar) : a.sameKey b = b.sameKey a := by
  simp [sameKey, eq_comm]

theorem sameKey_congr {a b : Scalar} (h : a.sameKey b = true) (k : Scalar) :
    a.sameKey k = b.sameKey k := by
  simp [sameKey, sameKey_iff.mp h]

end Scalar

namespace Table

variable {α : Type}

def Distinct (t : Table α) : Prop :=
  t.Pairwise fun a b => a.1.sameKey b.1 = false

theorem lookup_cons (k : Scalar) (v : α) (t : Table α) (key : Scalar) :
    lookup ((k, v) :: t) key = if k.sameKey key then some v else lookup t key := by
  simp only [lookup, List.find?_cons]
  split <;> simp_all

theorem lookup_congr {a b : Scalar} (h : a.sameKey b = true) (t : Table α) :
    lookup t a = lookup t b := by
  induction t with
  | nil => rfl
  | cons e t ih =>
      obtain ⟨k, v⟩ := e
      rw [lookup_cons, lookup_cons, ih, Scalar.sameKey_comm k, Scalar.sameKey_congr h,
        Scalar.sameKey_comm b]

/-! ## One write -/

theorem lookup_put (t : Table α) (k : Scalar) (v : α) (key : Scalar) :
    lookup (put t k v) key = if k.sameKey key then some v else lookup t key := by
  induction t with
  | nil => exact lookup_cons k v [] key
  | cons e t ih =>
      obtain ⟨k₀, v₀⟩ := e
      rw [put]
      split
      · rename_i h
        simp only [lookup_cons, Scalar.sameKey_congr h key]
        split <;> rfl
      · rename_i h
        simp only [lookup_cons, ih]
        by_cases h₀ : k₀.sameKey key = true
        · have hne : k.sameKey key = false := by
            rw [Scalar.sameKey_comm, ← Scalar.sameKey_congr h₀, Bool.eq_false_iff]
            exact h
          simp [h₀, hne]
        · simp [h₀]

theorem put_of_has_eq_false {t : Table α} {k : Scalar} (h : has t k = false) (v : α) :
    put t k v = t ++ [(k, v)] := by
  induction t with
  | nil => rfl
  | cons e t ih =>
      simp only [has, List.any_cons, Bool.or_eq_false_iff] at h
      rw [put, h.1, ih h.2]
      rfl

theorem keys_put (t : Table α) (k : Scalar) (v : α) :
    keys (put t k v) = if has t k then keys t else keys t ++ [k] := by
  induction t with
  | nil => rfl
  | cons e t ih =>
      obtain ⟨k₀, v₀⟩ := e
      rw [put]
      simp only [keys, List.map_cons, has, List.any_cons] at ih ⊢
      by_cases h : k₀.sameKey k = true
      · simp [h]
      · simp only [h, Bool.false_or, Bool.false_eq_true, if_false, List.map_cons, ih]
        split <;> rename_i hany <;> simp [hany]

/-! ## Writes in turn -/

/-- The last write under a key counts, and what was there before it does not. -/
theorem lookup_foldl_put (entries : List (Scalar × α)) (t : Table α) (key : Scalar) :
    lookup (entries.foldl (fun t e => put t e.1 e.2) t) key =
      ((entries.filter fun e => e.1.sameKey key).getLast?.map (·.2)).or (lookup t key) := by
  induction entries generalizing t with
  | nil => rfl
  | cons e entries ih =>
      rw [List.foldl_cons, ih, lookup_put, List.filter_cons]
      split
      · rw [List.getLast?_cons]
        cases (entries.filter fun e => e.1.sameKey key).getLast? <;> rfl
      · rfl

theorem lookup_ofEntries (entries : List (Scalar × α)) (key : Scalar) :
    lookup (ofEntries entries) key =
      (entries.filter fun e => e.1.sameKey key).getLast?.map (·.2) := by
  rw [ofEntries, lookup_foldl_put]
  exact Option.or_none

/-- Entries with keys of their own are written one behind the other. -/
theorem foldl_put_of_distinct (entries t : Table α) (h : Distinct (t ++ entries)) :
    entries.foldl (fun t e => put t e.1 e.2) t = t ++ entries := by
  induction entries generalizing t with
  | nil => simp
  | cons e entries ih =>
      have hnew : has t e.1 = false := by
        rw [has, List.any_eq_false]
        intro e' he'
        simp [(List.pairwise_append.mp h).2.2 e' he' e (by simp)]
      rw [List.foldl_cons, put_of_has_eq_false hnew, ih _ (by simpa using h)]
      simp

theorem ofEntries_of_distinct {t : Table α} (h : Distinct t) : ofEntries t = t :=
  foldl_put_of_distinct t [] h

/-! ## Keys that are texts -/

theorem has_eq_decide_of_keys {t : Table α} {ids : List String}
    (h : keys t = ids.map fun s : String => Scalar.text s) (id : String) :
    has t (.text id) = decide (id ∈ ids) := by
  have hkeys : has t (.text id) = (keys t).any fun k => k.sameKey (.text id) := by
    simp [has, keys, List.any_map, Function.comp_def]
  rw [hkeys, h, List.any_map, Bool.eq_iff_iff]
  simp [Scalar.sameKey_text, List.any_eq_true, Function.comp_def]

theorem keys_foldl_put_text {β : Type} (id : β → String) (value : β → α) (bs : List β)
    (t : Table α) (ids : List String)
    (h : keys t = ids.eraseDups.map fun s : String => Scalar.text s) :
    keys ((bs.map fun b => (Scalar.text (id b), value b)).foldl (fun t e => put t e.1 e.2) t) =
      (ids ++ bs.map id).eraseDups.map fun s : String => Scalar.text s := by
  induction bs generalizing t ids with
  | nil => simpa using h
  | cons b bs ih =>
      have hput : keys (put t (.text (id b)) (value b)) =
          (ids ++ [id b]).eraseDups.map fun s : String => Scalar.text s := by
        rw [keys_put, has_eq_decide_of_keys h, h, List.eraseDups_append]
        by_cases hb : id b ∈ ids
        · simp [hb, List.removeAll]
        · simp [hb, List.removeAll, List.eraseDups_cons]
      simpa using ih _ (ids ++ [id b]) hput

/-- The keys of a table are those that were written, in the order of their first writes. -/
theorem keys_ofEntries_text {β : Type} (id : β → String) (value : β → α) (bs : List β) :
    keys (ofEntries (bs.map fun b => (Scalar.text (id b), value b))) =
      (bs.map id).eraseDups.map fun s : String => Scalar.text s :=
  keys_foldl_put_text id value bs [] [] rfl

end Table

end Dialogue
