import Mathlib.Data.List.Dedup
import Dialogue.Proofs.Value.Table

/-! The keys of elements in the order in which they first occur, and the elements under each of
them. No element is lost and none is doubled. -/

namespace Dialogue

section FirstOccurrences

variable {α β : Type} [DecidableEq α]

theorem nodup_eraseDups (l : List α) : l.eraseDups.Nodup := by
  induction hn : l.length using Nat.strongRecOn generalizing l with
  | ind n ih =>
      cases l with
      | nil => simp
      | cons a l =>
          rw [List.eraseDups_cons, List.nodup_cons, List.mem_eraseDups]
          have hlt : (l.filter fun b => !b == a).length < n := by
            rw [← hn]
            exact Nat.lt_succ_of_le (List.length_filter_le _ l)
          exact ⟨by simp, ih _ hlt _ rfl⟩

theorem perm_eraseDups (l : List α) : l.eraseDups.Perm l.dedup := by
  rw [List.perm_ext_iff_of_nodup (nodup_eraseDups l) (List.nodup_dedup l)]
  simp

theorem nodup_of_length_eraseDups {l : List α} (h : l.eraseDups.length = l.length) : l.Nodup := by
  rw [(perm_eraseDups l).length_eq] at h
  exact (List.dedup_sublist l).eq_of_length h ▸ List.nodup_dedup l

/-- The groups of all keys are the elements again. -/
theorem flatMap_filter_perm (key : β → α) {keys : List α} (hkeys : keys.Nodup) {l : List β}
    (h : ∀ b ∈ l, key b ∈ keys) : (keys.flatMap fun k => l.filter fun b => key b = k).Perm l := by
  induction l with
  | nil => simp
  | cons b l ih =>
      obtain ⟨hb, hl⟩ := List.forall_mem_cons.mp h
      obtain ⟨before, after, rfl⟩ := List.append_of_mem hb
      obtain ⟨-, hmiddle, hapart⟩ := List.nodup_append.mp hkeys
      have hother : ∀ {k}, key b ≠ k →
          ((b :: l).filter fun c => key c = k) = l.filter fun c => key c = k := by
        intro k hk
        rw [List.filter_cons_of_neg (by simpa using hk)]
      have hbefore : (before.flatMap fun k => (b :: l).filter fun c => key c = k) =
          before.flatMap fun k => l.filter fun c => key c = k :=
        List.flatMap_congr fun k hk => hother (hapart k hk _ (List.mem_cons_self ..)).symm
      have hafter : (after.flatMap fun k => (b :: l).filter fun c => key c = k) =
          after.flatMap fun k => l.filter fun c => key c = k :=
        List.flatMap_congr fun k hk => hother fun heq =>
          (List.nodup_cons.mp hmiddle).1 (heq ▸ hk)
      have hrest := ih hl
      rw [List.flatMap_append, List.flatMap_cons] at hrest ⊢
      rw [hbefore, hafter, List.filter_cons_of_pos (by simp), List.cons_append]
      exact List.perm_middle.trans (hrest.cons b)

end FirstOccurrences

namespace Table

variable {α : Type}

/-! ## Tables under distinct texts -/

theorem lookup_map_text {keys : List String} (f : String → α) (key : String) :
    lookup (keys.map fun k : String => (Scalar.text k, f k)) (.text key) =
      if key ∈ keys then some (f key) else none := by
  induction keys with
  | nil => rfl
  | cons k keys ih =>
      rw [List.map_cons, lookup_cons, ih, Scalar.sameKey_text]
      by_cases hk : k = key
      · simp [hk]
      · simp [hk, Ne.symm hk]

theorem put_map_text {keys : List String} (hkeys : keys.Nodup) (f : String → α) (key : String)
    (v : α) : put (keys.map fun k : String => (Scalar.text k, f k)) (.text key) v =
      (if key ∈ keys then keys else keys ++ [key]).map fun k : String =>
        (Scalar.text k, if k = key then v else f k) := by
  induction keys with
  | nil => simp [put]
  | cons k keys ih =>
      obtain ⟨hk, hkeys⟩ := List.nodup_cons.mp hkeys
      rw [List.map_cons, put, ih hkeys, Scalar.sameKey_text]
      by_cases heq : k = key
      · subst heq
        have hrest : (keys.map fun j : String => (Scalar.text j, if j = k then v else f j)) =
            keys.map fun j : String => (Scalar.text j, f j) := by
          refine List.map_congr_left fun j hj => ?_
          rw [if_neg fun hjk : j = k => hk (hjk ▸ hj)]
        simp [hrest]
      · by_cases hmem : key ∈ keys <;> simp [heq, Ne.symm heq, hmem]

/-- Pairs of texts by their first parts, in the order in which these first occur. -/
def groups (pairs : List (String × String)) : Table (List Value) :=
  (pairs.map (·.1)).eraseDups.map fun key : String =>
    (.text key, (pairs.filter fun p => p.1 = key).map fun p => .text p.2)

theorem put_groups (pairs : List (String × String)) (p : String × String) :
    put (groups pairs) (.text p.1) ((lookup (groups pairs) (.text p.1)).getD [] ++ [.text p.2]) =
      groups (pairs ++ [p]) := by
  obtain ⟨key, value⟩ := p
  have hlookup : (lookup (groups pairs) (.text key)).getD [] =
      (pairs.filter fun p => p.1 = key).map fun p => Value.text p.2 := by
    rw [groups, lookup_map_text]
    split
    · rfl
    · rename_i hnew
      rw [List.mem_eraseDups] at hnew
      have hnone : pairs.filter (fun p => p.1 = key) = [] :=
        List.filter_eq_nil_iff.mpr fun p hp => by
          have hne : p.1 ≠ key := fun heq => hnew (heq ▸ List.mem_map_of_mem hp)
          simpa using hne
      rw [hnone]
      rfl
  have hkeys : ((pairs ++ [(key, value)]).map (·.1)).eraseDups =
      if key ∈ (pairs.map (·.1)).eraseDups then (pairs.map (·.1)).eraseDups
      else (pairs.map (·.1)).eraseDups ++ [key] := by
    rw [List.map_append, List.eraseDups_append]
    simp only [List.mem_eraseDups]
    by_cases hmem : key ∈ pairs.map (·.1)
    · simp [List.removeAll, hmem]
    · simp [List.removeAll, hmem, List.eraseDups_cons]
  rw [hlookup, groups, put_map_text (nodup_eraseDups _), groups, hkeys]
  refine List.map_congr_left fun k _ => ?_
  rw [List.filter_append]
  by_cases hk : k = key
  · simp [hk]
  · simp [hk, Ne.symm hk]

theorem flatMap_groups_perm (pairs : List (String × String)) :
    ((groups pairs).flatMap fun e => e.2.map fun v => (Value.scalar e.1, v)).Perm
      (pairs.map fun p => (Value.text p.1, Value.text p.2)) := by
  have hperm := flatMap_filter_perm (fun p : String × String => p.1)
    (nodup_eraseDups (pairs.map (·.1))) (l := pairs)
    fun p hp => List.mem_eraseDups.mpr (List.mem_map_of_mem hp)
  refine List.Perm.trans (List.Perm.of_eq ?_) (hperm.map _)
  rw [groups, List.flatMap_map, List.map_flatMap]
  refine List.flatMap_congr fun k _ => ?_
  rw [List.map_map]
  refine List.map_congr_left fun p hp => ?_
  have : p.1 = k := by simpa using (List.mem_filter.mp hp).2
  simp [this]

end Table

end Dialogue
