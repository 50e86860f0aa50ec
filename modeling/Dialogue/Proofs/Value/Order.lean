import Dialogue.Proofs.Text.Loose
import Dialogue.Proofs.Value.Table
import Dialogue.Value.Order
import Mathlib.Data.List.Sort

/-! Keys that are texts are all ordered among each other, so sorting by them gives the same elements
in ascending order. Where no key stands twice there is one such order, and what order the elements
were in before does not count. -/

namespace Dialogue

theorem bind_eq_ok {ε α β : Type} {x : Except ε α} {f : α → Except ε β} {b : β} :
    x >>= f = .ok b ↔ ∃ a, x = .ok a ∧ f a = .ok b := by
  cases x <;> simp [bind, Except.bind]

theorem exists_of_mapM_eq_ok {ε α β : Type} {f : α → Except ε β} {as : List α} {bs : List β}
    (h : as.mapM f = .ok bs) : ∀ a ∈ as, ∃ b, f a = .ok b := by
  induction as generalizing bs with
  | nil => simp
  | cons a as ih =>
      rw [List.mapM_cons] at h
      obtain ⟨b, hb, h⟩ := bind_eq_ok.mp h
      obtain ⟨bs, hbs, -⟩ := bind_eq_ok.mp h
      exact List.forall_mem_cons.mpr ⟨⟨b, hb⟩, ih hbs⟩

namespace Scalar

/-- The text that a text is. -/
def loose : Scalar → Text.Loose
  | .text t => t
  | _ => ""

@[simp]
theorem loose_text (t : Text.Loose) : (text t).loose = t := rfl

/-- The characters of a text without surrogates. -/
def name (s : Scalar) : String :=
  s.loose.front

variable {α : Type} {key : α → Scalar} {name : α → Text.Loose} {items : List α}

/-- Keys that are texts, namely the names. -/
def Named (key : α → Scalar) (name : α → Text.Loose) (items : List α) : Prop :=
  ∀ a ∈ items, key a = .text (name a)

/-- Elements in ascending order of their names. -/
def Ascending (name : α → Text.Loose) (items : List α) : Prop :=
  items.Pairwise fun a b => name a ≤ name b

theorem compare_text (s t : Text.Loose) : compare (.text s) (.text t) = .ok (decide (s < t)) := rfl

theorem Named.of_cons {a : α} (h : Named key name (a :: items)) : Named key name items :=
  fun b hb => h b (List.mem_cons_of_mem a hb)

theorem Named.mono {other : List α} (h : Named key name items) (hsub : ∀ a ∈ other, a ∈ items) :
    Named key name other :=
  fun a ha => h a (hsub a ha)

/-! ## The run at the front -/

/-- Whether `b` may follow `a` in a run. -/
def Follows (name : α → Text.Loose) (descending : Bool) (a b : α) : Prop :=
  decide (name b < name a) = descending

theorem runLength_go (h : Named key name items) (descending : Bool) {b : α}
    (hb : key b = .text (name b)) (n : Nat) : ∃ k ≤ items.length,
      runLength.go key descending b n items = .ok (n + k) ∧
        (b :: items.take k).IsChain (Follows name descending) := by
  induction items generalizing b n with
  | nil => exact ⟨0, Nat.le_refl _, rfl, .singleton _⟩
  | cons c items ih =>
      have hc := h c (List.mem_cons_self ..)
      rw [runLength.go, hc, hb, compare_text]
      simp only [bind, Except.bind]
      by_cases hcompare : decide (name c < name b) = descending
      · obtain ⟨k, hk, hgo, hchain⟩ := ih h.of_cons hc (n + 1)
        refine ⟨k + 1, Nat.succ_le_succ hk, ?_, ?_⟩
        · rw [if_pos (beq_iff_eq.mpr hcompare), hgo, Nat.add_assoc, Nat.add_comm 1]
        · rw [List.take_succ_cons]
          exact .cons_cons hcompare hchain
      · refine ⟨0, Nat.zero_le _, ?_, .singleton _⟩
        rw [if_neg (mt beq_iff_eq.mp hcompare)]
        rfl

theorem runLength_text (h : Named key name items) : ∃ n descending,
    runLength key items = .ok (n, descending) ∧
      (items.take n).IsChain (Follows name descending) := by
  cases items with
  | nil => exact ⟨0, false, rfl, .nil⟩
  | cons a items =>
      cases items with
      | nil => exact ⟨1, false, rfl, .singleton _⟩
      | cons b items =>
          have ha := h a (List.mem_cons_self ..)
          have hb := h b (List.mem_cons_of_mem _ (List.mem_cons_self ..))
          obtain ⟨k, hk, hgo, hchain⟩ := runLength_go h.of_cons.of_cons
            (decide (name b < name a)) hb 2
          refine ⟨2 + k, decide (name b < name a), ?_, ?_⟩
          · rw [runLength, ha, hb, compare_text]
            simp only [bind, Except.bind, hgo]
            rfl
          · rw [Nat.add_comm, List.take_succ_cons, List.take_succ_cons]
            exact .cons_cons rfl hchain

theorem ascending_of_run {descending : Bool} (h : items.IsChain (Follows name descending)) :
    Ascending name (if descending then items.reverse else items) := by
  cases descending
  · have : Trans (α := α) (fun a b => name a ≤ name b) (fun a b => name a ≤ name b)
        (fun a b => name a ≤ name b) := ⟨le_trans⟩
    exact (h.imp fun _ _ hab => not_lt.mp (of_decide_eq_false hab)).pairwise
  · have : Trans (α := α) (fun a b => name b ≤ name a) (fun a b => name b ≤ name a)
        (fun a b => name b ≤ name a) := ⟨fun hab hbc => le_trans hbc hab⟩
    exact List.pairwise_reverse.mpr (h.imp fun _ _ hab => (of_decide_eq_true hab).le).pairwise

/-! ## Insertion -/

/-- A place behind all elements that are not greater, and in front of those that are. -/
def SplitsAt (name : α → Text.Loose) (x : α) (items : List α) (low high : Nat) : Prop :=
  (∀ a ∈ items.take low, name a ≤ name x) ∧ ∀ a ∈ items.drop high, name x < name a

theorem SplitsAt.lower {x y : α} {low high middle : Nat} (hasc : Ascending name items)
    (h : SplitsAt name x items low high) (hy : items[middle]? = some y) (hlt : name x < name y) :
    SplitsAt name x items low middle := by
  obtain ⟨hmiddle, rfl⟩ := List.getElem?_eq_some_iff.mp hy
  refine ⟨h.1, fun a ha => ?_⟩
  have hsorted := (List.pairwise_append.mp ((List.take_append_drop middle items).symm ▸ hasc)).2.1
  rw [List.drop_eq_getElem_cons hmiddle] at ha hsorted
  rcases List.mem_cons.mp ha with rfl | ha
  · exact hlt
  · exact hlt.trans_le (List.rel_of_pairwise_cons hsorted ha)

theorem SplitsAt.raise {x y : α} {low high middle : Nat} (hasc : Ascending name items)
    (h : SplitsAt name x items low high) (hy : items[middle]? = some y) (hle : ¬ name x < name y) :
    SplitsAt name x items (middle + 1) high := by
  obtain ⟨hmiddle, rfl⟩ := List.getElem?_eq_some_iff.mp hy
  refine ⟨fun a ha => ?_, h.2⟩
  have hsorted :=
    (List.pairwise_append.mp ((List.take_append_drop (middle + 1) items).symm ▸ hasc)).1
  rw [List.take_succ_eq_append_getElem hmiddle] at ha hsorted
  rcases List.mem_append.mp ha with ha | ha
  · exact ((List.pairwise_append.mp hsorted).2.2 a ha _ (by simp)).trans (not_lt.mp hle)
  · rw [List.mem_singleton.mp ha]
    exact not_lt.mp hle

theorem insertionPlace_go {x : α} (hx : key x = .text (name x)) (sorted : Array α)
    (h : Named key name sorted.toList) (hasc : Ascending name sorted.toList) (low high : Nat)
    (hle : low ≤ high) (hhigh : high ≤ sorted.size)
      (hsplit : SplitsAt name x sorted.toList low high) :
    ∃ place ≤ sorted.size, insertionPlace.go key x sorted low high = .ok place ∧
      SplitsAt name x sorted.toList place place := by
  -- What is below the lower bound is not greater than `x`, and what is above the upper one is.
  induction low, high using insertionPlace.go.induct key x sorted with
  | case1 low high hlt middle hnone =>
      have : middle < sorted.size := by omega
      simp [this] at hnone
  | case2 low high hlt middle y hy e he =>
      have hmem : y ∈ sorted.toList := Array.mem_def.mp (Array.mem_of_getElem? hy)
      rw [hx, h y hmem, compare_text] at he
      cases he
  | case3 low high hlt middle y hy he ih =>
      have hmem : y ∈ sorted.toList := Array.mem_def.mp (Array.mem_of_getElem? hy)
      have hcompare := he
      rw [hx, h y hmem, compare_text] at hcompare
      obtain ⟨place, hbound, hgo, hplace⟩ := ih (by omega) (by omega)
        (hsplit.lower hasc (by simpa using hy) (of_decide_eq_true (Except.ok.inj hcompare)))
      refine ⟨place, hbound, ?_, hplace⟩
      have hy' : sorted[(low + high) / 2]? = some y := hy
      rw [insertionPlace.go, dif_pos hlt]
      simp only [hy', he]
      exact hgo
  | case4 low high hlt middle y hy he ih =>
      have hmem : y ∈ sorted.toList := Array.mem_def.mp (Array.mem_of_getElem? hy)
      have hcompare := he
      rw [hx, h y hmem, compare_text] at hcompare
      obtain ⟨place, hbound, hgo, hplace⟩ := ih (by omega) (by omega)
        (hsplit.raise hasc (by simpa using hy) (of_decide_eq_false (Except.ok.inj hcompare)))
      refine ⟨place, hbound, ?_, hplace⟩
      have hy' : sorted[(low + high) / 2]? = some y := hy
      rw [insertionPlace.go, dif_pos hlt]
      simp only [hy', he]
      exact hgo
  | case5 low high hge =>
      obtain rfl : low = high := by omega
      refine ⟨low, hhigh, ?_, hsplit⟩
      rw [insertionPlace.go, dif_neg hge]

/-- An element is inserted behind all elements that are not greater. -/
theorem insertionPlace_text {x : α} (hx : key x = .text (name x)) {sorted : List α}
    (h : Named key name sorted) (hasc : Ascending name sorted) :
    ∃ place ≤ sorted.length, insertionPlace key x sorted.toArray = .ok place ∧
      SplitsAt name x sorted place place := by
  refine insertionPlace_go hx sorted.toArray h hasc 0 _ (Nat.zero_le _) (Nat.le_refl _) ?_
  exact ⟨by simp, by simp⟩

theorem insertIdx_eq {x : α} {place : Nat} (h : place ≤ items.length) :
    items.insertIdx place x = items.take place ++ x :: items.drop place := by
  induction items generalizing place with
  | nil =>
      obtain rfl : place = 0 := by simpa using h
      rfl
  | cons a items ih =>
      cases place with
      | zero => rfl
      | succ place =>
          rw [List.insertIdx_succ_cons, ih (Nat.le_of_succ_le_succ h)]
          rfl

theorem SplitsAt.ascending {x : α} {place : Nat} (hasc : Ascending name items)
    (h : SplitsAt name x items place place) (hplace : place ≤ items.length) :
    Ascending name (items.insertIdx place x) := by
  obtain ⟨htake, hdrop, hboth⟩ :=
    List.pairwise_append.mp ((List.take_append_drop place items).symm ▸ hasc)
  rw [insertIdx_eq hplace]
  refine List.pairwise_append.mpr ⟨htake, ?_, fun a ha b hb => ?_⟩
  · exact List.pairwise_cons.mpr ⟨fun a ha => (h.2 a ha).le, hdrop⟩
  · rcases List.mem_cons.mp hb with rfl | hb
    · exact h.1 a ha
    · exact hboth a ha b hb

/-! ## Sorting -/

theorem exists_foldlM_insert {rest sorted : List α} (hrest : Named key name rest)
    (hsorted : Named key name sorted) (hasc : Ascending name sorted) :
    ∃ result : Array α, rest.foldlM (fun sorted x => do
        let place ← insertionPlace key x sorted
        return sorted.toList.insertIdx place x |>.toArray) sorted.toArray = .ok result ∧
      result.toList.Perm (sorted ++ rest) ∧ Ascending name result.toList := by
  induction rest generalizing sorted with
  | nil => exact ⟨sorted.toArray, rfl, by simp, hasc⟩
  | cons x rest ih =>
      have hx := hrest x (List.mem_cons_self ..)
      obtain ⟨place, hbound, hplace, hsplit⟩ := insertionPlace_text hx hsorted hasc
      have hperm := List.perm_insertIdx x sorted hbound
      have hnamed : Named key name (sorted.insertIdx place x) := by
        intro a ha
        rcases List.mem_cons.mp (hperm.mem_iff.mp ha) with rfl | ha
        · exact hx
        · exact hsorted a ha
      obtain ⟨result, hfold, hresult, hascending⟩ :=
        ih hrest.of_cons hnamed (hsplit.ascending hasc hbound)
      refine ⟨result, ?_, hresult.trans ?_, hascending⟩
      · rw [List.foldlM_cons, hplace]
        exact hfold
      · exact (hperm.append_right rest).trans List.perm_middle.symm

theorem exists_sortedBy (h : Named key name items) : ∃ sorted, sortedBy key items = .ok sorted ∧
    sorted.Perm items ∧ Ascending name sorted := by
  obtain ⟨n, descending, hrun, hchain⟩ := runLength_text h
  have hasc := ascending_of_run hchain
  have hperm : (if descending then (items.take n).reverse else items.take n).Perm
    (items.take n) := by
    cases descending
    · exact .refl _
    · exact List.reverse_perm _
  obtain ⟨result, hfold, hresult, hascending⟩ := exists_foldlM_insert
    (h.mono fun a ha => List.mem_of_mem_drop ha)
    (h.mono fun a ha => List.mem_of_mem_take (hperm.mem_iff.mp ha)) hasc
  refine ⟨result.toList, ?_, ?_, hascending⟩
  · rw [sortedBy, hrun]
    simp only [bind, Except.bind] at hfold ⊢
    rw [hfold]
    rfl
  · refine hresult.trans ((hperm.append_right _).trans ?_)
    rw [List.take_append_drop]

theorem mem_of_foldlM_insert {rest : List α} {sorted result : Array α}
    (h : rest.foldlM (fun sorted x => do
      let place ← insertionPlace key x sorted
      return sorted.toList.insertIdx place x |>.toArray) sorted = .ok result) {a : α}
    (ha : a ∈ result.toList) : a ∈ sorted.toList ∨ a ∈ rest := by
  induction rest generalizing sorted with
  | nil =>
      cases h
      exact .inl ha
  | cons x rest ih =>
      rw [List.foldlM_cons] at h
      obtain ⟨inserted, hinserted, h⟩ := bind_eq_ok.mp h
      obtain ⟨place, -, hinserted⟩ := bind_eq_ok.mp hinserted
      cases hinserted
      rcases ih h with hmem | hmem
      · have hmem : a ∈ sorted.toList.insertIdx place x := hmem
        by_cases hplace : place ≤ sorted.toList.length
        · rcases (List.mem_insertIdx hplace).mp hmem with rfl | hmem
          · exact .inr (List.mem_cons_self ..)
          · exact .inl hmem
        · rw [List.insertIdx_of_length_lt (Nat.not_le.mp hplace)] at hmem
          exact .inl hmem
      · exact .inr (List.mem_cons_of_mem _ hmem)

theorem mem_of_sortedBy {sorted : List α} (h : sortedBy key items = .ok sorted) {a : α}
    (ha : a ∈ sorted) : a ∈ items := by
  rw [sortedBy] at h
  obtain ⟨⟨n, descending⟩, -, h⟩ := bind_eq_ok.mp h
  obtain ⟨result, hresult, h⟩ := bind_eq_ok.mp h
  cases h
  rcases mem_of_foldlM_insert hresult ha with hmem | hmem
  · cases descending
    · exact List.mem_of_mem_take hmem
    · exact List.mem_of_mem_take (List.mem_reverse.mp hmem)
  · exact List.mem_of_mem_drop hmem

/-- With no name twice, there is one ascending order. -/
theorem eq_of_ascending {sorted other : List α} (hdistinct : (items.map name).Nodup)
    (hperm : sorted.Perm items) (hperm' : other.Perm items) (h : Ascending name sorted)
    (h' : Ascending name other) : sorted = other := by
  refine List.Perm.eq_of_pairwise ?_ h h' (hperm.trans hperm'.symm)
  intro a b ha hb hab hba
  exact List.inj_on_of_nodup_map hdistinct (hperm.mem_iff.mp ha) (hperm'.mem_iff.mp hb)
    (le_antisymm hab hba)

end Scalar

namespace Table

variable {α β : Type} {t u : Table α}

/-- A table with a text for every key. -/
def TextKeyed (t : Table α) : Prop :=
  Scalar.Named Prod.fst (fun e => e.1.loose) t

/-- A table with a text without surrogates for every key. -/
def Textual (t : Table α) : Prop :=
  Scalar.Named Prod.fst (fun e => e.1.name) t

theorem Textual.textKeyed (h : t.Textual) : t.TextKeyed := by
  intro e he
  obtain ⟨s, hs⟩ : ∃ s : String, e.1 = .text s := ⟨_, h e he⟩
  simp only [hs, Scalar.loose]

def sorted (t : Table α) : Table α :=
  t.mergeSort fun a b => a.1.loose ≤ b.1.loose

theorem sorted_perm (t : Table α) : t.sorted.Perm t :=
  List.mergeSort_perm t _

theorem ascending_sorted (t : Table α) : Scalar.Ascending (fun e => e.1.loose) t.sorted := by
  have htrans : ∀ a b c : Scalar × α, decide (a.1.loose ≤ b.1.loose) = true →
      decide (b.1.loose ≤ c.1.loose) = true → decide (a.1.loose ≤ c.1.loose) = true := by
    intro a b c hab hbc
    exact decide_eq_true (le_trans (of_decide_eq_true hab) (of_decide_eq_true hbc))
  have htotal : ∀ a b : Scalar × α,
      (decide (a.1.loose ≤ b.1.loose) || decide (b.1.loose ≤ a.1.loose)) = true := by
    intro a b
    simpa using le_total a.1.loose b.1.loose
  have hpairwise := List.pairwise_mergeSort htrans htotal t
  exact hpairwise.imp fun h => of_decide_eq_true h

theorem TextKeyed.perm (h : t.TextKeyed) (hperm : u.Perm t) : u.TextKeyed :=
  fun e he => h e (hperm.mem_iff.mp he)

theorem Distinct.perm (h : t.Distinct) (hperm : u.Perm t) : u.Distinct :=
  (hperm.pairwise_iff (by intro a b hab; rwa [Scalar.sameKey_comm])).mpr h

theorem Distinct.of_keys {v : Table β} (h : t.Distinct) (hkeys : v.keys = t.keys) : v.Distinct := by
  have hpairs : t.keys.Pairwise fun a b => a.sameKey b = false := List.pairwise_map.mpr h
  rw [← hkeys] at hpairs
  exact List.pairwise_map.mp hpairs

theorem Distinct.put (h : t.Distinct) (k : Scalar) (v : α) : (put t k v).Distinct := by
  cases hhas : has t k with
  | true => exact h.of_keys (by rw [keys_put, hhas, if_pos rfl])
  | false =>
      rw [put_of_has_eq_false hhas]
      refine List.pairwise_append.mpr ⟨h, List.pairwise_singleton _ _, ?_⟩
      rintro e he _ (_ | ⟨_, ⟨⟩⟩)
      simpa using (List.any_eq_false.mp hhas) e he

theorem distinct_ofEntries (entries : List (Scalar × α)) : (ofEntries entries).Distinct := by
  have hfold : ∀ t : Table α, t.Distinct →
      (entries.foldl (fun t e => put t e.1 e.2) t).Distinct := by
    induction entries with
    | nil => exact fun _ h => h
    | cons e entries ih => exact fun t h => ih _ (h.put e.1 e.2)
  exact hfold [] List.Pairwise.nil

section Forall

variable {P : Scalar → Prop} {Q : α → Prop}

theorem forall_put {k : Scalar} {v : α} (h : ∀ e ∈ t, P e.1 ∧ Q e.2) (hk : P k) (hv : Q v) :
    ∀ e ∈ put t k v, P e.1 ∧ Q e.2 := by
  induction t with
  | nil => simpa [put] using ⟨hk, hv⟩
  | cons e t ih =>
      obtain ⟨he, ht⟩ := List.forall_mem_cons.mp h
      rw [put]
      split
      · exact List.forall_mem_cons.mpr ⟨⟨he.1, hv⟩, ht⟩
      · exact List.forall_mem_cons.mpr ⟨he, ih ht⟩

theorem forall_ofEntries {entries : List (Scalar × α)} (h : ∀ e ∈ entries, P e.1 ∧ Q e.2) :
    ∀ e ∈ ofEntries entries, P e.1 ∧ Q e.2 := by
  have hfold : ∀ t : Table α, (∀ e ∈ t, P e.1 ∧ Q e.2) →
      ∀ e ∈ entries.foldl (fun t e => put t e.1 e.2) t, P e.1 ∧ Q e.2 := by
    induction entries with
    | nil => exact fun _ ht => ht
    | cons e entries ih =>
        obtain ⟨he, hentries⟩ := List.forall_mem_cons.mp h
        exact fun t ht => ih hentries _ (forall_put ht he.1 he.2)
  exact hfold [] (by simp)

end Forall

theorem TextKeyed.nodup_names (h : t.TextKeyed) (hdistinct : t.Distinct) :
    (List.map (fun e => e.1.loose) t).Nodup := by
  rw [List.Nodup, List.pairwise_map]
  refine List.Pairwise.imp_of_mem (fun ha hb hab heq => ?_) hdistinct
  rw [h _ ha, h _ hb, Scalar.sameKey_loose, decide_eq_false_iff_not] at hab
  exact hab heq

/-- Sorting by keys that are texts and differ from each other. -/
theorem TextKeyed.sortedBy_eq (h : t.TextKeyed) (hdistinct : t.Distinct) :
    Scalar.sortedBy Prod.fst t = .ok t.sorted := by
  obtain ⟨sorted, hsorted, hperm, hasc⟩ := Scalar.exists_sortedBy h
  rw [hsorted, Scalar.eq_of_ascending (h.nodup_names hdistinct) hperm t.sorted_perm hasc
    t.ascending_sorted]

/-- A permutation that is in order is the table in order. -/
theorem TextKeyed.sorted_eq (h : t.TextKeyed) (hdistinct : t.Distinct) (hperm : u.Perm t)
    (hasc : Scalar.Ascending (fun e => e.1.loose) u) : t.sorted = u :=
  Scalar.eq_of_ascending (h.nodup_names hdistinct) t.sorted_perm hperm t.ascending_sorted hasc

theorem TextKeyed.sorted_congr (h : t.TextKeyed) (hdistinct : t.Distinct) (hperm : u.Perm t) :
    u.sorted = t.sorted :=
  (h.sorted_eq hdistinct (u.sorted_perm.trans hperm) u.ascending_sorted).symm

/-- The order of the entries does not depend on what stands under the keys. -/
theorem TextKeyed.sorted_map (h : t.TextKeyed) (hdistinct : t.Distinct) (f : α → β) :
    sorted (t.map fun e => (e.1, f e.2)) = t.sorted.map fun e => (e.1, f e.2) := by
  refine sorted_eq (t := t.map fun e => (e.1, f e.2)) ?_ ?_ (t.sorted_perm.map _) ?_
  · intro e he
    obtain ⟨e', he', rfl⟩ := List.mem_map.mp he
    exact h e' he'
  · exact List.pairwise_map.mpr hdistinct
  · exact List.pairwise_map.mpr t.ascending_sorted

theorem Distinct.lookup_eq_some_iff (h : t.Distinct) {key : Scalar} {v : α} :
    lookup t key = some v ↔ ∃ k, (k, v) ∈ t ∧ k.sameKey key = true := by
  induction t with
  | nil => simp [lookup]
  | cons e t ih =>
      obtain ⟨k, w⟩ := e
      obtain ⟨hnew, ht⟩ := List.pairwise_cons.mp h
      rw [lookup_cons]
      split
      · rename_i hk
        constructor
        · rintro ⟨⟩
          exact ⟨k, List.mem_cons_self .., hk⟩
        · rintro ⟨k', hmem, hk'⟩
          rcases List.mem_cons.mp hmem with heq | hmem
          · cases heq
            rfl
          · -- a second key that is the same
            have hdiffer := hnew _ hmem
            rw [Scalar.sameKey_congr hk, Scalar.sameKey_comm, hk'] at hdiffer
            cases hdiffer
      · rename_i hk
        rw [ih ht]
        constructor
        · rintro ⟨k', hmem, hk'⟩
          exact ⟨k', List.mem_cons_of_mem _ hmem, hk'⟩
        · rintro ⟨k', hmem, hk'⟩
          rcases List.mem_cons.mp hmem with heq | hmem
          · cases heq
            exact absurd hk' hk
          · exact ⟨k', hmem, hk'⟩

/-- In whatever order distinct keys stand, the same is found under them. -/
theorem Distinct.lookup_perm (h : t.Distinct) (hperm : u.Perm t) (key : Scalar) :
    lookup u key = lookup t key := by
  refine Option.ext fun v => ?_
  rw [(h.perm hperm).lookup_eq_some_iff, h.lookup_eq_some_iff]
  simp only [hperm.mem_iff]

end Table

end Dialogue
