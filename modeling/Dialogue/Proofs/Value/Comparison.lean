import Dialogue.Proofs.Value.Order

/-! Numbers are ordered among each other, and so are texts and bytes, but no key is ordered with one
of another kind. Sorting compares each of two or more elements with some other one, so that it comes
to a result exactly if all keys are of one kind. -/

namespace Dialogue

namespace Scalar

/-! ## Kinds -/

/-- The kinds of scalars that are ordered among each other. -/
inductive OrderKind where
  | number
  | text
  | bytes

def orderKind? : Scalar → Option OrderKind
  | .bool _ | .int _ | .float _ => some .number
  | .text _ => some .text
  | .bytes _ => some .bytes
  | .null | .asset .. => none

theorem orderKind?_norm (a : Scalar) : a.norm.orderKind? = a.orderKind? := by
  cases a with
  | float x =>
      rw [norm]
      cases (Decimal.Dyadic.ofFloat x).toInt? <;> rfl
  | _ => rfl

/-- In whatever spelling a key is given, it is of the same kind. -/
theorem orderKind?_congr {a b : Scalar} (h : a.sameKey b = true) : a.orderKind? = b.orderKind? := by
  rw [← orderKind?_norm a, sameKey_iff.mp h, orderKind?_norm]

theorem isSome_less?_iff {a b : Scalar} :
    (a.less? b).isSome = true ↔ ∃ kind, a.orderKind? = some kind ∧ b.orderKind? = some kind := by
  cases a <;> cases b <;> simp [less?, number?, orderKind?]

/-- A comparison with a scalar of some kind succeeds exactly for scalars of that kind. -/
theorem compare_cases (a : Scalar) {b : Scalar} {kind : OrderKind} (hb : b.orderKind? = some kind) :
    (∃ answer, compare a b = .ok answer ∧ a.orderKind? = some kind) ∨
      compare a b = .error ⟨a, b⟩ ∧ a.orderKind? ≠ some kind := by
  have hiff := isSome_less?_iff (a := a) (b := b)
  rw [compare]
  cases hless : a.less? b with
  | some answer =>
      obtain ⟨kind', ha, hb'⟩ := hiff.mp (by simp [hless])
      rw [hb] at hb'
      exact .inl ⟨answer, rfl, hb' ▸ ha⟩
  | none =>
      refine .inr ⟨rfl, fun ha => ?_⟩
      have hsome := hiff.mpr ⟨kind, ha, hb⟩
      simp [hless] at hsome

variable {α : Type} {key : α → Scalar} {kind : OrderKind} {items rest : List α}

def OfKind (key : α → Scalar) (kind : OrderKind) (items : List α) : Prop :=
  ∀ a ∈ items, (key a).orderKind? = some kind

theorem ofKind_cons {a : α} :
    OfKind key kind (a :: items) ↔ (key a).orderKind? = some kind ∧ OfKind key kind items :=
  List.forall_mem_cons

theorem ofKind_append :
    OfKind key kind (items ++ rest) ↔ OfKind key kind items ∧ OfKind key kind rest :=
  List.forall_mem_append

theorem ofKind_perm {other : List α} (hperm : items.Perm other) :
    OfKind key kind items ↔ OfKind key kind other := by
  simp only [OfKind, hperm.mem_iff]

/-- A list of at least one element has keys of one kind only. -/
theorem OfKind.unique {kind' : OrderKind} (hne : items ≠ []) (h : OfKind key kind items)
    (h' : OfKind key kind' items) : kind = kind' := by
  obtain ⟨a, rest, rfl⟩ := List.exists_cons_of_ne_nil hne
  have ha := (ofKind_cons.mp h).1
  rw [(ofKind_cons.mp h').1] at ha
  exact (Option.some.inj ha).symm

/-! ## The run at the front -/

theorem runLength_go_cases (rest : List α) (descending : Bool) {previous : α} (n : Nat)
    (hprevious : (key previous).orderKind? = some kind) :
    (∃ k, runLength.go key descending previous n rest = .ok (n + k) ∧
      OfKind key kind (rest.take k)) ∨
    ∃ e, runLength.go key descending previous n rest = .error e ∧ ¬ OfKind key kind rest := by
  induction rest generalizing previous n with
  | nil => exact .inl ⟨0, rfl, by simp [OfKind]⟩
  | cons c rest ih =>
      rw [runLength.go, ofKind_cons]
      rcases compare_cases (key c) hprevious with ⟨answer, hcompare, hc⟩ | ⟨hcompare, hc⟩
      · simp only [hcompare, bind, Except.bind]
        split
        · rcases ih (n + 1) hc with ⟨k, hgo, hrun⟩ | ⟨e, hgo, hrest⟩
          · refine .inl ⟨k + 1, ?_, ofKind_cons.mpr ⟨hc, hrun⟩⟩
            rw [hgo, Nat.add_assoc, Nat.add_comm 1]
          · exact .inr ⟨e, hgo, fun h => hrest h.2⟩
        · exact .inl ⟨0, rfl, by simp [OfKind]⟩
      · refine .inr ⟨⟨key c, key previous⟩, ?_, fun h => hc h.1⟩
        simp only [hcompare, bind, Except.bind]

/-- The run at the front of two or more elements has keys of one kind. -/
theorem runLength_cases (key : α → Scalar) (a b : α) (rest : List α) :
    (∃ n descending kind, runLength key (a :: b :: rest) = .ok (n + 2, descending) ∧
      OfKind key kind ((a :: b :: rest).take (n + 2))) ∨
    ∃ e, runLength key (a :: b :: rest) = .error e ∧
      ∀ kind, ¬ OfKind key kind (a :: b :: rest) := by
  simp only [runLength, ofKind_cons]
  cases ha : (key a).orderKind? with
  | none =>
      have hless : (key b).less? (key a) = none := by
        rw [← Option.not_isSome_iff_eq_none, isSome_less?_iff]
        simp [ha]
      exact .inr ⟨⟨key b, key a⟩, by simp only [compare, hless, bind, Except.bind], by simp⟩
  | some kind =>
      rcases compare_cases (key b) ha with ⟨descending, hcompare, hb⟩ | ⟨hcompare, hb⟩
      · simp only [hcompare, bind, Except.bind]
        rcases runLength_go_cases rest descending 2 hb with
          ⟨k, hgo, hrun⟩ | ⟨e, hgo, hrest⟩
        · refine .inl ⟨k, descending, kind, ?_, ?_⟩
          · rw [hgo, Nat.add_comm]
            rfl
          · exact ofKind_cons.mpr ⟨ha, ofKind_cons.mpr ⟨hb, hrun⟩⟩
        · refine .inr ⟨e, by rw [hgo], ?_⟩
          rintro kind' ⟨⟨⟩, -, h⟩
          exact hrest h
      · refine .inr ⟨⟨key b, key a⟩, by simp only [hcompare, bind, Except.bind], ?_⟩
        rintro kind' ⟨⟨⟩, h, -⟩
        exact hb h

/-! ## Insertion -/

section Insertion

variable {x : α} {sorted : Array α}

theorem insertionPlace_go_of_kind (hsorted : OfKind key kind sorted.toList)
    (hx : (key x).orderKind? = some kind) (low high : Nat) (hle : low ≤ high)
    (hhigh : high ≤ sorted.size) :
    ∃ place ≤ sorted.size, insertionPlace.go key x sorted low high = .ok place := by
  fun_induction insertionPlace.go key x sorted low high with
  | case1 low high hlt middle hnone => exact ⟨low, by omega, rfl⟩
  | case2 low high hlt middle y hy e he =>
      have hmem : y ∈ sorted.toList := Array.mem_def.mp (Array.mem_of_getElem? hy)
      rcases compare_cases (key x) (hsorted y hmem) with ⟨answer, hcompare, -⟩ | ⟨-, hother⟩
      · rw [hcompare] at he
        cases he
      · exact absurd hx hother
  | case3 low high hlt middle y hy he ih => exact ih (by omega) (by omega)
  | case4 low high hlt middle y hy he ih => exact ih (by omega) (by omega)
  | case5 low high hge => exact ⟨low, by omega, rfl⟩

/-- The first comparison already fails for a key of another kind. -/
theorem insertionPlace_of_other (hsorted : OfKind key kind sorted.toList)
    (hsize : 0 < sorted.size) (hx : (key x).orderKind? ≠ some kind) :
    ∃ e, insertionPlace key x sorted = .error e := by
  have hmiddle : (0 + sorted.size) / 2 < sorted.size := by omega
  have hy := Array.getElem?_eq_getElem hmiddle
  generalize sorted[(0 + sorted.size) / 2] = y at hy
  have hmem : y ∈ sorted.toList := Array.mem_def.mp (Array.mem_of_getElem? hy)
  rcases compare_cases (key x) (hsorted y hmem) with ⟨answer, -, hkind⟩ | ⟨hcompare, -⟩
  · exact absurd hkind hx
  · refine ⟨⟨key x, key y⟩, ?_⟩
    rw [insertionPlace, insertionPlace.go, dif_pos hsize]
    simp only [hy, hcompare]

def insertAll (key : α → Scalar) (sorted : Array α) (rest : List α) :
    Except Unordered (Array α) :=
  rest.foldlM (fun sorted x => do
    let place ← insertionPlace key x sorted
    return sorted.toList.insertIdx place x |>.toArray) sorted

theorem insertAll_cons (rest : List α) :
    insertAll key sorted (x :: rest) = (insertionPlace key x sorted).bind fun place =>
      insertAll key (sorted.toList.insertIdx place x).toArray rest := by
  rw [insertAll, List.foldlM_cons]
  cases insertionPlace key x sorted <;> rfl

/-- Elements are inserted exactly if they are of the kind of those that are there. -/
theorem insertAll_cases (rest : List α) (hsorted : OfKind key kind sorted.toList)
    (hsize : 0 < sorted.size) :
    (∃ result, insertAll key sorted rest = .ok result ∧
      result.toList.Perm (sorted.toList ++ rest) ∧ OfKind key kind rest) ∨
    ∃ e, insertAll key sorted rest = .error e ∧ ¬ OfKind key kind rest := by
  induction rest generalizing sorted with
  | nil => exact .inl ⟨sorted, rfl, by simp, by simp [OfKind]⟩
  | cons x rest ih =>
      rw [insertAll_cons, ofKind_cons]
      by_cases hx : (key x).orderKind? = some kind
      · obtain ⟨place, hbound, hplace⟩ := insertionPlace_go_of_kind hsorted hx 0 sorted.size
          (Nat.zero_le _) (Nat.le_refl _)
        have hperm := List.perm_insertIdx x sorted.toList (i := place) (by simpa using hbound)
        have hinserted : OfKind key kind (sorted.toList.insertIdx place x) :=
          (ofKind_perm hperm).mpr (ofKind_cons.mpr ⟨hx, hsorted⟩)
        have hpositive : 0 < (sorted.toList.insertIdx place x).toArray.size := by
          simp [hperm.length_eq]
        rw [insertionPlace, hplace]
        rcases ih hinserted hpositive with ⟨result, hfold, hresult, hkind⟩ | ⟨e, hfold, hother⟩
        · refine .inl ⟨result, hfold, hresult.trans ?_, hx, hkind⟩
          exact (hperm.append_right rest).trans List.perm_middle.symm
        · exact .inr ⟨e, hfold, fun h => hother h.2⟩
      · obtain ⟨e, hplace⟩ := insertionPlace_of_other hsorted hsize hx
        rw [hplace]
        exact .inr ⟨e, rfl, fun h => hx h.1⟩

end Insertion

/-! ## Sorting -/

/-- The elements behind the run are inserted into it. -/
theorem sortedBy_of_run {n : Nat} {descending : Bool}
    (h : runLength key items = .ok (n, descending)) :
    sortedBy key items =
      (insertAll key (if descending then (items.take n).reverse else items.take n).toArray
        (items.drop n)).map Array.toList := by
  rw [sortedBy, h, insertAll]
  simp only [bind, Except.bind]
  split <;> rename_i hfold <;> rw [hfold] <;> rfl

/-- Two or more elements are sorted exactly if their keys are of one kind. -/
theorem sortedBy_cases (key : α → Scalar) (a b : α) (rest : List α) :
    (∃ sorted kind, sortedBy key (a :: b :: rest) = .ok sorted ∧
      sorted.Perm (a :: b :: rest) ∧ OfKind key kind (a :: b :: rest)) ∨
    ∃ e, sortedBy key (a :: b :: rest) = .error e ∧ ∀ kind, ¬ OfKind key kind (a :: b :: rest) := by
  rcases runLength_cases key a b rest with
    ⟨n, descending, kind, hrun, hfront⟩ | ⟨e, hrun, hother⟩
  · have hparts := List.take_append_drop (n + 2) (a :: b :: rest)
    have hne : (a :: b :: rest).take (n + 2) ≠ [] := by simp
    rw [sortedBy_of_run hrun]
    generalize (a :: b :: rest).take (n + 2) = front at *
    generalize (a :: b :: rest).drop (n + 2) = behind at *
    rw [← hparts]
    have hperm : (if descending then front.reverse else front).Perm front := by
      cases descending
      · exact .refl _
      · exact List.reverse_perm _
    generalize (if descending then front.reverse else front) = start at *
    have hsize : 0 < start.toArray.size := by
      rw [List.size_toArray, hperm.length_eq]
      exact List.length_pos_of_ne_nil hne
    rcases insertAll_cases behind ((ofKind_perm hperm).mpr hfront) hsize with
      ⟨result, hresult, hall, hbehind⟩ | ⟨e, hresult, hbehind⟩
    · refine .inl ⟨result.toList, kind, by rw [hresult]; rfl, ?_, ?_⟩
      · exact hall.trans (hperm.append_right behind)
      · exact ofKind_append.mpr ⟨hfront, hbehind⟩
    · refine .inr ⟨e, by rw [hresult]; rfl, fun kind' h => ?_⟩
      obtain ⟨hfront', hbehind'⟩ := ofKind_append.mp h
      obtain rfl := hfront.unique hne hfront'
      exact hbehind hbehind'
  · refine .inr ⟨e, ?_, hother⟩
    rw [sortedBy, hrun]
    rfl

/-! ## Distinct keys -/

/-- Any two different keys are ordered. -/
def AllOrdered (keys : List Scalar) : Prop :=
  ∀ a ∈ keys, ∀ b ∈ keys, a.sameKey b = false → (a.less? b).isSome = true

theorem allOrdered_iff_exists_ofKind {a b : Scalar} {rest : List Scalar}
    (hdistinct : (a :: b :: rest).Pairwise fun a b => a.sameKey b = false) :
    AllOrdered (a :: b :: rest) ↔ ∃ kind, OfKind id kind (a :: b :: rest) := by
  constructor
  · intro h
    obtain ⟨ha, -⟩ := List.pairwise_cons.mp hdistinct
    have hless := fun c hc => h a (by simp) c (List.mem_cons_of_mem a hc) (ha c hc)
    obtain ⟨kind, hkind, -⟩ := isSome_less?_iff.mp (hless b (by simp))
    refine ⟨kind, ofKind_cons.mpr ⟨hkind, fun c hc => ?_⟩⟩
    obtain ⟨kind', hkind', hc'⟩ := isSome_less?_iff.mp (hless c hc)
    rw [hkind] at hkind'
    exact hkind' ▸ hc'
  · rintro ⟨kind, hkind⟩ c hc d hd -
    exact isSome_less?_iff.mpr ⟨kind, hkind c hc, hkind d hd⟩

/-- Distinct keys are sorted exactly if any two of them are ordered, and none of them is lost. -/
theorem sortedBy_distinct_cases {keys : List Scalar}
    (hdistinct : keys.Pairwise fun a b => a.sameKey b = false) :
    (AllOrdered keys ∧ ∃ sorted, sortedBy id keys = .ok sorted ∧ sorted.Perm keys) ∨
      ¬ AllOrdered keys ∧ ∃ e, sortedBy id keys = .error e := by
  match keys with
  | [] => exact .inl ⟨by simp [AllOrdered], [], rfl, .refl _⟩
  | [a] => exact .inl ⟨by simp [AllOrdered, sameKey_refl], [a], rfl, .refl _⟩
  | a :: b :: rest =>
      rw [allOrdered_iff_exists_ofKind hdistinct]
      rcases sortedBy_cases id a b rest with
        ⟨sorted, kind, hsorted, hperm, hkind⟩ | ⟨e, hsorted, hother⟩
      · exact .inl ⟨⟨kind, hkind⟩, sorted, hsorted, hperm⟩
      · exact .inr ⟨fun ⟨kind, hkind⟩ => hother kind hkind, e, hsorted⟩

/-- A list that has every key of another one once, in one of its spellings. -/
structure Lists (ks keys : List Scalar) : Prop where
  distinct : ks.Pairwise fun a b => a.sameKey b = false
  among : ∀ k ∈ ks, k ∈ keys
  all : ∀ key ∈ keys, ∃ k ∈ ks, k.sameKey key = true

namespace Lists

variable {ks keys other : List Scalar}

theorem perm (h : Lists ks keys) (hperm : other.Perm ks) : Lists other keys where
  distinct := (hperm.pairwise_iff fun hab => by rwa [sameKey_comm]).mpr h.distinct
  among k hk := h.among k (hperm.mem_iff.mp hk)
  all key hkey := by
    obtain ⟨k, hk, hsame⟩ := h.all key hkey
    exact ⟨k, hperm.mem_iff.mpr hk, hsame⟩

/-- The keys with a property that does not depend on their spelling. -/
theorem filter (h : Lists ks keys) {p : Scalar → Bool}
    (hp : ∀ {a b : Scalar}, a.sameKey b = true → p a = p b) :
    Lists (ks.filter p) (keys.filter p) where
  distinct := h.distinct.filter p
  among k hk := by
    obtain ⟨hmem, hk⟩ := List.mem_filter.mp hk
    exact List.mem_filter.mpr ⟨h.among k hmem, hk⟩
  all key hkey := by
    obtain ⟨hmem, hkey⟩ := List.mem_filter.mp hkey
    obtain ⟨k, hk, hsame⟩ := h.all key hmem
    exact ⟨k, List.mem_filter.mpr ⟨hk, (hp hsame).trans hkey⟩, hsame⟩

theorem eq_nil_iff (h : Lists ks keys) : ks = [] ↔ keys = [] := by
  constructor
  · rintro rfl
    refine List.eq_nil_iff_forall_not_mem.mpr fun key hkey => ?_
    obtain ⟨k, hk, -⟩ := h.all key hkey
    cases hk
  · rintro rfl
    exact List.eq_nil_iff_forall_not_mem.mpr fun k hk => by cases h.among k hk

/-- In whatever spelling they are listed, the same keys are ordered. -/
theorem allOrdered_iff (h : Lists ks keys) : AllOrdered ks ↔ AllOrdered keys := by
  constructor
  · intro hordered a ha b hb hdiffer
    obtain ⟨a', ha', hsameA⟩ := h.all a ha
    obtain ⟨b', hb', hsameB⟩ := h.all b hb
    have hdiffer' : a'.sameKey b' = false := by
      rw [sameKey_congr hsameA, sameKey_comm, sameKey_congr hsameB, sameKey_comm, hdiffer]
    have hless := isSome_less?_iff.mp (hordered a' ha' b' hb' hdiffer')
    rw [orderKind?_congr hsameA, orderKind?_congr hsameB] at hless
    exact isSome_less?_iff.mpr hless
  · exact fun hordered a ha b hb => hordered a (h.among a ha) b (h.among b hb)

end Lists

end Scalar

/-- The keys of a table are those of the entries that have been written. -/
theorem Table.lists_keys_ofEntries {α : Type} (entries : List (Scalar × α)) :
    Scalar.Lists (Table.ofEntries entries).keys (entries.map Prod.fst) where
  distinct := List.pairwise_map.mpr (Table.distinct_ofEntries entries)
  among k hk := by
    obtain ⟨e, he, rfl⟩ := List.mem_map.mp hk
    have hall := Table.forall_ofEntries (P := (· ∈ entries.map Prod.fst)) (Q := fun _ => True)
      fun e he => ⟨List.mem_map_of_mem he, trivial⟩
    exact (hall e he).1
  all key hkey := by
    obtain ⟨e, he, rfl⟩ := List.mem_map.mp hkey
    have hfound : (Table.lookup (Table.ofEntries entries) e.1).isSome = true := by
      rw [Table.lookup_ofEntries, Option.isSome_map, List.getLast?_isSome]
      exact List.ne_nil_of_mem (List.mem_filter.mpr ⟨he, Scalar.sameKey_refl e.1⟩)
    rw [Table.lookup, Option.isSome_map, List.find?_isSome] at hfound
    obtain ⟨e', he', hsame⟩ := hfound
    exact ⟨e'.1, List.mem_map_of_mem he', hsame⟩

end Dialogue
