import Dialogue.Proofs.Config
import Dialogue.Proofs.Value.Comparison

/-! A mapping is accepted exactly if all of its keys are known and the settings that result can be
built with. They hold what is given and the defaults for all else, and their document is accepted as
the same settings again. A refusal lists the unknown keys in order, so that keys that are not
ordered among each other cannot be listed. -/

namespace Dialogue.Config

variable {entries : List (Scalar × Value)} {c : Config}

/-! ## Known keys -/

theorem isKnown_iff {key : Scalar} : isKnown key = true ↔ ∃ name ∈ keys, key = .text name := by
  rw [isKnown, List.any_eq_true]
  refine exists_congr fun name => and_congr_right fun _ => ?_
  rw [Scalar.sameKey_iff, Scalar.norm_text]
  cases key with
  | text s => simp [Scalar.norm, eq_comm]
  | float x =>
      rw [Scalar.norm]
      cases (Decimal.Dyadic.ofFloat x).toInt? <;> simp
  | _ => simp [Scalar.norm]

theorem isKnown_congr {a b : Scalar} (h : a.sameKey b = true) : isKnown a = isKnown b := by
  simp only [isKnown, Scalar.sameKey_comm (.text _), Scalar.sameKey_congr h]

def unknown (entries : List (Scalar × Value)) : List Scalar :=
  (entries.map Prod.fst).filter fun key => !isKnown key

theorem unknown_eq_nil_iff :
    unknown entries = [] ↔ ∀ e ∈ entries, ∃ name ∈ keys, e.1 = .text name := by
  rw [unknown, List.filter_eq_nil_iff, List.forall_mem_map]
  refine forall₂_congr fun e _ => ?_
  rw [← isKnown_iff]
  simp

def collected (entries : List (Scalar × Value)) : List Scalar :=
  (Table.ofEntries (entries.map fun e => (e.1, ()))).keys.filter fun key => !isKnown key

theorem lists_collected (entries : List (Scalar × Value)) :
    Scalar.Lists (collected entries) (unknown entries) := by
  have hkeys := Table.lists_keys_ofEntries (entries.map fun e => (e.1, ()))
  rw [List.map_map] at hkeys
  exact hkeys.filter fun h => congrArg (!·) (isKnown_congr h)

/-! ## Loading -/

theorem mapM_asKey (ks : List Scalar) : (ks.map Value.scalar).mapM Value.asKey = .ok ks := by
  induction ks with
  | nil => rfl
  | cons k ks ih =>
      rw [List.map_cons, List.mapM_cons, ih]
      rfl

theorem unknownKeys_eq (entries : List (Scalar × Value)) :
    unknownKeys (entries.map fun e => .scalar e.1) =
      match Scalar.sortedBy id (collected entries) with
      | .ok sorted => .ok sorted
      | .error _ => .error (.mismatch .other) := by
  have hkeys : (entries.map fun e => Value.scalar e.1).mapM Value.asKey =
      .ok (entries.map Prod.fst) := by
    rw [← mapM_asKey, List.map_map]
    rfl
  rw [unknownKeys, hkeys, collected, ← Function.comp_def (fun key => (key, ())) Prod.fst,
    ← List.map_map]
  rfl

structure Usable (c : Config) : Prop where
  lockLength : ∃ n, c.lockLength.int? = some n ∧ 1 ≤ n
  suffix : c.projectSuffix.truthy = true

theorem isLockLength_iff {v : Value} : isLockLength v = true ↔ ∃ n, v.int? = some n ∧ 1 ≤ n := by
  rw [isLockLength]
  cases v.int? <;> simp

def checked (c : Config) : Except Fault Config :=
  if !isLockLength c.lockLength then .error (.config (.badLockLength c.lockLength))
  else if !c.projectSuffix.truthy then .error (.config .emptySuffix)
  else .ok c

theorem checked_cases (c : Config) :
    (c.Usable ∧ checked c = .ok c) ∨
    (isLockLength c.lockLength = false ∧
      checked c = .error (.config (.badLockLength c.lockLength))) ∨
    c.projectSuffix.truthy = false ∧ checked c = .error (.config .emptySuffix) := by
  rw [checked]
  cases hlength : isLockLength c.lockLength with
  | false => exact .inr (.inl ⟨rfl, rfl⟩)
  | true =>
      cases hsuffix : c.projectSuffix.truthy with
      | false => exact .inr (.inr ⟨rfl, rfl⟩)
      | true => exact .inl ⟨⟨isLockLength_iff.mp hlength, hsuffix⟩, rfl⟩

theorem checked_of_usable (h : c.Usable) : checked c = .ok c := by
  rw [checked, isLockLength_iff.mpr h.lockLength, h.suffix]
  rfl

theorem usable_of_checked {c' : Config} (h : checked c = .ok c') : c.Usable ∧ c' = c := by
  rcases checked_cases c with ⟨husable, hchecked⟩ | ⟨-, hchecked⟩ | ⟨-, hchecked⟩
  · rw [hchecked] at h
    exact ⟨husable, (Except.ok.inj h).symm⟩
  · rw [hchecked] at h
    cases h
  · rw [hchecked] at h
    cases h

theorem ofValue_mapping_eq (entries : List (Scalar × Value)) :
    ofValue (.mapping entries) =
      match Scalar.sortedBy id (collected entries) with
      | .ok [] => checked (ofEntries entries)
      | .ok ks => .error (.config (.unknownKeys ks))
      | .error _ => .error (.mismatch .other) := by
  cases entries with
  | nil => rfl
  | cons e entries =>
      rw [ofValue, if_neg (by simp [Value.truthy]), Value.items]
      simp only [bind, Except.bind, unknownKeys_eq]
      rcases Scalar.sortedBy id (collected (e :: entries)) with u | _ | ⟨k, ks⟩
      · rfl
      · rw [checked]
        cases isLockLength (ofEntries (e :: entries)).lockLength
        · rfl
        · cases (ofEntries (e :: entries)).projectSuffix.truthy <;> rfl
      · rfl

theorem ofValue_of_known (h : unknown entries = []) :
    ofValue (.mapping entries) = checked (ofEntries entries) := by
  rw [ofValue_mapping_eq, (lists_collected entries).eq_nil_iff.mpr h]
  rfl

theorem ofValue_of_ordered (hne : unknown entries ≠ [])
    (h : Scalar.AllOrdered (unknown entries)) : ∃ ks, Scalar.Lists ks (unknown entries) ∧
      ofValue (.mapping entries) = .error (.config (.unknownKeys ks)) := by
  have hlists := lists_collected entries
  rcases Scalar.sortedBy_distinct_cases hlists.distinct with
    ⟨-, ks, hsorted, hperm⟩ | ⟨hordered, -⟩
  · have hks := hlists.perm hperm
    refine ⟨ks, hks, ?_⟩
    rw [ofValue_mapping_eq, hsorted]
    cases ks with
    | nil => exact absurd (hks.eq_nil_iff.mp rfl) hne
    | cons k ks => rfl
  · exact absurd (hlists.allOrdered_iff.mpr h) hordered

theorem ofValue_of_unordered (h : ¬ Scalar.AllOrdered (unknown entries)) :
    ofValue (.mapping entries) = .error (.mismatch .other) := by
  have hlists := lists_collected entries
  rcases Scalar.sortedBy_distinct_cases hlists.distinct with ⟨hordered, -⟩ | ⟨-, e, hsorted⟩
  · exact absurd (hlists.allOrdered_iff.mp hordered) h
  · rw [ofValue_mapping_eq, hsorted]

theorem exists_fault_of_unknown (h : unknown entries ≠ []) :
    ∃ e, ofValue (.mapping entries) = .error e := by
  by_cases hordered : Scalar.AllOrdered (unknown entries)
  · obtain ⟨ks, -, hrefused⟩ := ofValue_of_ordered h hordered
    exact ⟨_, hrefused⟩
  · exact ⟨_, ofValue_of_unordered hordered⟩

/-! ## Resulting settings -/

/-- What is given under each known key, or else the default. -/
def given (entries : List (Scalar × Value)) : List (String × Value) :=
  (fields {}).map fun field => (field.1, (Table.lookup entries (.text field.1)).getD field.2)

theorem fields_ofEntries (entries : List (Scalar × Value)) :
    (ofEntries entries).fields = given entries := rfl

theorem fields_injective {c' : Config} (h : c.fields = c'.fields) : c = c' := by
  cases c
  cases c'
  simpa [fields] using h

theorem ofEntries_fields (c : Config) :
    ofEntries (c.fields.map fun field => (.text field.1, field.2)) = c := by
  cases c
  simp [ofEntries, fields, Table.lookup, Scalar.sameKey_text]

theorem ofValue_toValue (h : c.Usable) : ofValue c.toValue = .ok c := by
  have hknown : unknown (c.fields.map fun field => (.text field.1, field.2)) = [] := by
    have hkeys : c.fields.map Prod.fst = keys := rfl
    rw [unknown_eq_nil_iff, List.forall_mem_map]
    exact fun field hfield => ⟨field.1, hkeys ▸ List.mem_map_of_mem hfield, rfl⟩
  rw [toValue, ofValue_of_known hknown, ofEntries_fields, checked_of_usable h]

/-- A mapping is accepted exactly if it has known keys only and gives settings that can be built
with. -/
theorem ofValue_mapping_eq_ok_iff : ofValue (.mapping entries) = .ok c ↔
    unknown entries = [] ∧ c.Usable ∧ c = ofEntries entries := by
  constructor
  · intro h
    by_cases hunknown : unknown entries = []
    · rw [ofValue_of_known hunknown] at h
      obtain ⟨husable, rfl⟩ := usable_of_checked h
      exact ⟨hunknown, husable, rfl⟩
    · obtain ⟨e, hrefused⟩ := exists_fault_of_unknown hunknown
      rw [hrefused] at h
      cases h
  · rintro ⟨hunknown, husable, rfl⟩
    rw [ofValue_of_known hunknown, checked_of_usable husable]

/-! ## Refusals -/

/-- What a mapping is refused for. -/
inductive RefusedFor (entries : List (Scalar × Value)) : ConfigFault → Prop where
  | unknownKeys {ks : List Scalar} (hunknown : unknown entries ≠ [])
      (hks : Scalar.Lists ks (unknown entries)) : RefusedFor entries (.unknownKeys ks)
  | badLockLength (hunknown : unknown entries = [])
      (hlength : isLockLength (ofEntries entries).lockLength = false) :
      RefusedFor entries (.badLockLength (ofEntries entries).lockLength)
  | emptySuffix (hunknown : unknown entries = [])
      (hsuffix : (ofEntries entries).projectSuffix.truthy = false) :
      RefusedFor entries .emptySuffix

/-- Where the unknown keys can be listed, a mapping is accepted or refused. -/
theorem accepted_or_refused (h : Scalar.AllOrdered (unknown entries)) :
    (∃ c, ofValue (.mapping entries) = .ok c) ∨
      ∃ reason, RefusedFor entries reason ∧
        ofValue (.mapping entries) = .error (.config reason) := by
  by_cases hunknown : unknown entries = []
  · rw [ofValue_of_known hunknown]
    rcases checked_cases (ofEntries entries) with
      ⟨-, hchecked⟩ | ⟨hlength, hchecked⟩ | ⟨hsuffix, hchecked⟩
    · exact .inl ⟨_, hchecked⟩
    · exact .inr ⟨_, .badLockLength hunknown hlength, hchecked⟩
    · exact .inr ⟨_, .emptySuffix hunknown hsuffix, hchecked⟩
  · obtain ⟨ks, hks, hrefused⟩ := ofValue_of_ordered hunknown h
    exact .inr ⟨_, .unknownKeys hunknown hks, hrefused⟩

/-- A mapping is accepted exactly if all of its keys are known and the settings that result, with
what is given and the defaults for all else, can be built with; they are read back from their own
document. Any other mapping is refused for what is wrong with it, unless two of its unknown keys are
not ordered: these cannot be listed, and what fails then is their comparison. -/
theorem mapping_accepted_iff (entries : List (Scalar × Value)) :
    (∀ c, ofValue (.mapping entries) = .ok c ↔
      (∀ e ∈ entries, ∃ name ∈ keys, e.1 = .text name) ∧ c.Usable ∧ c.fields = given entries) ∧
    (∀ c, ofValue (.mapping entries) = .ok c → ofValue c.toValue = .ok c) ∧
    (Scalar.AllOrdered (unknown entries) → (∃ c, ofValue (.mapping entries) = .ok c) ∨
      ∃ reason, RefusedFor entries reason ∧
        ofValue (.mapping entries) = .error (.config reason)) ∧
    (¬ Scalar.AllOrdered (unknown entries) →
      ofValue (.mapping entries) = .error (.mismatch .other)) := by
  refine ⟨fun c => ?_, fun c h => ?_, accepted_or_refused, ofValue_of_unordered⟩
  · rw [ofValue_mapping_eq_ok_iff, unknown_eq_nil_iff, ← fields_ofEntries]
    exact and_congr_right fun _ => and_congr_right fun _ => ⟨congrArg fields, fields_injective⟩
  · exact ofValue_toValue (ofValue_mapping_eq_ok_iff.mp h).2.1

/-- A truth value is a number here. -/
example : ofValue (.mapping [(.text "lock_length", .bool true)]) =
    .ok { lockLength := .bool true } := rfl

/-- A number and a text among the unknown keys. -/
theorem not_forall_unknown_refused : ¬ ∀ entries : List (Scalar × Value), unknown entries ≠ [] →
    ∃ reason, ofValue (.mapping entries) = .error (.config reason) := by
  intro hall
  obtain ⟨reason, hrefused⟩ :=
    hall [(.int 1, .bool true), (.text "lock_len", .int 4)] (by decide +kernel)
  have hfault : ofValue (.mapping [(.int 1, .bool true), (.text "lock_len", .int 4)]) =
      .error (.mismatch .other) := rfl
  rw [hfault] at hrefused
  cases hrefused

end Dialogue.Config
