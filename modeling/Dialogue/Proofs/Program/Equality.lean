import Dialogue.Proofs.Decimal.Literals
import Dialogue.Proofs.Program.Document
import Dialogue.Proofs.Value.Grouping

/-! Programs are compared part by part, and tables entry by entry, whatever their order. A number
equals itself, but what is not a number equals nothing. -/

namespace Dialogue

/-! ## Numbers and scalars -/

theorem Decimal.Dyadic.same_self {d : Decimal.Dyadic} (h : d ≠ .notANumber) : d.same d = true := by
  cases d with
  | notANumber => exact absurd rfl h
  | infinite negative => simp [same]
  | finite negative m q => simp [same, aligned]

theorem Decimal.Dyadic.ofInt_ne (n : Int) : ofInt n ≠ .notANumber := by
  simp [ofInt]

theorem Scalar.same_self {s : Scalar} (h : ∀ x, s = .float x → Decimal.IsNumber x) :
    s.same s = true := by
  cases s with
  | float x => exact Decimal.Dyadic.same_self (h x rfl)
  | bool b => exact Decimal.Dyadic.same_self (Decimal.Dyadic.ofInt_ne _)
  | int n => exact Decimal.Dyadic.same_self (Decimal.Dyadic.ofInt_ne n)
  | null | text _ | bytes _ | asset _ _ => simp [same, number?]

theorem Value.same_text (s t : String) : (Value.text s).same (.text t) = decide (s = t) := by
  simp [Value.same, Scalar.same, Scalar.number?]

/-! ## Tables and programs -/

namespace Table

variable {α : Type}

/-- Tables with equal values under the same keys, in whatever order. -/
def same (eq : α → α → Bool) (t u : Table α) : Bool :=
  t.length == u.length && t.all fun e => (lookup u e.1).any (eq e.2)

/-- Entries that have their equals in a table of as many entries make an equal table. -/
theorem same_of_forall {eq : α → α → Bool} {t u : Table α} {k : Scalar × α → Scalar} {f : α → α}
    (distinct : u.Distinct) (hperm : t.Perm (u.map fun e => (k e, f e.2)))
    (hkey : ∀ e ∈ u, e.1.sameKey (k e) = true) (heq : ∀ e ∈ u, eq (f e.2) e.2 = true) :
    same eq t u = true := by
  rw [same, hperm.length_eq, List.length_map, beq_self_eq_true, Bool.true_and, List.all_eq_true]
  intro e he
  obtain ⟨e, hmem, rfl⟩ := List.mem_map.mp (hperm.mem_iff.mp he)
  have hlookup : lookup u (k e) = some e.2 :=
    distinct.lookup_eq_some_iff.mpr ⟨e.1, hmem, hkey e hmem⟩
  rw [hlookup, Option.any_some]
  exact heq e hmem

theorem same_of_perm {eq : α → α → Bool} {t u : Table α} (distinct : u.Distinct) (h : t.Perm u)
    (heq : ∀ e ∈ u, eq e.2 e.2 = true) : same eq t u = true :=
  same_of_forall (k := fun e => e.1) (f := id) distinct (by simpa using h)
    (fun e _ => Scalar.sameKey_refl e.1) heq

theorem exists_of_same {eq : α → α → Bool} {t u : Table α} (h : same eq t u = true) :
    t.length = u.length ∧ ∀ e ∈ t, ∃ v, lookup u e.1 = some v ∧ eq e.2 v = true := by
  obtain ⟨hlength, hall⟩ := Bool.and_eq_true_iff.mp h
  refine ⟨beq_iff_eq.mp hlength, fun e he => ?_⟩
  have hany := List.all_eq_true.mp hall e he
  cases hlookup : lookup u e.1 with
  | none =>
      rw [hlookup] at hany
      cases hany
  | some v =>
      rw [hlookup] at hany
      exact ⟨v, rfl, hany⟩

end Table

def Operand.same (a b : Operand) : Bool :=
  a.case.same b.case && a.value.same b.value

def Node.same (a b : Node) : Bool :=
  a.name.same b.name && a.headers.length == b.headers.length
    && (a.headers.zip b.headers).all fun (h, k) => h.1.same k.1 && h.2.same k.2

def Program.same (p q : Program) : Bool :=
  p.name.same q.name && Table.same Node.same p.nodes q.nodes
    && Table.same Operand.same p.initialValues q.initialValues

/-- An operand that is made of a constant other than the number that is none. -/
def Operand.IsProper (o : Operand) : Prop :=
  ∃ v, Operand.of v = .ok o ∧ ∀ x, v = .float x → Decimal.IsNumber x

theorem Operand.IsProper.isConstant {o : Operand} (h : o.IsProper) : o.IsConstant := by
  obtain ⟨v, hv, -⟩ := h
  exact ⟨v, hv⟩

theorem Operand.IsProper.isNumber {o : Operand} (h : o.IsProper) {x : Float}
    (hx : o.value = .float x) : Decimal.IsNumber x := by
  obtain ⟨v, hv, hnumber⟩ := h
  rw [Operand.of.eq_def] at hv
  split at hv
  · cases hv
    cases hx
  · rename_i n
    cases hn : Decimal.floatOfInt? n with
    | none => simp [Value.toFloat, hn, Except.map] at hv
    | some y =>
        simp only [Value.toFloat, hn, Option.map_some, Option.getD_some, Except.map] at hv
        cases hv
        cases hx
        exact Decimal.isNumber_floatOfInt? hn
  · rename_i y
    cases hv
    cases hx
    exact hnumber x rfl
  · cases hv
    cases hx
  · cases hv

theorem Operand.IsProper.same_self {o : Operand} (h : o.IsProper) : o.same o = true := by
  obtain ⟨case, s, rfl, -⟩ := h.isConstant.exists_scalar
  have hvalue : s.same s = true :=
    Scalar.same_self fun x hx => h.isNumber (x := x) (by rw [hx])
  rw [Operand.same, Value.same_text, decide_eq_true rfl, Bool.true_and, Value.same, hvalue]

theorem Node.Textual.same_self {n : Node} (h : n.Textual) : n.same n = true := by
  obtain ⟨pairs, hpairs⟩ := h.headers
  have hheaders : ((n.headers.zip n.headers).all fun (h, k) => h.1.same k.1 && h.2.same k.2) =
    true := by
    rw [List.all_eq_true, hpairs, List.zip_eq_zipWith, List.zipWith_self]
    intro h hh
    obtain ⟨_, hmem, rfl⟩ := List.mem_map.mp hh
    obtain ⟨p, -, rfl⟩ := List.mem_map.mp hmem
    simp [Value.same_text]
  rw [Node.same, h.name_eq, Value.same_text, decide_eq_true rfl, beq_self_eq_true, hheaders]
  rfl

theorem Node.Textual.label_eq_of_same {n m : Node} (hn : n.Textual) (hm : m.Textual)
    (h : n.same m = true) : n.label = m.label := by
  simp only [Node.same, hn.name_eq, hm.name_eq, Value.same_text, Bool.and_eq_true,
    decide_eq_true_eq] at h
  exact h.1.1

/-! ## Nodes under their own names -/

theorem Scalar.eq_text_of_sameKey {k : Scalar} {s : String} (h : k.sameKey (.text s) = true) :
    k = .text s := by
  have hnorm : k.norm = .text s := sameKey_iff.mp h
  cases k with
  | float x =>
      rw [norm] at hnorm
      cases hx : (Decimal.Dyadic.ofFloat x).toInt? <;> simp [hx] at hnorm
  | bool b => cases hnorm
  | _ => exact hnorm

namespace Program

variable {p : Program}

def OwnNames (p : Program) : Prop :=
  ∀ e ∈ p.nodes, e.2.name = .scalar e.1

theorem rekeyed_of_nodup (hnames : (p.nodes.map fun e => e.2.label).Nodup) :
    p.rekeyed = p.nodes.map fun e => (.text e.2.label, e.2) := by
  refine Table.ofEntries_of_distinct ?_
  rw [Table.Distinct, List.pairwise_map]
  refine (List.pairwise_map.mp hnames).imp fun hne => ?_
  rw [Scalar.sameKey_text]
  exact decide_eq_false hne

theorem WellTyped.rekeyed_of_ownNames (hp : p.WellTyped) (h : p.OwnNames) :
    p.rekeyed = p.nodes := by
  have hkey : ∀ e ∈ p.nodes, e.1 = .text e.2.label := by
    intro e he
    have hname := (hp.textualNodes e he).name_eq
    rw [h e he] at hname
    exact Value.scalar.inj hname
  have hmap : (p.nodes.map fun e => (Scalar.text e.2.label, e.2)) = p.nodes := by
    conv => right; rw [← List.map_id p.nodes]
    exact List.map_congr_left fun e he => by rw [← hkey e he]; rfl
  rw [rekeyed, hmap, Table.ofEntries_of_distinct hp.nodes]

/-- With its nodes under their own names a program equals itself only if they were before. -/
theorem WellTyped.ownNames_of_same (hp : p.WellTyped)
    (h : Table.same Node.same p.rekeyed p.nodes = true) : p.OwnNames := by
  obtain ⟨hlength, hall⟩ := Table.exists_of_same h
  have hkeys : p.rekeyed.keys =
      (p.nodes.map fun e => e.2.label).eraseDups.map fun s : String => Scalar.text s :=
    Table.keys_ofEntries_text _ _ _
  have hnames : (p.nodes.map fun e => e.2.label).Nodup := by
    refine nodup_of_length_eraseDups ?_
    have := congrArg List.length hkeys
    rwa [Table.keys, List.length_map, List.length_map, hlength, ← List.length_map (·.2.label),
      eq_comm]
      at this
  rw [rekeyed_of_nodup hnames, List.forall_mem_map] at hall
  intro e he
  obtain ⟨n, hlookup, hsame⟩ := hall e he
  obtain ⟨k, hmem, hkey⟩ := hp.nodes.lookup_eq_some_iff.mp hlookup
  have hlabel : e.2.label = n.label :=
    (hp.textualNodes e he).label_eq_of_same (hp.textualNodes _ hmem) hsame
  have heq : e = (k, n) := List.inj_on_of_nodup_map hnames he hmem hlabel
  have hfirst : e.1 = .text e.2.label := (congrArg Prod.fst heq).trans
    (Scalar.eq_text_of_sameKey hkey)
  rw [(hp.textualNodes e he).name_eq, hfirst]

/-- What a program is read as equals the program exactly if its nodes stand under their own
names. -/
theorem WellTyped.same_iff (hp : p.WellTyped) (hname : ∃ name : String, p.name = .text name)
    (hproper : ∀ e ∈ p.initialValues, e.2.IsProper) {operands : Table Operand}
    (hoperands : operands.Perm p.initialValues) :
    Program.same ⟨p.name, p.rekeyed, operands⟩ p = true ↔ p.OwnNames := by
  obtain ⟨name, hname⟩ := hname
  have hvalues : Table.same Operand.same operands p.initialValues = true :=
    Table.same_of_perm hp.distinct hoperands fun e he => (hproper e he).same_self
  rw [Program.same, hname, Value.same_text, decide_eq_true rfl, hvalues, Bool.true_and,
    Bool.and_true]
  refine ⟨hp.ownNames_of_same, fun h => ?_⟩
  rw [hp.rekeyed_of_ownNames h]
  exact Table.same_of_perm hp.nodes (.refl _) fun e he => (hp.textualNodes e he).same_self

end Program

end Dialogue
