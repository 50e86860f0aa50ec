import Dialogue.Program
import Dialogue.Proofs.Json.Values

/-! A program of texts and constants is written as a document, and the document is read as the
program again, but for two things: nodes stand under their own names, and variables in the order of
theirs. -/

namespace Dialogue

open Json (ReadAs EntryReadAs readAs_list readAs_mapping readAs_scalar readAs_text)

/-! ## Nodes -/

/-- A node whose name and headers are texts. -/
structure Node.Textual (n : Node) : Prop where
  name : ∃ name : String, n.name = .text name
  headers : ∃ pairs : List (String × String),
    n.headers = pairs.map fun p => (.text p.1, .text p.2)

def Node.label (n : Node) : String :=
  n.name.text?.getD ""

theorem Node.Textual.name_eq {n : Node} (h : n.Textual) : n.name = .text n.label := by
  obtain ⟨name, hname⟩ := h.name
  rw [Node.label, hname]
  rfl

section Fields

variable {a b : String} {v w : Value} {members : Table Value}

theorem textual_fields : Table.Textual [(.text a, v), (.text b, w)] := by
  simp [Table.Textual, Scalar.Named, Scalar.name]

theorem distinct_fields (h : a ≠ b) : Table.Distinct [(.text a, v), (.text b, w)] := by
  simp [Table.Distinct, Scalar.sameKey_text, h]

/-- In whatever order they stand, fields are found. -/
theorem lookup_fields (h : a ≠ b) (hperm : members.Perm [(.text a, v), (.text b, w)]) :
    Table.lookup members (.text a) = some v ∧ Table.lookup members (.text b) = some w := by
  have hlookup := (distinct_fields h).lookup_perm hperm
  rw [hlookup, hlookup]
  simp [Table.lookup_cons, Scalar.sameKey_text, h]

theorem readAs_fields {v' w' : Value} (h : a ≠ b) (hv : ReadAs v v') (hw : ReadAs w w') :
    ∃ members : Table Value, members.Perm [(.text a, v'), (.text b, w')] ∧
      ReadAs (.mapping [(.text a, v), (.text b, w)]) (.mapping members) :=
  readAs_mapping (Json.legibleKeys_of_textual textual_fields) (distinct_fields h)
    (.cons ⟨rfl, hv⟩ (.cons ⟨rfl, hw⟩ .nil))

theorem getD_of_lookup (h : Table.lookup members (.text a) = some v) (w : Value) :
    Value.getD (.mapping members) a w = .ok v := by
  rw [Value.getD, Value.get?, h]
  rfl

end Fields

theorem mapM_pair (pairs : List (Value × Value)) :
    (pairs.map fun p => Value.list [p.1, p.2]).mapM Value.pair = .ok pairs := by
  induction pairs with
  | nil => rfl
  | cons p pairs ih =>
      rw [List.map_cons, List.mapM_cons, ih]
      rfl

theorem Node.Textual.readAs {n : Node} (h : n.Textual) :
    ∃ v, ReadAs n.toValue v ∧ Node.ofValue v = .ok n := by
  obtain ⟨pairs, hpairs⟩ := h.headers
  have hheaders : ReadAs (.list (n.headers.map fun p => .list [p.1, p.2]))
      (.list (n.headers.map fun p => .list [p.1, p.2])) := by
    refine readAs_list (List.forall₂_same.mpr fun v hv => ?_)
    obtain ⟨p, hp, rfl⟩ := List.mem_map.mp hv
    rw [hpairs] at hp
    obtain ⟨p, -, rfl⟩ := List.mem_map.mp hp
    exact readAs_list (.cons (readAs_text p.1) (.cons (readAs_text p.2) .nil))
  have hname : ReadAs n.name n.name := h.name_eq ▸ readAs_text n.label
  have hne : "name" ≠ "headers" := by decide
  obtain ⟨members, hperm, hread⟩ := readAs_fields hne hname hheaders
  obtain ⟨hlookup, hlookup'⟩ := lookup_fields hne hperm
  have hindex : Value.index (.mapping members) "name" = .ok n.name := by rw [Value.index, hlookup]
  refine ⟨.mapping members, hread, bind_eq_ok.mpr ⟨_, hindex, ?_⟩⟩
  refine bind_eq_ok.mpr ⟨_, getD_of_lookup hlookup' _, bind_eq_ok.mpr ⟨_, rfl, ?_⟩⟩
  exact bind_eq_ok.mpr ⟨_, mapM_pair n.headers, rfl⟩

/-! ## Operands -/

/-- An operand that is made of a constant. -/
def Operand.IsConstant (o : Operand) : Prop :=
  ∃ v, Operand.of v = .ok o

theorem Operand.IsConstant.cases {o : Operand} (h : o.IsConstant) :
    (∃ b, o = ⟨.text boolCase, .bool b⟩) ∨ (∃ x, o = ⟨.text floatCase, .float x⟩) ∨
      ∃ s, o = ⟨.text stringCase, .text s⟩ := by
  obtain ⟨v, hv⟩ := h
  have hfloat : ∀ w : Value, (w.toFloat.map fun x => Operand.mk (.text floatCase) (.float x)) =
      .ok o → ∃ x, o = ⟨.text floatCase, .float x⟩ := by
    intro w hw
    cases hx : w.toFloat with
    | error e => simp [hx, Except.map] at hw
    | ok x =>
        rw [hx] at hw
        exact ⟨x, (Except.ok.inj hw).symm⟩
  rw [Operand.of.eq_def] at hv
  split at hv
  · exact .inl ⟨_, (Except.ok.inj hv).symm⟩
  · exact .inr (.inl (hfloat _ hv))
  · exact .inr (.inl (hfloat _ hv))
  · exact .inr (.inr ⟨_, (Except.ok.inj hv).symm⟩)
  · cases hv

theorem Operand.IsConstant.exists_scalar {o : Operand} (h : o.IsConstant) :
    ∃ case s, o = ⟨.text case, .scalar s⟩ ∧ ReadAs (.scalar s) (.scalar s) := by
  obtain ⟨b, rfl⟩ | ⟨x, rfl⟩ | ⟨s, rfl⟩ := h.cases
  · exact ⟨_, _, rfl, readAs_scalar rfl⟩
  · exact ⟨_, _, rfl, readAs_scalar rfl⟩
  · exact ⟨_, _, rfl, readAs_text s⟩

/-- The document of an operand is read as the operand. -/
theorem Operand.IsConstant.readAs {o : Operand} (h : o.IsConstant) :
    ∃ v, ReadAs o.toValue v ∧ Operand.ofValue v = .ok o := by
  obtain ⟨case, s, rfl, hs⟩ := h.exists_scalar
  have hne : "case" ≠ "value" := by decide
  obtain ⟨members, hperm, hread⟩ := readAs_fields hne (readAs_text case) hs
  obtain ⟨hlookup, hlookup'⟩ := lookup_fields hne hperm
  have hindex : Value.index (.mapping members) "case" = .ok (.text case) := by
    rw [Value.index, hlookup]
  refine ⟨.mapping members, hread, bind_eq_ok.mpr ⟨_, hindex, ?_⟩⟩
  exact bind_eq_ok.mpr ⟨_, getD_of_lookup hlookup' _, rfl⟩

/-! ## Programs -/

/-- A program of texts and constants: its tables have each key once, names and headers are texts,
and initial values are made of constants. -/
structure Program.WellTyped (p : Program) : Prop where
  nodes : p.nodes.Distinct
  textualNodes : ∀ e ∈ p.nodes, e.2.Textual
  textualNames : p.initialValues.Textual
  distinct : p.initialValues.Distinct
  constants : ∀ e ∈ p.initialValues, e.2.IsConstant

namespace Program

/-- The nodes of a program under their own names. -/
def rekeyed (p : Program) : Table Node :=
  Table.ofEntries (p.nodes.map fun e => (.text e.2.label, e.2))

theorem readAs_nodes {nodes : List Node} (h : ∀ n ∈ nodes, n.Textual) :
    ∃ vs, List.Forall₂ ReadAs (nodes.map Node.toValue) vs ∧
      ∀ table, vs.foldlM addNode table =
        .ok ((nodes.map fun n => (Scalar.text n.label, n)).foldl
          (fun t e => t.put e.1 e.2) table) := by
  induction nodes with
  | nil => exact ⟨[], .nil, fun _ => rfl⟩
  | cons n nodes ih =>
      obtain ⟨hn, hnodes⟩ := List.forall_mem_cons.mp h
      obtain ⟨v, hread, hofValue⟩ := hn.readAs
      obtain ⟨vs, hall, hfold⟩ := ih hnodes
      refine ⟨v :: vs, .cons hread hall, fun table => ?_⟩
      have hadd : addNode table v = .ok (table.put (.text n.label) n) := by
        rw [addNode, hofValue]
        exact bind_eq_ok.mpr ⟨n, rfl, bind_eq_ok.mpr ⟨.text n.label, by rw [hn.name_eq]; rfl, rfl⟩⟩
      rw [List.foldlM_cons, hadd]
      exact hfold _

/-- A document of an operand under the name of its variable. -/
def IsMember (d : Scalar × Value) (e : Scalar × Operand) : Prop :=
  e.1 = d.1 ∧ Operand.ofValue d.2 = .ok e.2

theorem foldlM_addOperand {members : Table Value} {operands table : Table Operand}
    (h : List.Forall₂ IsMember members operands) :
    members.foldlM addOperand table = .ok (operands.foldl (fun t e => t.put e.1 e.2) table) := by
  induction h generalizing table with
  | nil => rfl
  | @cons d e _ _ hd _ ih =>
      have hadd : addOperand table d = .ok (table.put e.1 e.2) := by
        rw [addOperand, hd.2, hd.1]
        rfl
      rw [List.foldlM_cons, hadd]
      exact ih

theorem exists_members {operands : Table Operand} (h : ∀ e ∈ operands, e.2.IsConstant) :
    ∃ docs, List.Forall₂ EntryReadAs (operands.map fun e => (e.1, e.2.toValue)) docs ∧
      List.Forall₂ IsMember docs operands := by
  induction operands with
  | nil => exact ⟨[], .nil, .nil⟩
  | cons e operands ih =>
      obtain ⟨he, hoperands⟩ := List.forall_mem_cons.mp h
      obtain ⟨v, hread, hofValue⟩ := he.readAs
      obtain ⟨docs, hall, hmembers⟩ := ih hoperands
      exact ⟨(e.1, v) :: docs, .cons ⟨rfl, hread⟩ hall, .cons ⟨rfl, hofValue⟩ hmembers⟩

/-- The initial values are read in the order of their variables. -/
theorem readAs_operands {operands : Table Operand} (textual : operands.Textual)
    (distinct : operands.Distinct) (h : ∀ e ∈ operands, e.2.IsConstant) :
    ∃ (members : Table Value) (operands' : Table Operand),
      ReadAs (.mapping (operands.map fun e => (e.1, e.2.toValue))) (.mapping members) ∧
      operands'.Perm operands ∧ members.foldlM addOperand [] = .ok operands' := by
  obtain ⟨docs, hall, hmembers⟩ := exists_members h
  have htextual : Table.Textual (operands.map fun e => (e.1, e.2.toValue)) := by
    intro e he
    obtain ⟨e', he', rfl⟩ := List.mem_map.mp he
    exact textual e' he'
  obtain ⟨members, hperm, hread⟩ := readAs_mapping (Json.legibleKeys_of_textual htextual)
    (List.pairwise_map.mpr distinct) hall
  obtain ⟨operands', hmembers', hperm'⟩ := List.perm_comp_forall₂ hperm hmembers
  refine ⟨members, operands', hread, hperm', ?_⟩
  rw [foldlM_addOperand hmembers']
  exact congrArg _ (Table.ofEntries_of_distinct (distinct.perm hperm'))

section Fields

variable (p : Program)

def fields : Table Value :=
  [(.text "name", p.name), (.text "nodes", .list (p.nodes.map fun e => e.2.toValue)),
    (.text "initial_values", .mapping (p.initialValues.map fun e => (e.1, e.2.toValue)))]

theorem textual_programFields : p.fields.Textual := by
  simp [fields, Table.Textual, Scalar.Named, Scalar.name]

theorem distinct_programFields : p.fields.Distinct := by
  simp [fields, Table.Distinct, Scalar.sameKey_text]

end Fields

variable {p : Program}

/-- The document of a program is read as the program with its nodes under their own names. -/
theorem WellTyped.readAs (h : p.WellTyped) {name : Value} (hname : ReadAs p.name name) :
    ∃ v operands, ReadAs p.toValue v ∧ operands.Perm p.initialValues ∧
      Program.ofValue v = .ok ⟨name, p.rekeyed, operands⟩ := by
  have htextual : ∀ n ∈ p.nodes.map Prod.snd, n.Textual := List.forall_mem_map.mpr h.textualNodes
  obtain ⟨nodes, hnodes, hfold⟩ := readAs_nodes htextual
  obtain ⟨members, operands, hmembers, hperm, hoperands⟩ :=
    readAs_operands h.textualNames h.distinct h.constants
  rw [List.map_map] at hnodes
  have hfields : List.Forall₂ EntryReadAs p.fields
      [(.text "name", name), (.text "nodes", .list nodes),
        (.text "initial_values", .mapping members)] :=
    .cons ⟨rfl, hname⟩ (.cons ⟨rfl, readAs_list hnodes⟩ (.cons ⟨rfl, hmembers⟩ .nil))
  obtain ⟨document, hdocument, hread⟩ :=
    readAs_mapping (Json.legibleKeys_of_textual p.textual_programFields) p.distinct_programFields
      hfields
  have hlookup :=
    (p.distinct_programFields.of_keys (Json.keys_of_forall₂ hfields)).lookup_perm hdocument
  refine ⟨.mapping document, operands, hread, hperm, ?_⟩
  have hname' : Table.lookup document (.text "name") = some name := by
    rw [hlookup]
    simp [Table.lookup_cons, Scalar.sameKey_text]
  have hnodes' : Table.lookup document (.text "nodes") = some (.list nodes) := by
    rw [hlookup]
    simp [Table.lookup_cons, Scalar.sameKey_text]
  have hvalues' : Table.lookup document (.text "initial_values") = some (.mapping members) := by
    rw [hlookup]
    simp [Table.lookup_cons, Scalar.sameKey_text]
  have hrekeyed : nodes.foldlM addNode [] = .ok p.rekeyed := by
    rw [hfold, rekeyed, Table.ofEntries, List.map_map]
    rfl
  refine bind_eq_ok.mpr ⟨_, getD_of_lookup hname' _, ?_⟩
  refine bind_eq_ok.mpr ⟨_, getD_of_lookup hnodes' _, bind_eq_ok.mpr ⟨_, rfl, ?_⟩⟩
  refine bind_eq_ok.mpr ⟨_, hrekeyed, bind_eq_ok.mpr ⟨_, getD_of_lookup hvalues' _, ?_⟩⟩
  exact bind_eq_ok.mpr ⟨_, rfl, bind_eq_ok.mpr ⟨_, hoperands, rfl⟩⟩

end Program

end Dialogue
