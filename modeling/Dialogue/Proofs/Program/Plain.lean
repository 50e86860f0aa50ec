import Dialogue.Proofs.Json.Plain
import Dialogue.Proofs.Program.Equality

/-! A program that has been read from a plain document is plain in all of its parts. It is written
as its ordered form is, in which nodes stand under their own names and all mappings in the order of
theirs. It is read back as that form, which equals it. -/

namespace Dialogue

/-! ## Parts of plain values -/

theorem Table.exists_mem_of_lookup {α : Type} {t : Table α} {key : Scalar} {v : α}
    (h : lookup t key = some v) : ∃ k, (k, v) ∈ t := by
  obtain ⟨⟨k, w⟩, hfound, rfl⟩ := Option.map_eq_some_iff.mp h
  exact ⟨k, List.mem_of_find?_eq_some hfound⟩

namespace Value.Plain

variable {v w : Value} {name : String}

theorem of_lookup {entries : Table Value} {key : Scalar} (h : (Value.mapping entries).Plain)
    (hlookup : Table.lookup entries key = some w) : w.Plain := by
  obtain ⟨k, hmem⟩ := Table.exists_mem_of_lookup hlookup
  cases h with
  | mapping _ _ values_plain => exact values_plain _ hmem

theorem getD {default : Value} (h : v.Plain) (hdefault : default.Plain)
    (hget : v.getD name default = .ok w) : w.Plain := by
  cases v with
  | mapping entries =>
      obtain rfl : (Table.lookup entries (.text name)).getD default = w := Except.ok.inj hget
      cases hlookup : Table.lookup entries (.text name) with
      | none => exact hdefault
      | some w => exact h.of_lookup hlookup
  | scalar s => cases hget
  | list items => cases hget

theorem index (h : v.Plain) (hindex : v.index name = .ok w) : w.Plain := by
  cases v with
  | mapping entries =>
      rw [Value.index] at hindex
      split at hindex
      · next hlookup =>
          cases hindex
          exact h.of_lookup hlookup
      · cases hindex
  | scalar s => cases hindex
  | list items => cases hindex

theorem items {ws : List Value} (h : v.Plain) (hitems : v.items = .ok ws) :
    ∀ w ∈ ws, w.Plain := by
  cases h with
  | list items_plain =>
      cases hitems
      exact items_plain
  | mapping legible _ _ =>
      cases hitems
      refine List.forall_mem_map.mpr fun e he => ?_
      obtain ⟨t, ht, hlegible⟩ := legible e he
      rw [ht]
      exact .text hlegible
  | text _ =>
      cases hitems
      exact List.forall_mem_map.mpr fun p _ => .text (Json.legible_ofPoints (by cases p <;> rfl))
  | @scalar s written =>
      cases s with
      | text | bytes | asset => cases written
      | null | bool | int | float => cases hitems

theorem pair {a b : Value} (h : v.Plain) (hpair : v.pair = .ok (a, b)) : a.Plain ∧ b.Plain := by
  rw [Value.pair] at hpair
  split at hpair
  · next hitems =>
      cases hpair
      simpa using h.items hitems
  · cases hpair
  · cases hpair

theorem asKey {s : Scalar} (hkey : v.asKey = .ok s) : v = .scalar s := by
  cases v with
  | scalar s =>
      cases hkey
      rfl
  | list items => cases hkey
  | mapping entries => cases hkey

end Value.Plain

/-! ## Plain programs -/

structure Node.Plain (n : Node) : Prop where
  name : ∃ s, n.name = .scalar s
  name_plain : n.name.Plain
  headers : ∀ h ∈ n.headers, h.1.Plain ∧ h.2.Plain

structure Operand.Plain (o : Operand) : Prop where
  case : o.case.Plain
  value : o.value.Plain

namespace Program

/-- Nodes that a document can spell. They stand under keys that are the same as their own names, but
may be spelled otherwise. -/
structure PlainNodes (nodes : Table Node) : Prop where
  distinct : nodes.Distinct
  named : ∀ e ∈ nodes, ∃ s, e.2.name = .scalar s ∧ e.1.sameKey s = true
  plain : ∀ e ∈ nodes, e.2.Plain

structure PlainOperands (operands : Table Operand) : Prop where
  distinct : operands.Distinct
  legible : Json.LegibleKeys operands
  plain : ∀ e ∈ operands, e.2.Plain

/-- A program that a document can spell. -/
structure Plain (p : Program) : Prop where
  name : p.name.Plain
  nodes : PlainNodes p.nodes
  operands : PlainOperands p.initialValues

end Program

theorem forall_of_mapM_eq_ok {ε α β : Type} {f : α → Except ε β} {P : β → Prop} {as : List α}
    {bs : List β} (h : as.mapM f = .ok bs) (hf : ∀ a ∈ as, ∀ b, f a = .ok b → P b) :
    ∀ b ∈ bs, P b := by
  induction as generalizing bs with
  | nil =>
      cases h
      simp
  | cons a as ih =>
      rw [List.mapM_cons] at h
      obtain ⟨b, hb, h⟩ := bind_eq_ok.mp h
      obtain ⟨bs, hbs, h⟩ := bind_eq_ok.mp h
      cases h
      obtain ⟨ha, has⟩ := List.forall_mem_cons.mp hf
      exact List.forall_mem_cons.mpr ⟨ha b hb, ih hbs has⟩

theorem Node.plain_ofValue {v : Value} {n : Node} (hv : v.Plain) (h : Node.ofValue v = .ok n)
    {s : Scalar} (hname : n.name.asKey = .ok s) : n.Plain := by
  obtain ⟨name, hindex, h⟩ := bind_eq_ok.mp h
  obtain ⟨headers, hheaders, h⟩ := bind_eq_ok.mp h
  obtain ⟨items, hitems, h⟩ := bind_eq_ok.mp h
  obtain ⟨pairs, hpairs, h⟩ := bind_eq_ok.mp h
  cases h
  have hplain : headers.Plain := hv.getD (.list (by simp)) hheaders
  refine ⟨⟨s, Value.Plain.asKey hname⟩, hv.index hindex, ?_⟩
  exact forall_of_mapM_eq_ok hpairs fun w hw pair hpair => (hplain.items hitems w hw).pair hpair

theorem Operand.plain_ofValue {v : Value} {o : Operand} (hv : v.Plain)
    (h : Operand.ofValue v = .ok o) : o.Plain := by
  obtain ⟨case, hcase, h⟩ := bind_eq_ok.mp h
  obtain ⟨value, hvalue, h⟩ := bind_eq_ok.mp h
  cases h
  exact ⟨hv.index hcase, hv.getD (.scalar rfl) hvalue⟩

/-- What holds at the beginning of a fold and is kept by each step holds at its end. -/
theorem invariant_foldlM {ε α β : Type} {f : β → α → Except ε β} {I : β → Prop} {as : List α}
    {start result : β} (hstart : I start)
    (hstep : ∀ a ∈ as, ∀ b b', I b → f b a = .ok b' → I b')
    (h : as.foldlM f start = .ok result) : I result := by
  induction as generalizing start with
  | nil =>
      cases h
      exact hstart
  | cons a as ih =>
      rw [List.foldlM_cons] at h
      obtain ⟨b, hb, h⟩ := bind_eq_ok.mp h
      obtain ⟨ha, has⟩ := List.forall_mem_cons.mp hstep
      exact ih (ha start b hstart hb) has h

/-- What stands in a table after a write has stood there before, or has been written under its
key. -/
theorem Table.mem_put {α : Type} {t : Table α} {key : Scalar} {v : α} {e : Scalar × α}
    (h : e ∈ t.put key v) : e ∈ t ∨ e.2 = v ∧ e.1.sameKey key = true := by
  induction t with
  | nil =>
      obtain rfl := List.mem_singleton.mp h
      exact .inr ⟨rfl, Scalar.sameKey_refl key⟩
  | cons d t ih =>
      rw [put] at h
      split at h
      · next hkey =>
          rcases List.mem_cons.mp h with rfl | h
          · exact .inr ⟨rfl, hkey⟩
          · exact .inl (List.mem_cons_of_mem _ h)
      · rcases List.mem_cons.mp h with rfl | h
        · exact .inl List.mem_cons_self
        · exact (ih h).imp_left (List.mem_cons_of_mem _)

namespace Program

theorem PlainNodes.addNode {nodes nodes' : Table Node} {v : Value} (hnodes : PlainNodes nodes)
    (hv : v.Plain) (h : Program.addNode nodes v = .ok nodes') : PlainNodes nodes' := by
  obtain ⟨n, hn, h⟩ := bind_eq_ok.mp h
  obtain ⟨s, hs, h⟩ := bind_eq_ok.mp h
  cases h
  have hname := Value.Plain.asKey hs
  have hplain := Node.plain_ofValue hv hn hs
  refine ⟨hnodes.distinct.put s n, fun e he => ?_, fun e he => ?_⟩
  · rcases Table.mem_put he with he | ⟨rfl, hkey⟩
    · exact hnodes.named e he
    · exact ⟨s, hname, hkey⟩
  · rcases Table.mem_put he with he | ⟨rfl, -⟩
    · exact hnodes.plain e he
    · exact hplain

theorem PlainOperands.addOperand {operands operands' : Table Operand} {e : Scalar × Value}
    (hoperands : PlainOperands operands) (he : Json.IsPlainMember e)
    (h : Program.addOperand operands e = .ok operands') : PlainOperands operands' := by
  obtain ⟨o, ho, h⟩ := bind_eq_ok.mp h
  cases h
  have hall := Table.forall_put (P := fun k => ∃ t, k = .text t ∧ Json.Legible t)
    (Q := Operand.Plain) (fun d hd => ⟨hoperands.legible d hd, hoperands.plain d hd⟩) he.1
    (Operand.plain_ofValue he.2 ho)
  exact ⟨hoperands.distinct.put e.1 o, fun d hd => (hall d hd).1, fun d hd => (hall d hd).2⟩

/-- What a plain document is read as is a plain program. -/
theorem plain_ofValue {v : Value} {p : Program} (hv : v.Plain) (h : ofValue v = .ok p) :
    p.Plain := by
  obtain ⟨name, hname, h⟩ := bind_eq_ok.mp h
  obtain ⟨nodesValue, hnodesValue, h⟩ := bind_eq_ok.mp h
  obtain ⟨items, hitems, h⟩ := bind_eq_ok.mp h
  obtain ⟨nodes, hnodes, h⟩ := bind_eq_ok.mp h
  obtain ⟨operandsValue, hoperandsValue, h⟩ := bind_eq_ok.mp h
  obtain ⟨entries, hentries, h⟩ := bind_eq_ok.mp h
  obtain ⟨operands, hoperands, h⟩ := bind_eq_ok.mp h
  cases h
  have hlist : nodesValue.Plain := hv.getD (.list (by simp)) hnodesValue
  have hempty : (Value.mapping (Table.ofEntries [])).Plain := Json.plain_ofEntries (by simp)
  have hmapping : operandsValue.Plain := hv.getD hempty hoperandsValue
  have hplainNodes : PlainNodes nodes :=
    invariant_foldlM ⟨List.Pairwise.nil, by simp, by simp⟩
      (fun w hw _ _ hkept => hkept.addNode (hlist.items hitems w hw)) hnodes
  have hplainOperands : PlainOperands operands := by
    refine invariant_foldlM ⟨List.Pairwise.nil, by simp [Json.LegibleKeys], by simp⟩
      (fun e he _ _ hkept => hkept.addOperand ?_) hoperands
    cases hmapping with
    | mapping legible _ values_plain =>
        cases hentries
        exact ⟨legible e he, values_plain e he⟩
    | scalar | text | list => cases hentries
  exact ⟨hv.getD (.text (Json.legible_coe "")) hname, hplainNodes, hplainOperands⟩

end Program

/-! ## Ordered programs -/

def Node.ordered (n : Node) : Node where
  name := n.name.ordered
  headers := n.headers.map fun h => (h.1.ordered, h.2.ordered)

def Operand.ordered (o : Operand) : Operand where
  case := o.case.ordered
  value := o.value.ordered

def Node.key (n : Node) : Scalar :=
  match n.name with
  | .scalar s => s
  | _ => .null

/-- A program with its nodes under their own names, its variables in the order of theirs, and all of
its values in order. -/
def Program.ordered (p : Program) : Program where
  name := p.name.ordered
  nodes := p.nodes.map fun e => (e.2.key, e.2.ordered)
  initialValues := p.initialValues.sorted.map fun e => (e.1, e.2.ordered)

section Fields

variable {a b : String} {v w : Value}

/-- In whatever order the fields of a document stand, they are found. -/
theorem lookup_ordered (h : a ≠ b) : ∃ members,
    (Value.mapping [(.text a, v), (.text b, w)]).ordered = .mapping members ∧
      Table.lookup members (.text a) = some v.ordered ∧
      Table.lookup members (.text b) = some w.ordered := by
  refine ⟨_, Value.ordered_mapping _, ?_⟩
  exact lookup_fields h (Table.sorted_perm _)

end Fields

theorem Node.ofValue_ordered (n : Node) : Node.ofValue n.toValue.ordered = .ok n.ordered := by
  have hne : "name" ≠ "headers" := by decide
  obtain ⟨members, hmembers, hname, hheaders⟩ := lookup_ordered (v := n.name)
    (w := .list (n.headers.map fun p => .list [p.1, p.2])) hne
  have hordered : (Value.list (n.headers.map fun p => .list [p.1, p.2])).ordered =
      .list (n.ordered.headers.map fun p => .list [p.1, p.2]) := by
    simp [Node.ordered, Function.comp_def]
  have hindex : Value.index (.mapping members) "name" = .ok n.name.ordered := by
    rw [Value.index, hname]
  rw [hordered] at hheaders
  rw [show n.toValue.ordered = .mapping members from hmembers]
  refine bind_eq_ok.mpr ⟨_, hindex, bind_eq_ok.mpr ⟨_, getD_of_lookup hheaders _, ?_⟩⟩
  exact bind_eq_ok.mpr ⟨_, rfl, bind_eq_ok.mpr ⟨_, mapM_pair n.ordered.headers, rfl⟩⟩

theorem Operand.ofValue_ordered (o : Operand) :
    Operand.ofValue o.toValue.ordered = .ok o.ordered := by
  obtain ⟨members, hmembers, hcase, hvalue⟩ :=
    lookup_ordered (a := "case") (b := "value") (v := o.case) (w := o.value) (by decide)
  have hindex : Value.index (.mapping members) "case" = .ok o.case.ordered := by
    rw [Value.index, hcase]
  rw [show o.toValue.ordered = .mapping members from hmembers]
  exact bind_eq_ok.mpr ⟨_, hindex, bind_eq_ok.mpr ⟨_, getD_of_lookup hvalue _, rfl⟩⟩

theorem Node.Plain.key_eq {n : Node} (h : n.Plain) : n.name = .scalar n.key := by
  obtain ⟨s, hs⟩ := h.name
  rw [Node.key, hs]

namespace Program

variable {p : Program}

theorem foldlM_addNode {nodes : List Node} (h : ∀ n ∈ nodes, n.Plain) (table : Table Node) :
    (nodes.map fun n => n.toValue.ordered).foldlM addNode table =
      .ok ((nodes.map fun n => (n.key, n.ordered)).foldl (fun t e => t.put e.1 e.2) table) := by
  induction nodes generalizing table with
  | nil => rfl
  | cons n nodes ih =>
      obtain ⟨hn, hnodes⟩ := List.forall_mem_cons.mp h
      have hkey : n.ordered.name.asKey = .ok n.key := by
        rw [Node.ordered, hn.key_eq]
        rfl
      have hadd : addNode table n.toValue.ordered = .ok (table.put n.key n.ordered) :=
        bind_eq_ok.mpr ⟨_, n.ofValue_ordered, bind_eq_ok.mpr ⟨_, hkey, rfl⟩⟩
      rw [List.map_cons, List.foldlM_cons, hadd]
      exact ih hnodes _

theorem PlainNodes.sameKey {nodes : Table Node} (h : PlainNodes nodes) {e : Scalar × Node}
    (he : e ∈ nodes) : e.1.sameKey e.2.key = true := by
  obtain ⟨s, hs, hkey⟩ := h.named e he
  rwa [Node.key, hs]

theorem PlainNodes.distinct_keys {nodes : Table Node} (h : PlainNodes nodes) :
    Table.Distinct (nodes.map fun e => (e.2.key, e.2.ordered)) := by
  refine List.pairwise_map.mpr (List.Pairwise.imp_of_mem ?_ h.distinct)
  intro a b ha hb hab
  rwa [← Scalar.sameKey_congr (h.sameKey ha), Scalar.sameKey_comm,
    ← Scalar.sameKey_congr (h.sameKey hb), Scalar.sameKey_comm]

/-- The nodes of a plain program are read as they stand in the ordered one. -/
theorem Plain.foldlM_nodes (h : p.Plain) :
    (p.nodes.map fun e => e.2.toValue.ordered).foldlM addNode [] = .ok p.ordered.nodes := by
  have hnodes := foldlM_addNode (List.forall_mem_map.mpr h.nodes.plain) []
  rw [List.map_map, List.map_map] at hnodes
  exact hnodes.trans (congrArg _ (Table.ofEntries_of_distinct h.nodes.distinct_keys))

theorem Plain.foldlM_operands (h : p.Plain) :
    (Table.sorted (p.initialValues.map fun e => (e.1, e.2.toValue.ordered))).foldlM addOperand [] =
      .ok p.ordered.initialValues := by
  rw [h.operands.legible.textKeyed.sorted_map h.operands.distinct fun o => o.toValue.ordered]
  have hmembers : List.Forall₂ IsMember
      (p.initialValues.sorted.map fun e => (e.1, e.2.toValue.ordered)) p.ordered.initialValues :=
    List.forall₂_map_left_iff.mpr (List.forall₂_map_right_iff.mpr
      (List.forall₂_same.mpr fun e _ => ⟨rfl, e.2.ofValue_ordered⟩))
  rw [foldlM_addOperand hmembers]
  have hdistinct : p.ordered.initialValues.Distinct :=
    (h.operands.distinct.perm (Table.sorted_perm _)).map _
  exact congrArg _ (Table.ofEntries_of_distinct hdistinct)

end Program

/-! ## Documents -/

theorem Node.Plain.plain_pairs {n : Node} (h : n.Plain) :
    (Value.list (n.headers.map fun p => .list [p.1, p.2])).Plain :=
  .list (List.forall_mem_map.mpr fun p hp => .list (by simpa using h.headers p hp))

theorem Node.Plain.toValue {n : Node} (h : n.Plain) : n.toValue.Plain :=
  .mapping (Json.legibleKeys_of_textual textual_fields) (distinct_fields (by decide))
    (by simpa using ⟨h.name_plain, h.plain_pairs⟩)

theorem Operand.Plain.toValue {o : Operand} (h : o.Plain) : o.toValue.Plain :=
  .mapping (Json.legibleKeys_of_textual textual_fields) (distinct_fields (by decide))
    (by simpa using ⟨h.case, h.value⟩)

/-- A document of two fields whose values are ordered is written as before. -/
theorem Json.write_fields {a b : String} {v w : Value} (hv : v.Plain) (hw : w.Plain) :
    write (.mapping [(.text a, v.ordered), (.text b, w.ordered)]) =
      write (.mapping [(.text a, v), (.text b, w)]) := by
  simp only [write, writeEntries, write_ordered hv, write_ordered hw]

theorem Node.Plain.write_ordered {n : Node} (h : n.Plain) :
    Json.write n.ordered.toValue = Json.write n.toValue := by
  have hwrite := Json.write_fields (a := "name") (b := "headers") h.name_plain h.plain_pairs
  simpa [Node.toValue, Node.ordered, Function.comp_def] using hwrite

theorem Operand.Plain.write_ordered {o : Operand} (h : o.Plain) :
    Json.write o.ordered.toValue = Json.write o.toValue :=
  Json.write_fields h.case h.value

namespace Program.Plain

variable {p : Program}

theorem toValue (h : p.Plain) : p.toValue.Plain := by
  have hnodes : (Value.list (p.nodes.map fun e => e.2.toValue)).Plain :=
    .list (List.forall_mem_map.mpr fun e he => (h.nodes.plain e he).toValue)
  have hoperands : (Value.mapping (p.initialValues.map fun e => (e.1, e.2.toValue))).Plain :=
    .mapping (h.operands.legible.map _) (h.operands.distinct.map _)
      (List.forall_mem_map.mpr fun e he => (h.operands.plain e he).toValue)
  exact .mapping (Json.legibleKeys_of_textual p.textual_programFields) p.distinct_programFields
    (by simpa [fields] using ⟨h.name, hnodes, hoperands⟩)

/-- The ordered program is written as the program is. -/
theorem write_ordered (h : p.Plain) : Json.write p.ordered.toValue = Json.write p.toValue := by
  have hnodes : Json.write (.list (p.ordered.nodes.map fun e => e.2.toValue)) =
      Json.write (.list (p.nodes.map fun e => e.2.toValue)) := by
    have hcongr := Json.writeItems_congr (f := fun e : Scalar × Node => e.2.ordered.toValue)
      (g := fun e => e.2.toValue) fun e he => (h.nodes.plain e he).write_ordered
    rw [Program.ordered, List.map_map, Json.write, Json.write]
    simp only [Function.comp_def, hcongr]
  have hoperands :
      Json.write (.mapping (p.ordered.initialValues.map fun e => (e.1, e.2.toValue))) =
        Json.write (.mapping (p.initialValues.map fun e => (e.1, e.2.toValue))) := by
    have hcongr := Json.write_mapping_congr (f := fun o : Operand => o.ordered.toValue)
      (g := Operand.toValue) h.operands.legible.textKeyed h.operands.distinct (Table.sorted_perm _)
      fun e he => (h.operands.plain e he).write_ordered
    rwa [Program.ordered, List.map_map]
  have hname : Json.write p.ordered.name = Json.write p.name := Json.write_ordered h.name
  rw [Program.toValue, Program.toValue, Json.write, Json.write]
  simp only [Json.writeEntries, hname, hnodes, hoperands]

/-- The ordered document of a plain program is read as the ordered program. -/
theorem ofValue_ordered (h : p.Plain) : ofValue p.toValue.ordered = .ok p.ordered := by
  have hordered : p.toValue.ordered =
      .mapping (Table.sorted (p.fields.map fun e => (e.1, e.2.ordered))) :=
    Value.ordered_mapping p.fields
  have hlookup := (p.distinct_programFields.map Value.ordered).lookup_perm
    (Table.sorted_perm (p.fields.map fun e => (e.1, e.2.ordered)))
  have hname : Table.lookup (p.fields.map fun e => (e.1, e.2.ordered)) (.text "name") =
      some p.ordered.name := by
    simp [fields, Table.lookup_cons, Scalar.sameKey_text, Program.ordered]
  have hnodes : Table.lookup (p.fields.map fun e => (e.1, e.2.ordered)) (.text "nodes") =
      some (.list (p.nodes.map fun e => e.2.toValue.ordered)) := by
    simp [fields, Table.lookup_cons, Scalar.sameKey_text, Function.comp_def]
  have hoperands :
      Table.lookup (p.fields.map fun e => (e.1, e.2.ordered)) (.text "initial_values") =
        some (.mapping (Table.sorted
          (p.initialValues.map fun e => (e.1, e.2.toValue.ordered)))) := by
    simp [fields, Table.lookup_cons, Scalar.sameKey_text, Function.comp_def]
  rw [← hlookup] at hname hnodes hoperands
  rw [hordered]
  refine bind_eq_ok.mpr ⟨_, getD_of_lookup hname _, ?_⟩
  refine bind_eq_ok.mpr ⟨_, getD_of_lookup hnodes _, bind_eq_ok.mpr ⟨_, rfl, ?_⟩⟩
  refine bind_eq_ok.mpr ⟨_, h.foldlM_nodes, bind_eq_ok.mpr ⟨_, getD_of_lookup hoperands _, ?_⟩⟩
  exact bind_eq_ok.mpr ⟨_, rfl, bind_eq_ok.mpr ⟨_, h.foldlM_operands, rfl⟩⟩

end Program.Plain

/-! ## Equality of parts -/

def Operand.equals (a b : Operand) : Bool :=
  a.case.equals b.case && a.value.equals b.value

def Node.equals (a b : Node) : Bool :=
  a.name.equals b.name && a.headers.length == b.headers.length
    && (a.headers.zip b.headers).all fun (h, k) => h.1.equals k.1 && h.2.equals k.2

/-- Equality of programs, part by part, whatever the order of the tables. -/
def Program.equals (p q : Program) : Bool :=
  p.name.equals q.name && Table.same Node.equals p.nodes q.nodes
    && Table.same Operand.equals p.initialValues q.initialValues

theorem Operand.Plain.equals_ordered {o : Operand} (h : o.Plain) : o.ordered.equals o = true := by
  simp [Operand.equals, Operand.ordered, Value.equals_ordered h.case, Value.equals_ordered h.value]

theorem Node.Plain.equals_ordered {n : Node} (h : n.Plain) : n.ordered.equals n = true := by
  have hheaders : ((n.ordered.headers.zip n.headers).all fun (h, k) =>
      h.1.equals k.1 && h.2.equals k.2) = true := by
    have hzip : n.ordered.headers.zip n.headers =
        n.headers.map fun p => ((p.1.ordered, p.2.ordered), p) := by
      rw [Node.ordered, List.zip_map_left, List.zip_eq_zipWith, List.zipWith_self, List.map_map]
      rfl
    rw [hzip, List.all_map, List.all_eq_true]
    intro p hp
    obtain ⟨hkey, hvalue⟩ := h.headers p hp
    simp [Value.equals_ordered hkey, Value.equals_ordered hvalue]
  rw [Node.equals, hheaders]
  simp [Node.ordered, Value.equals_ordered h.name_plain]

theorem Program.Plain.equals_ordered {p : Program} (h : p.Plain) : p.ordered.equals p = true := by
  have hnodes : Table.same Node.equals p.ordered.nodes p.nodes = true :=
    Table.same_of_forall (k := fun e => e.2.key) h.nodes.distinct (.refl _)
      (fun e he => h.nodes.sameKey he) fun e he => (h.nodes.plain e he).equals_ordered
  have hoperands : Table.same Operand.equals p.ordered.initialValues p.initialValues = true :=
    Table.same_of_forall (k := fun e => e.1) h.operands.distinct
      ((Table.sorted_perm _).map _) (fun e _ => Scalar.sameKey_refl e.1)
      fun e he => (h.operands.plain e he).equals_ordered
  have hname : p.ordered.name.equals p.name = true := Value.equals_ordered h.name
  rw [Program.equals, hname, hnodes, hoperands]
  rfl

end Dialogue
