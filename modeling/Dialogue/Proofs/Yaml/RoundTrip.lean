import Dialogue.Proofs.Value.Order
import Dialogue.Proofs.Yaml.Trees

/-! The tree of a value stands for the value, so that what is written of a value is parsed as the
value. -/

namespace Dialogue.Yaml

variable {depth : Nat} {v : Value} {vs : List Value} {es : List (Scalar × Value)} {s : Scalar}
  {tag : Tag} {text : List Char}

/-! ## Scalars -/

theorem isScalarTag_of_read (h : Scalar.read tag text = .ok s) : Node.isScalarTag tag = true := by
  cases tag <;> first | rfl | cases h

theorem value_scalarNode (h : ScalarKept s tag text) : (scalarNode s).value = .ok (.scalar s) := by
  have hnode : scalarNode s = .scalar (if Style.of tag text = .plain then tag else .text) text := by
    rw [scalarNode, h.written]
    rfl
  rw [hnode, Node.value, if_pos (isScalarTag_of_read h.read), Node.scalarOf, h.read]
  rfl

/-- Texts are read as texts, whatever their style. -/
theorem scalarKept_text {t : String} (h : Kept t.toList) : ScalarKept (.text t) .text t.toList where
  written := rfl
  kept := h
  ne_nil := ne_nil_of_text
  read := by rw [ite_self, Scalar.read, String.ofList_toList]

theorem scalarKept_null : ScalarKept .null .null "null".toList where
  written := rfl
  kept := fun hnext => absurd hnext (by decide)
  ne_nil := by decide
  read := by
    rw [if_pos (by decide)]
    rfl

theorem scalarKept_bool (b : Bool) :
    ScalarKept (.bool b) .bool (if b then "true".toList else "false".toList) where
  written := by cases b <;> rfl
  kept := fun hnext => absurd hnext (by cases b <;> decide)
  ne_nil := by cases b <;> decide
  read := by cases b <;> (rw [if_pos (by decide)]; rfl)

theorem KeyKept.eq_text (h : KeyKept s text) : ∃ t : String, s = .text t ∧ text = t.toList := by
  cases s with
  | text t =>
      obtain ⟨t, _ | ⟨e, torn⟩⟩ := t
      · obtain ⟨-, htext⟩ := Prod.mk.inj (Option.some.inj h.written)
        exact ⟨t, rfl, htext.symm⟩
      · cases h.written
  | null | bool | int | float =>
      obtain ⟨htag, -⟩ := Prod.mk.inj (Option.some.inj h.written)
      cases htag
  | bytes | asset => cases h.written

theorem KeyKept.scalarKept (h : KeyKept s text) : ScalarKept s .text text := by
  obtain ⟨t, rfl, rfl⟩ := h.eq_text
  exact scalarKept_text h.kept

theorem tag_scalarNode (h : KeyKept s text) : (scalarNode s).tag = .text := by
  rw [scalarNode, h.written]
  dsimp only [Option.elim_some]
  rw [ite_self]
  rfl

/-! ## Lists and mappings -/

theorem all_map_ok {α : Type} (as : List α) : Outcome.all (as.map Except.ok) = .ok as := by
  induction as with
  | nil => rfl
  | cons a as ih =>
      rw [List.map_cons, Outcome.all, ih]
      rfl

theorem values_itemNodes (h : ∀ v ∈ vs, (nodeOf v).value = .ok v) :
    Node.values (itemNodes vs) = vs.map Except.ok := by
  induction vs with
  | nil => rfl
  | cons v vs ih =>
      obtain ⟨hv, hvs⟩ := List.forall_mem_cons.mp h
      rw [itemNodes, Node.values, hv, ih hvs, List.map_cons]

/-- No key of a value is that of a mapping to be merged, or of the text that stands for a
mapping. -/
theorem entries_entryNodes (hkeys : ∀ e ∈ es, ∃ text, KeyKept e.1 text)
    (h : ∀ e ∈ es, (nodeOf e.2).value = .ok e.2) :
    Node.entries (entryNodes es) = .ok ([], es.map Except.ok) := by
  induction es with
  | nil => rfl
  | cons e es ih =>
      obtain ⟨k, v⟩ := e
      obtain ⟨⟨text, hkey⟩, hkeys⟩ := List.forall_mem_cons.mp hkeys
      obtain ⟨hv, hes⟩ := List.forall_mem_cons.mp h
      have htag := tag_scalarNode hkey
      rw [entryNodes, Node.entries, if_neg (by rw [htag]; decide), if_neg (by rw [htag]; decide),
        ih hkeys hes, value_scalarNode hkey.scalarKept, hv]
      rfl

/-- The tree of a value that is stored stands for the value. -/
theorem value_nodeOf (h : Storable depth v) : (nodeOf v).value = .ok v := by
  induction h with
  | scalar hs => exact value_scalarNode hs
  | list _ ih =>
      rw [nodeOf, Node.value, if_pos rfl, values_itemNodes ih, all_map_ok]
      rfl
  | @mapping _ es hdistinct hkeys _ ih =>
      rw [nodeOf, Node.value, if_pos rfl, entries_entryNodes hkeys ih]
      dsimp only
      rw [List.nil_append, all_map_ok]
      change Except.ok (Value.mapping (Table.ofEntries es)) = _
      rw [Table.ofEntries_of_distinct hdistinct]

/-! ## Documents -/

theorem ofTokens_valueTokens {e : Scalar × Value} {rest : List (Scalar × Value)}
    (h : Storable depth (.mapping (e :: rest))) :
    Node.ofTokens (valueTokens false (.mapping (e :: rest))) =
      .ok (some (nodeOf (.mapping (e :: rest)))) := by
  have htokens : valueTokens false (.mapping (e :: rest)) =
      .blockMapping :: (entryTokens (e :: rest) ++ [.blockEnd]) := by
    simp [valueTokens]
  have hnode := (Node.parsed_of_storable h).node true false
    (4 * (valueTokens false (.mapping (e :: rest))).length + 4) []
    { tokens := valueTokens false (.mapping (e :: rest)) } (absurd · (by decide))
    (absurd · (by decide)) (Nat.le_add_right _ _) (List.append_nil _).symm
  have hdocument : Node.readDocument { tokens := valueTokens false (.mapping (e :: rest)) } =
      .ok (nodeOf (.mapping (e :: rest)), []) := by
    rw [Node.readDocument]
    exact bind_eq_ok.mpr ⟨_, hnode, rfl⟩
  rw [htokens] at hdocument ⊢
  unfold Node.ofTokens
  exact bind_eq_ok.mpr ⟨_, hdocument, rfl⟩

/-- What is written of a mapping is parsed as the mapping. -/
theorem exists_parse_render {e : Scalar × Value} {rest : List (Scalar × Value)}
    (h : Storable (depth + 1) (.mapping (e :: rest)))
      (hroom : 2 * depth + indentation < pageWidth) :
    ∃ text, render (.mapping (e :: rest)) = .ok text ∧ Printed text.toList ∧
      parse text = .ok (.mapping (e :: rest)) := by
  have hnode := ofTokens_valueTokens h
  have hvalue := value_nodeOf h
  cases h with
  | mapping _ hkeys hvalues =>
      obtain ⟨text, hrender, hprinted, htokens⟩ := exists_tokensOf_render hkeys hvalues hroom
      refine ⟨text, hrender, hprinted, ?_⟩
      rw [parse, htokens]
      refine bind_eq_ok.mpr ⟨_, hnode, ?_⟩
      dsimp only
      rw [hvalue]
      rfl

/-! ## Characters -/

def renderChars (v : Value) : Except Fault (List Char) :=
  match putValue none false v {} with
  | some p =>
    let p := p.indentTo 0
    .ok (if isOpenEnded v then p.put "...\n".toList else p).text
  | none => .error .yaml

theorem render_eq (v : Value) : render v = (renderChars v).map String.ofList := by
  unfold render renderChars
  cases putValue none false v {} with
  | none => rfl
  | some p => rfl

def parseChars (text : List Char) : Except Fault Value := do
  match ← Node.ofTokens (Layout.tokensOf text) with
  | none => return .null
  | some n =>
    match n.value with
    | .ok v => return v
    | .error b => throw b.fault

theorem parse_ofList (text : List Char) : parse (String.ofList text) = parseChars text := by
  rw [parse, String.toList_ofList]
  rfl

/-- What is written of a value can be read without a text in between. -/
theorem render_bind_parse (v : Value) : (render v >>= parse) = (renderChars v >>= parseChars) := by
  rw [render_eq]
  cases renderChars v with
  | error e => rfl
  | ok text => exact parse_ofList text

end Dialogue.Yaml
