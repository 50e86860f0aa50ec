import Dialogue.Proofs.Yaml.Blocks
import Dialogue.Yaml.Reader

/-! The tokens of a value are parsed as the tree of its parts, and the tree stands for the value. -/

namespace Dialogue.Yaml

/-! ## The tree of a value -/

def scalarNode (s : Scalar) : Node :=
  (written? s).elim .empty fun (tag, text) =>
    .scalar (if Style.of tag text = .plain then tag else .text) text

mutual

def nodeOf : Value → Node
  | .scalar s => scalarNode s
  | .list vs => .list .list (itemNodes vs)
  | .mapping es => .mapping .mapping (entryNodes es)
termination_by structural v => v

def itemNodes : List Value → List Node
  | [] => []
  | v :: rest => nodeOf v :: itemNodes rest
termination_by structural v => v

def entryNodes : List (Scalar × Value) → List (Node × Node)
  | [] => []
  | (k, v) :: rest => (scalarNode k, nodeOf v) :: entryNodes rest
termination_by structural v => v

end

namespace Node

/-! ## Single steps -/

section

variable {α β : Type} {s s' : Parse} {t : Token} {rest : List Token} {n : Node} {loose : Bool}
  {fuel : Nat}

theorem bind_ok {x : Parser α} {f : α → Parser β} {a : α} (h : x s = .ok (a, s')) :
    (x >>= f) s = f a s' := by
  change (x s >>= fun r => f r.1 r.2) = _
  rw [h]
  rfl

theorem consume_of (hs : s.tokens = t :: rest) :
    consume s = .ok ((), { s with tokens := rest }) := by
  have hconsume : consume s = .ok ((), { s with tokens := s.tokens.tail }) := rfl
  rw [hconsume, hs]
  rfl

theorem next?_eq (ht : ∀ f, t ≠ .broken f) (hs : s.tokens = t :: rest) :
    next? s = .ok (some t, s) := by
  obtain ⟨tokens, handles, anchors⟩ := s
  dsimp only at hs
  subst hs
  cases t <;> first | rfl | exact absurd rfl (ht _)

/-- The tokens that a node without properties begins with. -/
def isOpening : Token → Bool
  | .scalar .. | .flowSequence | .flowMapping | .blockSequence | .blockMapping | .item => true
  | _ => false

theorem next?_of_opening (ht : isOpening t = true) (hs : s.tokens = t :: rest) :
    next? s = .ok (some t, s) :=
  next?_eq (by rintro f rfl; cases ht) hs

theorem readNode_of_content (ht : isOpening t = true) (hs : s.tokens = t :: rest)
    (h : readContent true loose {} fuel s = .ok (n, s')) :
    readNode true loose (fuel + 1) s = .ok (n, s') := by
  have hnext := next?_of_opening ht hs
  have hanchor : accept? anchorOf? s = .ok (none, s) := by
    refine (bind_ok hnext).trans ?_
    cases t <;> first | rfl | cases ht
  have htag : accept? tagOf? s = .ok (none, s) := by
    refine (bind_ok hnext).trans ?_
    cases t <;> first | rfl | cases ht
  have hproperties : properties s = .ok ({}, s) :=
    (bind_ok hanchor).trans ((bind_ok htag).trans rfl)
  have hbegin : begin {} s = .ok ((), s) := rfl
  have hrest : (do
      let p ← properties
      begin p
      name p (← readContent true loose p fuel)) s = .ok (n, s') :=
    (bind_ok hproperties).trans ((bind_ok hbegin).trans ((bind_ok h).trans rfl))
  rw [readNode]
  refine (bind_ok hnext).trans ?_
  cases t <;> first | exact hrest | cases ht

theorem readOptional_of_node {ends : Token → Bool} (ht : isOpening t = true)
    (hends : ends t = false)
    (hs : s.tokens = t :: rest) (h : readNode true loose fuel s = .ok (n, s')) :
    readOptional ends true loose (fuel + 1) s = .ok (n, s') := by
  have hnext : nextIs ends s = .ok (false, s) := by
    refine (bind_ok (next?_of_opening ht hs)).trans ?_
    exact congrArg (fun b => Except.ok (b, s)) hends
  rw [readOptional]
  exact (bind_ok hnext).trans h

theorem readValue_of_node (ht : isOpening t = true) (hends : endsEntry t = false)
    (hs : s.tokens = .value :: t :: rest)
    (h : readNode true true fuel { s with tokens := t :: rest } = .ok (n, s')) :
    readValue endsEntry true (fuel + 2) s = .ok (n, s') := by
  have hnext : nextIs isValue s = .ok (true, s) :=
    (bind_ok (next?_eq (by rintro f ⟨⟩) hs)).trans rfl
  rw [readValue]
  refine (bind_ok hnext).trans ((bind_ok (consume_of hs)).trans ?_)
  exact readOptional_of_node ht hends rfl h

/-! ## Scalars and brackets -/

theorem readNode_scalar {k : Scalar} {tag : Tag} {text : List Char}
    (hk : written? k = some (tag, text)) (loose : Bool) (fuel : Nat)
    (hs : s.tokens = scalarToken tag text :: rest) :
    readNode true loose (fuel + 2) s = .ok (scalarNode k, { s with tokens := rest }) := by
  have htag : ({} : Properties).scalarTag (decide (Style.of tag text = .plain)) text =
      if Style.of tag text = .plain then tag else .text := by
    split
    · next hplain => rw [hplain, ← (style_plain hplain).1]; rfl
    · next hplain =>
      rw [decide_eq_false hplain]
      rfl
  have hnode : scalarNode k =
      .scalar (({} : Properties).scalarTag (decide (Style.of tag text = .plain)) text) text := by
    rw [scalarNode, hk, htag]
    rfl
  refine readNode_of_content rfl hs ?_
  rw [readContent, hnode]
  exact (bind_ok (next?_of_opening rfl hs)).trans ((bind_ok (consume_of hs)).trans rfl)

theorem readNode_emptyList (loose : Bool) (fuel : Nat)
    (hs : s.tokens = .flowSequence :: .flowSequenceEnd :: rest) :
    readNode true loose (fuel + 3) s = .ok (.list .list [], { s with tokens := rest }) := by
  have hitems : readFlowItems true (fuel + 1) { s with tokens := .flowSequenceEnd :: rest } =
      .ok ([], { s with tokens := rest }) := by
    rw [readFlowItems]
    exact (bind_ok (next?_eq (by rintro f ⟨⟩) rfl)).trans rfl
  refine readNode_of_content rfl hs ?_
  rw [readContent]
  exact (bind_ok (next?_of_opening rfl hs)).trans ((bind_ok (consume_of hs)).trans
    ((bind_ok hitems).trans rfl))

theorem readNode_emptyMapping (loose : Bool) (fuel : Nat)
    (hs : s.tokens = .flowMapping :: .flowMappingEnd :: rest) :
    readNode true loose (fuel + 3) s = .ok (.mapping .mapping [], { s with tokens := rest }) := by
  have hentries : readFlowEntries true (fuel + 1) { s with tokens := .flowMappingEnd :: rest } =
      .ok ([], { s with tokens := rest }) := by
    rw [readFlowEntries]
    exact (bind_ok (next?_eq (by rintro f ⟨⟩) rfl)).trans rfl
  refine readNode_of_content rfl hs ?_
  rw [readContent]
  exact (bind_ok (next?_of_opening rfl hs)).trans ((bind_ok (consume_of hs)).trans
    ((bind_ok hentries).trans rfl))

/-! ## Blocks -/

theorem readNode_items {nodes : List Node} (loose : Bool) (hs : s.tokens = .blockSequence :: rest)
    (h : readItems fuel { s with tokens := rest } = .ok (nodes, s')) :
    readNode true loose (fuel + 2) s = .ok (.list .list nodes, s') := by
  refine readNode_of_content rfl hs ?_
  rw [readContent]
  exact (bind_ok (next?_of_opening rfl hs)).trans ((bind_ok (consume_of hs)).trans
    ((bind_ok h).trans rfl))

theorem readNode_looseItems {nodes : List Node} (hs : s.tokens = .item :: rest)
    (h : readLooseItems fuel s = .ok (nodes, s')) :
    readNode true true (fuel + 2) s = .ok (.list .list nodes, s') := by
  refine readNode_of_content rfl hs ?_
  rw [readContent]
  exact (bind_ok (next?_of_opening rfl hs)).trans ((bind_ok h).trans rfl)

theorem readNode_entries {nodes : List (Node × Node)} (loose : Bool)
    (hs : s.tokens = .blockMapping :: rest)
    (h : readEntries fuel { s with tokens := rest } = .ok (nodes, s')) :
    readNode true loose (fuel + 2) s = .ok (.mapping .mapping nodes, s') := by
  refine readNode_of_content rfl hs ?_
  rw [readContent]
  exact (bind_ok (next?_of_opening rfl hs)).trans ((bind_ok (consume_of hs)).trans
    ((bind_ok h).trans rfl))

section Steps

variable {s₁ : Parse} {nodes : List Node} {entries : List (Node × Node)} {key : Node}

theorem readItems_nil (fuel : Nat) (hs : s.tokens = .blockEnd :: rest) :
    readItems (fuel + 1) s = .ok ([], { s with tokens := rest }) := by
  rw [readItems]
  exact (bind_ok (next?_eq (by rintro f ⟨⟩) hs)).trans ((bind_ok (consume_of hs)).trans rfl)

theorem readItems_cons (ht : isOpening t = true) (hends : endsItem t = false)
    (hs : s.tokens = .item :: t :: rest)
    (hnode : readNode true false fuel { s with tokens := t :: rest } = .ok (n, s₁))
    (hmore : readItems (fuel + 1) s₁ = .ok (nodes, s')) :
    readItems (fuel + 2) s = .ok (n :: nodes, s') := by
  have hitem := readOptional_of_node ht hends rfl hnode
  rw [readItems]
  exact (bind_ok (next?_of_opening rfl hs)).trans ((bind_ok (consume_of hs)).trans
    ((bind_ok hitem).trans ((bind_ok hmore).trans rfl)))

theorem readLooseItems_nil (fuel : Nat) (ht : endsEntry t = true) (hs : s.tokens = t :: rest) :
    readLooseItems (fuel + 1) s = .ok ([], s) := by
  rw [readLooseItems]
  refine (bind_ok (next?_eq (by rintro f rfl; cases ht) hs)).trans ?_
  cases t <;> first | rfl | cases ht

theorem readLooseItems_cons (ht : isOpening t = true) (hends : endsLooseItem t = false)
    (hs : s.tokens = .item :: t :: rest)
    (hnode : readNode true false fuel { s with tokens := t :: rest } = .ok (n, s₁))
    (hmore : readLooseItems (fuel + 1) s₁ = .ok (nodes, s')) :
    readLooseItems (fuel + 2) s = .ok (n :: nodes, s') := by
  have hitem := readOptional_of_node ht hends rfl hnode
  rw [readLooseItems]
  exact (bind_ok (next?_of_opening rfl hs)).trans ((bind_ok (consume_of hs)).trans
    ((bind_ok hitem).trans ((bind_ok hmore).trans rfl)))

theorem readEntries_nil (fuel : Nat) (hs : s.tokens = .blockEnd :: rest) :
    readEntries (fuel + 1) s = .ok ([], { s with tokens := rest }) := by
  rw [readEntries]
  exact (bind_ok (next?_eq (by rintro f ⟨⟩) hs)).trans ((bind_ok (consume_of hs)).trans rfl)

theorem readEntries_cons {keyToken : Token} (hkey : isOpening keyToken = true)
    (hkeyEnds : endsEntry keyToken = false) (ht : isOpening t = true) (hends : endsEntry t = false)
    {behindKey : List Token} (hs : s.tokens = .key :: keyToken :: behindKey)
    (hkeyNode : readNode true true (fuel + 1) { s with tokens := keyToken :: behindKey } =
      .ok (key, s₁))
    (hs₁ : s₁.tokens = .value :: t :: rest) {s₂ : Parse}
    (hnode : readNode true true fuel { s₁ with tokens := t :: rest } = .ok (n, s₂))
    (hmore : readEntries (fuel + 2) s₂ = .ok (entries, s')) :
    readEntries (fuel + 3) s = .ok ((key, n) :: entries, s') := by
  have hread := readOptional_of_node hkey hkeyEnds rfl hkeyNode
  have hvalue := readValue_of_node ht hends hs₁ hnode
  rw [readEntries]
  exact (bind_ok (next?_eq (by rintro f ⟨⟩) hs)).trans ((bind_ok (consume_of hs)).trans
    ((bind_ok hread).trans ((bind_ok hvalue).trans ((bind_ok hmore).trans rfl))))

end Steps

end

/-! ## Whole values -/

/-- The tokens of a value are parsed as its tree, with fuel enough for every token. -/
structure Parsed (v : Value) : Prop where
  opening : ∀ loose, ∃ t more, valueTokens loose v = t :: more ∧ isOpening t = true ∧
    (loose = false → endsItem t = false)
  node : ∀ (own loose : Bool) (fuel : Nat) (rest : List Token) (s : Parse),
    (own = false → loose = true) →
    (own = false → ∃ t more, rest = t :: more ∧ endsEntry t = true) →
    4 * (valueTokens (!own) v).length ≤ fuel → s.tokens = valueTokens (!own) v ++ rest →
    readNode true loose fuel s = .ok (nodeOf v, { s with tokens := rest })

theorem endsEntry_of_opening {t : Token} (ht : isOpening t = true) : endsEntry t = false := by
  cases t <;> first | rfl | cases ht

theorem endsLooseItem_of_opening {t : Token} (ht : isOpening t = true)
    (hitem : endsItem t = false) :
    endsLooseItem t = false := by
  rw [endsLooseItem, hitem, endsEntry_of_opening ht]
  rfl

variable {vs : List Value} {rest : List Token} {s : Parse} {fuel : Nat}

theorem readItems_tokens (h : ∀ v ∈ vs, Parsed v)
    (hfuel : 4 * (itemTokens vs).length ≤ fuel + 2) (hpos : 0 < fuel)
    (hs : s.tokens = itemTokens vs ++ .blockEnd :: rest) :
    readItems fuel s = .ok (itemNodes vs, { s with tokens := rest }) := by
  induction vs generalizing fuel s with
  | nil =>
      obtain ⟨fuel, rfl⟩ := Nat.exists_eq_succ_of_ne_zero hpos.ne'
      exact readItems_nil fuel hs
  | cons v vs ih =>
      obtain ⟨hv, hvs⟩ := List.forall_mem_cons.mp h
      obtain ⟨t, more, htokens, ht, hends⟩ := hv.opening false
      rw [itemTokens] at hs hfuel
      simp only [List.cons_append, List.append_assoc, List.length_cons,
        List.length_append] at hs hfuel
      obtain ⟨fuel, rfl⟩ : ∃ n, fuel = n + 2 := ⟨fuel - 2, by omega⟩
      have hnode := hv.node true false fuel (itemTokens vs ++ .blockEnd :: rest)
        { s with tokens := valueTokens false v ++ (itemTokens vs ++ .blockEnd :: rest) }
        (absurd · (by decide)) (absurd · (by decide)) (by simp; omega) rfl
      rw [htokens] at hs hnode
      exact readItems_cons ht (hends rfl) hs hnode (ih hvs (by omega) (by omega) rfl)

theorem readLooseItems_tokens {t : Token} (hend : endsEntry t = true) (h : ∀ v ∈ vs, Parsed v)
    (hfuel : 4 * (itemTokens vs).length ≤ fuel + 2) (hpos : 0 < fuel)
    (hs : s.tokens = itemTokens vs ++ t :: rest) :
    readLooseItems fuel s = .ok (itemNodes vs, { s with tokens := t :: rest }) := by
  induction vs generalizing fuel s with
  | nil =>
      obtain ⟨fuel, rfl⟩ := Nat.exists_eq_succ_of_ne_zero hpos.ne'
      rw [readLooseItems_nil fuel hend hs]
      obtain ⟨tokens, handles, anchors⟩ := s
      dsimp only [itemTokens, List.nil_append] at hs
      subst hs
      rfl
  | cons v vs ih =>
      obtain ⟨hv, hvs⟩ := List.forall_mem_cons.mp h
      obtain ⟨first, more, htokens, hfirst, hends⟩ := hv.opening false
      rw [itemTokens] at hs hfuel
      simp only [List.cons_append, List.append_assoc, List.length_cons,
        List.length_append] at hs hfuel
      obtain ⟨fuel, rfl⟩ : ∃ n, fuel = n + 2 := ⟨fuel - 2, by omega⟩
      have hnode := hv.node true false fuel (itemTokens vs ++ t :: rest)
        { s with tokens := valueTokens false v ++ (itemTokens vs ++ t :: rest) }
        (absurd · (by decide)) (absurd · (by decide)) (by simp; omega) rfl
      rw [htokens] at hs hnode
      exact readLooseItems_cons hfirst (endsLooseItem_of_opening hfirst (hends rfl)) hs hnode
        (ih hvs (by omega) (by omega) rfl)

/-- Entries in front of the end of their mapping begin with the mark of a key. -/
theorem exists_entryTokens (es : List (Scalar × Value)) (rest : List Token) :
    ∃ t more, entryTokens es ++ .blockEnd :: rest = t :: more ∧ endsEntry t = true := by
  cases es with
  | nil => exact ⟨.blockEnd, rest, rfl, rfl⟩
  | cons e es =>
      obtain ⟨k, v⟩ := e
      exact ⟨.key, _, by rw [entryTokens]; rfl, rfl⟩

theorem readEntries_tokens {es : List (Scalar × Value)} (hkeys : ∀ e ∈ es, ∃ text, KeyKept e.1 text)
    (h : ∀ e ∈ es, Parsed e.2) (hfuel : 4 * (entryTokens es).length ≤ fuel + 2) (hpos : 0 < fuel)
    (hs : s.tokens = entryTokens es ++ .blockEnd :: rest) :
    readEntries fuel s = .ok (entryNodes es, { s with tokens := rest }) := by
  induction es generalizing fuel s with
  | nil =>
      obtain ⟨fuel, rfl⟩ := Nat.exists_eq_succ_of_ne_zero hpos.ne'
      exact readEntries_nil fuel hs
  | cons e es ih =>
      obtain ⟨k, v⟩ := e
      obtain ⟨⟨text, hkey⟩, hkeys⟩ := List.forall_mem_cons.mp hkeys
      obtain ⟨hv, hes⟩ := List.forall_mem_cons.mp h
      have htoken : scalarTokens k = [scalarToken .text text] := by
        rw [scalarTokens, hkey.written]
        rfl
      obtain ⟨t, more, htokens, ht, -⟩ := hv.opening (isSimple k)
      rw [entryTokens, htoken] at hs hfuel
      simp only [List.cons_append, List.nil_append, List.append_assoc, List.length_cons,
        List.length_append] at hs hfuel
      obtain ⟨fuel, rfl⟩ : ∃ n, fuel = n + 4 := ⟨fuel - 4, by omega⟩
      have hkeyNode := readNode_scalar hkey.written true fuel
        (s := { s with tokens := scalarToken .text text ::
          .value :: (valueTokens (isSimple k) v ++ (entryTokens es ++ .blockEnd :: rest)) }) rfl
      have hnode := hv.node (!isSimple k) true (fuel + 1) (entryTokens es ++ .blockEnd :: rest)
        { s with tokens := valueTokens (isSimple k) v ++ (entryTokens es ++ .blockEnd :: rest) }
        (fun _ => rfl) (fun _ => exists_entryTokens es rest) (by simp; omega) (by simp)
      rw [htokens] at hs hnode hkeyNode
      exact readEntries_cons rfl rfl ht (endsEntry_of_opening ht) hs hkeyNode rfl hnode
        (ih hkeys hes (by omega) (by omega) rfl)

theorem parsed_scalar {k : Scalar} {tag : Tag} {text : List Char} (hk : ScalarKept k tag text) :
    Parsed (.scalar k) := by
  have htokens (loose : Bool) : valueTokens loose (.scalar k) = [scalarToken tag text] := by
    rw [valueTokens, scalarTokens, hk.written]
    rfl
  refine ⟨fun loose => ⟨_, _, htokens loose, rfl, fun _ => rfl⟩, ?_⟩
  intro own loose fuel rest s _ _ hfuel hs
  rw [htokens] at hfuel hs
  obtain ⟨fuel, rfl⟩ : ∃ n, fuel = n + 2 := ⟨fuel - 2, by simp at hfuel; omega⟩
  exact readNode_scalar hk.written loose fuel hs

/-- A list stands in a block of its own, unless it stands at the column of the key above it: then
the items end where the next key begins. -/
theorem parsed_list {vs : List Value} (h : ∀ v ∈ vs, Parsed v) : Parsed (.list vs) := by
  cases vs with
  | nil =>
      refine ⟨fun loose => ⟨_, _, rfl, rfl, fun _ => rfl⟩, ?_⟩
      intro own loose fuel rest s _ _ hfuel hs
      obtain ⟨fuel, rfl⟩ : ∃ n, fuel = n + 3 := ⟨fuel - 3, by simp [valueTokens] at hfuel; omega⟩
      exact readNode_emptyList loose fuel hs
  | cons v vs =>
      constructor
      · intro loose
        cases loose with
        | false => exact ⟨.blockSequence, _, rfl, rfl, fun _ => rfl⟩
        | true => exact ⟨.item, _, rfl, rfl, (absurd · (by decide))⟩
      · intro own loose fuel rest s hloose hrest hfuel hs
        obtain ⟨fuel, rfl⟩ : ∃ n, fuel = n + 2 :=
          ⟨fuel - 2, by cases own <;> simp [valueTokens, itemTokens] at hfuel <;> omega⟩
        cases own with
        | true =>
            have hs' : s.tokens = .blockSequence ::
              (itemTokens (v :: vs) ++ .blockEnd :: rest) := by
              simpa [valueTokens] using hs
            refine readNode_items loose hs' (readItems_tokens h ?_ ?_ rfl) <;>
              simp [valueTokens, itemTokens] at hfuel ⊢ <;> omega
        | false =>
            obtain ⟨t, more, rfl, ht⟩ := hrest rfl
            obtain rfl := hloose rfl
            refine readNode_looseItems (by rw [hs]; rfl) (readLooseItems_tokens ht h ?_ ?_ ?_)
            · simpa [valueTokens] using hfuel
            · simp [valueTokens, itemTokens] at hfuel
              omega
            · simpa [valueTokens] using hs

theorem parsed_mapping {es : List (Scalar × Value)} (hkeys : ∀ e ∈ es, ∃ text, KeyKept e.1 text)
    (h : ∀ e ∈ es, Parsed e.2) : Parsed (.mapping es) := by
  cases es with
  | nil =>
      refine ⟨fun loose => ⟨_, _, rfl, rfl, fun _ => rfl⟩, ?_⟩
      intro own loose fuel rest s _ _ hfuel hs
      obtain ⟨fuel, rfl⟩ : ∃ n, fuel = n + 3 := ⟨fuel - 3, by simp [valueTokens] at hfuel; omega⟩
      exact readNode_emptyMapping loose fuel hs
  | cons e es =>
      refine ⟨fun loose => ⟨_, _, rfl, rfl, fun _ => rfl⟩, ?_⟩
      intro own loose fuel rest s _ _ hfuel hs
      obtain ⟨fuel, rfl⟩ : ∃ n, fuel = n + 2 := ⟨fuel - 2, by simp [valueTokens] at hfuel; omega⟩
      have hs' : s.tokens = .blockMapping :: (entryTokens (e :: es) ++ .blockEnd :: rest) := by
        simpa [valueTokens] using hs
      refine readNode_entries loose hs' (readEntries_tokens hkeys h ?_ ?_ rfl) <;>
        simp [valueTokens] at hfuel ⊢ <;> omega

theorem parsed_of_storable {depth : Nat} {v : Value} (h : Storable depth v) : Parsed v := by
  induction h with
  | scalar hk => exact parsed_scalar hk
  | list _ ih => exact parsed_list ih
  | mapping _ hkeys _ ih => exact parsed_mapping hkeys ih

end Node

end Dialogue.Yaml
