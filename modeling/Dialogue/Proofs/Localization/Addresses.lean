import Dialogue.Localization
import Mathlib.Data.List.Infix

/-! An id between its marks is a sequence of pieces, and its address joins the pieces without a
mark. The address that is documented goes without a mark at the front of the id only. The two differ
as soon as there is a mark further on, and then one address may stand for two lines. -/

namespace Dialogue.Localization

def mark : List Char := ['l', 'i', 'n', 'e', ':']

/-! ## Texts without marks -/

@[simp]
theorem dropMarks_mark_append (rest : List Char) : dropMarks (mark ++ rest) = dropMarks rest := by
  simp [mark, dropMarks]

theorem not_prefix_iff {c : Char} {rest : List Char} : ¬ mark <+: c :: rest ↔
    ∀ tail, c = 'l' → rest = 'i' :: 'n' :: 'e' :: ':' :: tail → False := by
  constructor
  · rintro h tail rfl rfl
    exact h ⟨tail, rfl⟩
  · rintro h ⟨tail, htail⟩
    obtain ⟨hc, hrest⟩ := List.cons.inj htail
    exact h tail hc.symm hrest.symm

theorem dropMarks_cons {c : Char} {rest : List Char} (h : ¬ mark <+: c :: rest) :
    dropMarks (c :: rest) = c :: dropMarks rest := by
  rw [dropMarks]
  exact not_prefix_iff.mp h

theorem not_infix_of_cons {c : Char} {rest : List Char} (h : ¬ mark <:+: c :: rest) :
    ¬ mark <+: c :: rest ∧ ¬ mark <:+: rest := by
  simpa [List.infix_cons_iff] using h

/-- A mark has no end that a mark could begin with: behind a text without marks, the first mark is
the one that is put there. -/
theorem not_prefix_append_mark {c : Char} {piece : List Char} (h : ¬ mark <+: c :: piece)
    (rest : List Char) : ¬ mark <+: c :: (piece ++ (mark ++ rest)) := by
  rcases piece with _ | ⟨d, _ | ⟨e, _ | ⟨f, _ | ⟨g, piece⟩⟩⟩⟩ <;> simp [mark] at h ⊢
  exact h

theorem dropMarks_append_mark {piece : List Char} (h : ¬ mark <:+: piece) (rest : List Char) :
    dropMarks (piece ++ (mark ++ rest)) = piece ++ dropMarks rest := by
  induction piece with
  | nil => simp
  | cons c piece ih =>
      obtain ⟨hp, hpiece⟩ := not_infix_of_cons h
      rw [List.cons_append, dropMarks_cons (not_prefix_append_mark hp rest), ih hpiece]
      rfl

theorem dropMarks_of_not_infix {text : List Char} (h : ¬ mark <:+: text) :
    dropMarks text = text := by
  induction text with
  | nil => rfl
  | cons c text ih =>
      obtain ⟨hp, htext⟩ := not_infix_of_cons h
      rw [dropMarks_cons hp, ih htext]

theorem length_dropMarks_le (text : List Char) : (dropMarks text).length ≤ text.length := by
  fun_induction dropMarks text with
  | case1 rest ih => simp only [List.length_cons]; omega
  | case2 c rest _ ih => simpa using ih
  | case3 => rfl

/-- Only a text without marks stays as it is. -/
theorem dropMarks_eq_self_iff {text : List Char} : dropMarks text = text ↔ ¬ mark <:+: text := by
  refine ⟨?_, dropMarks_of_not_infix⟩
  fun_induction dropMarks text with
  | case1 rest ih =>
      intro h
      have hlength := length_dropMarks_le rest
      rw [h] at hlength
      simp at hlength
      omega
  | case2 c rest hc ih =>
      intro h
      simpa [List.infix_cons_iff, not_prefix_iff.mpr hc] using ih (List.cons.inj h).2
  | case3 => simp [mark]

/-! ## Pieces -/

/-- The pieces of an id between its marks. -/
structure PiecesOf (id : String) (pieces : List (List Char)) : Prop where
  joined : mark.intercalate pieces = id.toList
  free : ∀ piece ∈ pieces, ¬ mark <:+: piece

theorem exists_pieces (text : List Char) : ∃ piece pieces,
    mark.intercalate (piece :: pieces) = text ∧ ∀ p ∈ piece :: pieces, ¬ mark <:+: p := by
  fun_induction dropMarks text with
  | case1 rest ih =>
      obtain ⟨piece, pieces, rfl, hfree⟩ := ih
      refine ⟨[], piece :: pieces, rfl, ?_⟩
      simpa [mark] using hfree
  | case2 c rest hc ih =>
      obtain ⟨piece, pieces, rfl, hfree⟩ := ih
      refine ⟨c :: piece, pieces, ?_, ?_⟩
      · simp
      · have hp : ¬ mark <+: c :: piece := fun h =>
          not_prefix_iff.mpr hc (h.trans (by cases pieces <;> simp))
        simpa [List.infix_cons_iff, hp] using hfree
  | case3 => exact ⟨[], [], rfl, by simp [mark]⟩

theorem dropMarks_intercalate {pieces : List (List Char)}
    (h : ∀ piece ∈ pieces, ¬ mark <:+: piece) :
    dropMarks (mark.intercalate pieces) = pieces.flatten := by
  induction pieces with
  | nil => rfl
  | cons piece pieces ih =>
      obtain ⟨hpiece, hpieces⟩ := List.forall_mem_cons.mp h
      cases pieces with
      | nil => simpa using dropMarks_of_not_infix hpiece
      | cons next pieces =>
          rw [List.intercalate_cons_cons, List.append_assoc, dropMarks_append_mark hpiece,
            ih hpieces]
          rfl

theorem PiecesOf.dropMarks {id : String} {pieces : List (List Char)} (h : PiecesOf id pieces) :
    Localization.dropMarks id.toList = pieces.flatten := by
  rw [← h.joined, dropMarks_intercalate h.free]

/-! ## The address that is documented -/

def withoutMark (text : List Char) : List Char :=
  if mark.isPrefixOf text then text.drop mark.length else text

def documentedAddress (id language : String) : String :=
  "line_" ++ language ++ "_" ++ String.ofList (withoutMark id.toList)

@[simp]
theorem withoutMark_mark_append (rest : List Char) : withoutMark (mark ++ rest) = rest := by
  simp [withoutMark]

theorem withoutMark_of_unmarked {text : List Char} (h : ¬ mark <+: text) :
    withoutMark text = text := by
  simp [withoutMark, h]

theorem dropMarks_withoutMark (text : List Char) :
    dropMarks (withoutMark text) = dropMarks text := by
  by_cases h : mark <+: text
  · obtain ⟨rest, rfl⟩ := h
    simp
  · rw [withoutMark_of_unmarked h]

theorem address_eq_iff {id id' language : String} :
    address id language = address id' language ↔
      dropMarks id.toList = dropMarks id'.toList := by
  simp [address, String.ofList_inj]

theorem address_eq_documentedAddress_iff {id language : String} :
    address id language = documentedAddress id language ↔ ¬ mark <:+: withoutMark id.toList := by
  rw [← dropMarks_eq_self_iff, dropMarks_withoutMark]
  simp [address, documentedAddress, String.ofList_inj]

/-- The part of an id behind the mark at its front. -/
structure MarkedBy (id : String) (rest : List Char) : Prop where
  marked : id.toList = mark ++ rest
  free : ¬ mark <:+: rest

theorem MarkedBy.dropMarks {id : String} {rest : List Char} (h : MarkedBy id rest) :
    Localization.dropMarks id.toList = rest := by
  rw [h.marked, dropMarks_mark_append, dropMarks_of_not_infix h.free]

theorem MarkedBy.eq_of_address_eq {id id' language : String} {rest rest' : List Char}
    (h : MarkedBy id rest) (h' : MarkedBy id' rest')
    (haddress : address id language = address id' language) : id = id' := by
  rw [address_eq_iff, h.dropMarks, h'.dropMarks] at haddress
  subst haddress
  exact String.toList_inj.mp (h.marked.trans h'.marked.symm)

/-- The address of an id joins its pieces. It is the documented one exactly if there is no mark
further on, two ids have one address exactly if their pieces join to one text, and ids that have
their only mark at the front are told apart. -/
theorem address_eq_flatten (language : String) :
    (∀ id, ∃ pieces, PiecesOf id pieces) ∧
      (∀ id pieces, PiecesOf id pieces →
        address id language = "line_" ++ language ++ "_" ++ String.ofList pieces.flatten) ∧
      (∀ id id' pieces pieces', PiecesOf id pieces → PiecesOf id' pieces' →
        (address id language = address id' language ↔ pieces.flatten = pieces'.flatten)) ∧
      (∀ id, address id language = documentedAddress id language ↔
        ¬ mark <:+: withoutMark id.toList) ∧
      ∀ id id' rest rest', MarkedBy id rest → MarkedBy id' rest' →
        address id language = address id' language → id = id' := by
  refine ⟨fun id => ?_, fun id pieces h => ?_, fun id id' pieces pieces' h h' => ?_,
    fun id => address_eq_documentedAddress_iff, fun id id' rest rest' h h' =>
      h.eq_of_address_eq h'⟩
  · obtain ⟨piece, pieces, hjoined, hfree⟩ := exists_pieces id.toList
    exact ⟨piece :: pieces, hjoined, hfree⟩
  · rw [address, h.dropMarks]
  · rw [address_eq_iff, h.dropMarks, h'.dropMarks]

/-- A second mark is lost with the first, so that two marked ids may have one address. -/
theorem not_address_documented : ¬ ∀ id id' language : String,
    address id language = documentedAddress id language ∧
      (mark <+: id.toList → mark <+: id'.toList →
        address id language = address id' language → id = id') := by
  intro h
  obtain ⟨-, hdistinct⟩ := h "line:deadline:2" "line:dead2" "de"
  have hids := hdistinct (by decide) (by decide) (by decide)
  exact absurd hids (by decide)

end Dialogue.Localization
