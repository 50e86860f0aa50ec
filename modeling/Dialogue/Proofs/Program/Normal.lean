import Dialogue.Proofs.Files.Answers
import Dialogue.Proofs.Program.Codec
import Dialogue.Proofs.Program.Plain

/-! Whatever the bytes, a blob is decoded to a program or refused as no program. A program that has
been decoded has a blob of its own, which is decoded to an equal program and is the blob of that
program too. -/

namespace Dialogue

/-! ## Refusals -/

/-- A result that fails with nothing but what a payload is refused for. -/
def OnlyRefuses {α : Type} (x : Except Fault α) : Prop :=
  ∀ e, x = .error e → e.refusesPayload = true

namespace OnlyRefuses

variable {α β : Type}

theorem ok (a : α) : OnlyRefuses (.ok a) := by
  intro e h
  cases h

theorem error {e : Fault} (h : e.refusesPayload = true) :
    OnlyRefuses (.error e : Except Fault α) := by
  intro e' h'
  cases h'
  exact h

theorem bind {x : Except Fault α} {f : α → Except Fault β} (hx : OnlyRefuses x)
    (hf : ∀ a, OnlyRefuses (f a)) : OnlyRefuses (x >>= f) := by
  cases x with
  | ok a => exact hf a
  | error e => exact error (hx e rfl)

theorem mapM {f : α → Except Fault β} (hf : ∀ a, OnlyRefuses (f a)) (as : List α) :
    OnlyRefuses (as.mapM f) := by
  induction as with
  | nil => exact ok []
  | cons a as ih =>
      rw [List.mapM_cons]
      exact (hf a).bind fun _ => ih.bind fun _ => ok _

theorem foldlM {f : β → α → Except Fault β} (hf : ∀ b a, OnlyRefuses (f b a)) (as : List α)
    (start : β) : OnlyRefuses (as.foldlM f start) := by
  induction as generalizing start with
  | nil => exact ok start
  | cons a as ih =>
      rw [List.foldlM_cons]
      exact (hf start a).bind ih

end OnlyRefuses

section Accesses

variable (v : Value)

theorem onlyRefuses_getD (name : String) (default : Value) : OnlyRefuses (v.getD name default) := by
  cases v with
  | mapping entries => exact .ok _
  | scalar s => exact .error rfl
  | list items => exact .error rfl

theorem onlyRefuses_index (name : String) : OnlyRefuses (v.index name) := by
  cases v with
  | mapping entries =>
      rw [Value.index]
      split
      · exact .ok _
      · exact .error rfl
  | scalar s => exact .error rfl
  | list items => exact .error rfl

theorem onlyRefuses_items : OnlyRefuses v.items := by
  cases v with
  | mapping entries => exact .ok _
  | list items => exact .ok _
  | scalar s =>
      cases s with
      | text s => exact .ok _
      | bytes content => exact .ok _
      | null | bool | int | float | asset => exact .error rfl

theorem onlyRefuses_pair : OnlyRefuses v.pair := by
  rw [Value.pair]
  split
  · exact .ok _
  · exact .error rfl
  · next hitems => exact .error (onlyRefuses_items v _ hitems)

theorem onlyRefuses_entries : OnlyRefuses v.entries := by
  cases v with
  | mapping entries => exact .ok _
  | scalar s => exact .error rfl
  | list items => exact .error rfl

theorem onlyRefuses_asKey : OnlyRefuses v.asKey := by
  cases v with
  | scalar s => exact .ok _
  | mapping entries => exact .error rfl
  | list items => exact .error rfl

end Accesses

namespace Program

theorem onlyRefuses_addNode (nodes : Table Node) (v : Value) : OnlyRefuses (addNode nodes v) := by
  refine OnlyRefuses.bind ?_ fun n => (onlyRefuses_asKey n.name).bind fun _ => .ok _
  refine (onlyRefuses_index v _).bind fun _ => (onlyRefuses_getD v _ _).bind fun headers => ?_
  exact (onlyRefuses_items headers).bind fun items =>
    (OnlyRefuses.mapM onlyRefuses_pair items).bind fun _ => .ok _

theorem onlyRefuses_addOperand (operands : Table Operand) (e : Scalar × Value) :
    OnlyRefuses (addOperand operands e) := by
  refine OnlyRefuses.bind ?_ fun _ => .ok _
  exact (onlyRefuses_index e.2 _).bind fun _ => (onlyRefuses_getD e.2 _ _).bind fun _ => .ok _

/-- Whatever the value, it is a program or refused. -/
theorem onlyRefuses_ofValue (v : Value) : OnlyRefuses (ofValue v) := by
  refine (onlyRefuses_getD v _ _).bind fun name => (onlyRefuses_getD v _ _).bind fun nodes => ?_
  refine (onlyRefuses_items nodes).bind fun items => ?_
  refine (OnlyRefuses.foldlM onlyRefuses_addNode items []).bind fun _ => ?_
  refine (onlyRefuses_getD v _ _).bind fun operands => (onlyRefuses_entries operands).bind
    fun entries => ?_
  exact (OnlyRefuses.foldlM onlyRefuses_addOperand entries []).bind fun _ => .ok _

end Program

/-! ## Blobs -/

/-- What a blob that is not a program is refused with. -/
def Fault.isProgramFormat : Fault → Bool
  | .programTruncated | .programLength .. | .programPayload _ => true
  | _ => false

namespace Blob

theorem onlyRefuses_ofPayload (payload : Bytes) : OnlyRefuses (ofPayload payload) := by
  refine OnlyRefuses.bind ?_ fun text => OnlyRefuses.bind ?_ Program.onlyRefuses_ofValue
  · cases htext : Text.Encoding.decodeUtf8 payload with
    | ok text => exact .ok text
    | error f =>
        have hundecodable := Text.Encoding.isUndecodable_of_decodeUtf8 htext
        refine .error ?_
        rwa [Fault.refusesPayload]
        all_goals simp
  · cases Json.parse (String.ofList text) with
    | ok v => exact .ok v
    | error f => exact .error rfl

/-- Whether a blob is as long as it announces. -/
def IsFramed (blob : Bytes) : Prop :=
  lengthSize ≤ blob.length ∧
    (blob.drop lengthSize).length = bigEndianValue (blob.take lengthSize)

variable {p q : Program} {blob blob' : Bytes}

theorem unframe_of_isFramed (h : IsFramed blob) : unframe blob = .ok (blob.drop lengthSize) := by
  rw [unframe, if_neg (Nat.not_lt.mpr h.1)]
  dsimp only
  rw [if_pos h.2]

theorem unframe_of_not_isFramed (h : ¬ IsFramed blob) :
    ∃ e, unframe blob = .error e ∧ e.isProgramFormat = true := by
  rw [unframe]
  split
  · exact ⟨_, rfl, rfl⟩
  · next hlength =>
      dsimp only
      rw [if_neg fun hannounced => h ⟨Nat.not_lt.mp hlength, hannounced⟩]
      exact ⟨_, rfl, rfl⟩

theorem decode_of_not_isFramed (h : ¬ IsFramed blob) :
    ∃ e, decode blob = .error e ∧ e.isProgramFormat = true := by
  obtain ⟨e, he, hformat⟩ := unframe_of_not_isFramed h
  exact ⟨e, by rw [decode, he], hformat⟩

theorem decode_of_isFramed (h : IsFramed blob) :
    (∃ p, ofPayload (blob.drop lengthSize) = .ok p ∧ decode blob = .ok p) ∨
      ∃ e, decode blob = .error e ∧ e.isProgramFormat = true := by
  rw [decode, unframe_of_isFramed h]
  dsimp only
  cases hpayload : ofPayload (blob.drop lengthSize) with
  | ok p => exact .inl ⟨p, rfl, rfl⟩
  | error cause =>
      dsimp only
      rw [if_pos (onlyRefuses_ofPayload _ cause hpayload)]
      exact .inr ⟨_, rfl, rfl⟩

theorem decode_cases (blob : Bytes) :
    (∃ p, decode blob = .ok p) ∨ ∃ e, decode blob = .error e ∧ e.isProgramFormat = true := by
  by_cases h : IsFramed blob
  · exact (decode_of_isFramed h).imp_left fun ⟨p, _, hp⟩ => ⟨p, hp⟩
  · exact .inr (decode_of_not_isFramed h)

theorem decode_eq_ok (h : decode blob = .ok p) :
    IsFramed blob ∧ ofPayload (blob.drop lengthSize) = .ok p := by
  by_cases hframed : IsFramed blob
  · rcases decode_of_isFramed hframed with ⟨p', hpayload, hp'⟩ | ⟨e, he, -⟩
    · rw [h] at hp'
      rw [Except.ok.inj hp']
      exact ⟨hframed, hpayload⟩
    · rw [h] at he
      cases he
  · obtain ⟨e, he, -⟩ := decode_of_not_isFramed hframed
    rw [h] at he
    cases he

/-- A blob tells where it ends, so none is the beginning of another. -/
theorem IsFramed.eq_of_leads (h : IsFramed blob) (h' : IsFramed blob')
    (hleads : blob <+: blob') : blob = blob' := by
  have hannounced : blob'.take lengthSize = blob.take lengthSize := by
    obtain ⟨rest, rfl⟩ := hleads
    exact List.take_append_of_le_length h.1
  have hlength := h'.2
  rw [hannounced, ← h.2, List.length_drop, List.length_drop] at hlength
  refine hleads.eq_of_length ?_
  have hlong := h.1
  have hlong' := h'.1
  omega

/-- What has been decoded is plain. -/
theorem plain_of_decode (h : decode blob = .ok p) : p.Plain := by
  obtain ⟨-, hpayload⟩ := decode_eq_ok h
  obtain ⟨text, -, hpayload⟩ := bind_eq_ok.mp hpayload
  obtain ⟨v, hv, hpayload⟩ := bind_eq_ok.mp hpayload
  cases hparse : Json.parse (String.ofList text) with
  | error f =>
      rw [hparse] at hv
      cases hv
  | ok v' =>
      rw [hparse] at hv
      obtain rfl := Except.ok.inj hv
      exact Program.plain_ofValue (Json.plain_parse hparse) hpayload

theorem encode_ordered (h : p.Plain) : encode p.ordered = encode p := by
  rw [encode, encode, payloadText, payloadText, Json.render, Json.render, h.write_ordered]

/-- A plain program is written. If what is written is not too long, it has a blob, which is decoded
to the ordered program. -/
theorem exists_normal (h : p.Plain) : ∃ text, payloadText p = .ok text ∧
    ((Text.Utf8.encode text.toList).length < Nat.pow 256 lengthSize →
      ∃ normal, encode p = .ok normal ∧ decode normal = .ok p.ordered) := by
  obtain ⟨text, hrender, -, hparse⟩ := (Json.readAs_ordered h.toValue).parse_render
  have htext : payloadText p = .ok text := by
    rw [payloadText, hrender]
    rfl
  refine ⟨text, htext, fun hfits => ?_⟩
  obtain ⟨normal, hframe, -, hunframe⟩ := unframe_frame hfits
  refine ⟨normal, bind_eq_ok.mpr ⟨text, htext, hframe⟩, ?_⟩
  have hpayload := ofPayload_encode (by rwa [String.ofList_toList])
  rw [decode, hunframe]
  simp only [hpayload, h.ofValue_ordered]

/-- Every blob, and none too, is decoded to a program or refused as no program. It is refused if it
is not as long as it announces, and none that is decoded begins another. What it is decoded to has a
blob of its own, unless that would be too long. The blob is decoded to an equal program, which has
the same blob. -/
theorem decode_normal :
    (∀ blob : Option Bytes,
      (∃ p, decode? blob = .ok p) ∨ ∃ e, decode? blob = .error e ∧ e.isProgramFormat = true) ∧
    (∀ blob, ¬ IsFramed blob → ∃ e, decode blob = .error e ∧ e.isProgramFormat = true) ∧
    (∀ blob blob' p p', decode blob = .ok p → decode blob' = .ok p' → blob <+: blob' →
      blob = blob') ∧
    ∀ blob p, decode blob = .ok p → ∃ text, payloadText p = .ok text ∧
      ((Text.Utf8.encode text.toList).length < Nat.pow 256 lengthSize →
        ∃ normal q, encode p = .ok normal ∧ decode normal = .ok q ∧ q.equals p = true ∧
          encode q = .ok normal) := by
  refine ⟨fun blob => ?_, fun blob => decode_of_not_isFramed, fun blob blob' p p' h h' => ?_,
    fun blob p h => ?_⟩
  · cases blob with
    | none => exact .inr ⟨_, rfl, rfl⟩
    | some blob => exact decode_cases blob
  · exact (decode_eq_ok h).1.eq_of_leads (decode_eq_ok h').1
  · have hplain := plain_of_decode h
    obtain ⟨text, htext, hnormal⟩ := exists_normal hplain
    refine ⟨text, htext, fun hfits => ?_⟩
    obtain ⟨normal, hencode, hdecode⟩ := hnormal hfits
    exact ⟨normal, p.ordered, hencode, hdecode, hplain.equals_ordered,
      (encode_ordered hplain).trans hencode⟩

/-- A blob of two nodes whose names are the same key. The variables are named by lone surrogates and
are not in order, and the case of one of them is no number. -/
def numbered : Bytes :=
  let payload := Text.Utf8.encode ("\x7b\"nodes\": [\x7b\"name\": 1\x7d, \x7b\"name\": true, "
    ++ "\"headers\": [\"ab\"]\x7d], \"initial_values\": \x7b\"\\ud801\": \x7b\"case\": NaN\x7d, "
    ++ "\"\\ud800\": \x7b\"case\": []\x7d\x7d\x7d").toList
  bigEndian lengthSize payload.length ++ payload

theorem keys_numbered : (decode numbered).toOption.map (fun p => p.initialValues.keys) =
    some [.text (.ofPoints [.surrogate ⟨0xd801, by decide⟩]),
      .text (.ofPoints [.surrogate ⟨0xd800, by decide⟩])] := by
  decide +kernel

theorem exists_normal_numbered : ∃ p normal q, decode numbered = .ok p ∧
    p.initialValues.keys = [.text (.ofPoints [.surrogate ⟨0xd801, by decide⟩]),
      .text (.ofPoints [.surrogate ⟨0xd800, by decide⟩])] ∧
    encode p = .ok normal ∧ decode normal = .ok q ∧ q.equals p = true ∧ encode q = .ok normal := by
  have hkeys := keys_numbered
  have hfits : ((decode numbered).bind payloadText).toOption.map (fun text =>
      decide ((Text.Utf8.encode text.toList).length < Nat.pow 256 lengthSize)) = some true := by
    decide +kernel
  cases hdecode : decode numbered with
  | error e =>
      rw [hdecode] at hfits
      cases hfits
  | ok p =>
      rw [hdecode] at hkeys
      obtain ⟨text, htext, hnormal⟩ := decode_normal.2.2.2 numbered p hdecode
      have htexts : (decode numbered).bind payloadText = .ok text := by rw [hdecode]; exact htext
      rw [htexts] at hfits
      obtain ⟨normal, q, hencode, hq, hequals, hagain⟩ :=
        hnormal (of_decide_eq_true (Option.some.inj hfits))
      exact ⟨p, normal, q, rfl, Option.some.inj hkeys, hencode, hq, hequals, hagain⟩

end Blob

end Dialogue
