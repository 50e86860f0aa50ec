import Dialogue.Blob
import Dialogue.Proofs.Program.Equality
import Dialogue.Proofs.Text.Utf8

/-! A blob is the length of its payload and the payload, which is ASCII. It is decoded to the
program that it was made of, with every node under its own name. -/

namespace Dialogue

/-! ## Frames -/

theorem length_bigEndian (count n : Nat) : (bigEndian count n).length = count := by
  simp [bigEndian]

theorem bigEndianValue_append (bytes : Bytes) (b : UInt8) :
    bigEndianValue (bytes ++ [b]) = 256 * bigEndianValue bytes + b.toNat := by
  simp [bigEndianValue]

theorem bigEndian_succ (count n : Nat) :
    bigEndian (count + 1) n = bigEndian count (n / 256) ++ [UInt8.ofNat n] := by
  have hpow : ∀ i, n / Nat.pow 256 (i + 1) = n / 256 / Nat.pow 256 i := by
    intro i
    rw [Nat.div_div_eq_div_mul, Nat.mul_comm]
    rfl
  simp only [bigEndian, List.range_succ_eq_map, List.reverse_cons, List.map_append,
    List.map_reverse,
    List.map_map, List.map_cons, List.map_nil, Function.comp_def, Nat.succ_eq_add_one, hpow]
  simp

/-- The bytes of a number that fits spell the number. -/
theorem bigEndianValue_bigEndian {count n : Nat} (h : n < Nat.pow 256 count) :
    bigEndianValue (bigEndian count n) = n := by
  induction count generalizing n with
  | zero =>
      have : n = 0 := by simpa using h
      subst this
      rfl
  | succ count ih =>
      have hlt : n / 256 < Nat.pow 256 count := Nat.div_lt_of_lt_mul (by
        rw [Nat.mul_comm]
        exact h)
      rw [bigEndian_succ, bigEndianValue_append, ih hlt, UInt8.toNat_ofNat']
      omega

namespace Blob

/-- A payload whose length fits is taken out of its frame again. -/
theorem unframe_frame {payload : Bytes} (h : payload.length < Nat.pow 256 lengthSize) :
    ∃ blob, frame payload = .ok blob ∧ blob.drop lengthSize = payload ∧
      unframe blob = .ok payload := by
  have hlength := length_bigEndian lengthSize payload.length
  have hdrop : (bigEndian lengthSize payload.length ++ payload).drop lengthSize = payload := by
    rw [List.drop_append_of_le_length (Nat.le_of_eq hlength.symm), List.drop_of_length_le
      (Nat.le_of_eq hlength), List.nil_append]
  refine ⟨bigEndian lengthSize payload.length ++ payload, if_pos h, hdrop, ?_⟩
  rw [unframe, if_neg (by simp [hlength])]
  dsimp only
  rw [hdrop, List.take_append_of_le_length (Nat.le_of_eq hlength.symm),
    List.take_of_length_le (Nat.le_of_eq hlength), bigEndianValue_bigEndian h, if_pos rfl]

/-! ## Payloads -/

variable {p q : Program} {blob : Bytes}

theorem payloadText_eq_ok {text : String} (h : payloadText p = .ok text) :
    Json.render p.toValue = .ok text := by
  rw [payloadText] at h
  cases hrender : Json.render p.toValue with
  | error f => simp [hrender, Except.mapError] at h
  | ok text' =>
      rw [hrender] at h
      exact congrArg _ (Except.ok.inj h)

theorem encode_eq_ok (h : encode p = .ok blob) : ∃ text, payloadText p = .ok text ∧
    (Text.Utf8.encode text.toList).length < Nat.pow 256 lengthSize := by
  obtain ⟨text, htext, hframe⟩ := bind_eq_ok.mp h
  refine ⟨text, htext, ?_⟩
  rw [frame] at hframe
  split at hframe
  · assumption
  · cases hframe

theorem fits_of_encode (h : encode p = .ok blob) (text : String)
    (htext : payloadText p = .ok text) :
    (Text.Utf8.encode text.toList).length < Nat.pow 256 lengthSize := by
  obtain ⟨text', htext', hlength⟩ := encode_eq_ok h
  rwa [Except.ok.inj (htext.symm.trans htext')]

/-- The name of a program that is encoded has been written. -/
theorem exists_readAs_of_encode (h : encode p = .ok blob) : ∃ name, Json.ReadAs p.name name := by
  obtain ⟨text, htext, -⟩ := encode_eq_ok h
  have hrender := payloadText_eq_ok htext
  rw [Json.render] at hrender
  cases hwrite : Json.write p.toValue with
  | error f => simp [hwrite, Except.map] at hrender
  | ok chars =>
      exact Json.exists_readAs_of_mapping p.textual_programFields.textKeyed
        p.distinct_programFields hwrite (.text "name", p.name) (List.mem_cons_self ..)

theorem ofPayload_encode {text : List Char} {v : Value}
    (hparse : Json.parse (String.ofList text) = .ok v) :
    ofPayload (Text.Utf8.encode text) = Program.ofValue v := by
  rw [ofPayload, Text.Encoding.decodeUtf8_encode]
  simp only [Except.mapError, bind, Except.bind, hparse]

/-- A payload that is not too long is framed, and decoded to the program with its nodes under their
own names and its variables in order. -/
theorem exists_decode (hp : p.WellTyped) {name : Value} (hname : Json.ReadAs p.name name)
    (hfit : ∀ text, payloadText p = .ok text →
      (Text.Utf8.encode text.toList).length < Nat.pow 256 lengthSize) :
    ∃ blob operands, encode p = .ok blob ∧ (∀ b ∈ blob.drop lengthSize, b < 128) ∧
      operands.Perm p.initialValues ∧ decode blob = .ok ⟨name, p.rekeyed, operands⟩ := by
  obtain ⟨v, operands, hread, hperm, hofValue⟩ := hp.readAs hname
  obtain ⟨text, hrender, hascii, hparse⟩ := hread.parse_render
  have htext : payloadText p = .ok text := by
    rw [payloadText, hrender]
    rfl
  obtain ⟨blob, hframe, hdrop, hunframe⟩ := unframe_frame (hfit text htext)
  refine ⟨blob, operands, bind_eq_ok.mpr ⟨text, htext, hframe⟩, ?_, hperm, ?_⟩
  · rw [hdrop]
    exact Text.Utf8.lt_of_mem_encode hascii
  · rw [decode, hunframe]
    have hpayload := ofPayload_encode (by rwa [String.ofList_toList])
    simp only [hpayload, hofValue]

/-- The bytes of a program do not show in which order its variables were added. -/
theorem encode_of_perm (hp : p.WellTyped) {operands : Table Operand}
    (h : operands.Perm p.initialValues) : encode { p with initialValues := operands } =
      encode p := by
  have htextual : Table.Textual (p.initialValues.map fun e => (e.1, e.2.toValue)) := by
    intro e he
    obtain ⟨e', he', rfl⟩ := List.mem_map.mp he
    exact hp.textualNames e' he'
  have hvalues : Json.write (.mapping (operands.map fun e => (e.1, e.2.toValue))) =
      Json.write (.mapping (p.initialValues.map fun e => (e.1, e.2.toValue))) :=
    Json.write_mapping_perm htextual.textKeyed (List.pairwise_map.mpr hp.distinct) (h.map _)
  have hdocument : Json.write (Program.toValue { p with initialValues := operands }) =
      Json.write p.toValue := by
    simp only [Program.toValue, Json.write, Json.writeEntries] at hvalues ⊢
    rw [hvalues]
  rw [encode, payloadText, Json.render, hdocument]
  rfl

/-! ## The round trip -/

/-- A program, its blob, and the program that the blob is decoded to. -/
structure RoundTrip (p : Program) (blob : Bytes) (q : Program) : Prop where
  encoded : encode p = .ok blob
  decoded : decode blob = .ok q
  ascii : ∀ b ∈ blob.drop lengthSize, b < 128
  unordered : ∀ operands : Table Operand, operands.Perm p.initialValues →
    encode { p with initialValues := operands } = .ok blob
  name : q.name = p.name
  /-- Nodes stand under their own names, in the order in which these first occur. -/
  nodeNames : q.nodes.keys =
    (p.nodes.map fun e => e.2.label).eraseDups.map fun name : String => .text name
  /-- Of nodes with one name it is the last, with all its headers. -/
  nodes : ∀ name : String, q.nodes.lookup (.text name) =
    ((p.nodes.map Prod.snd).filter fun n => n.label = name).getLast?
  variableNames : q.initialValues.keys.Perm p.initialValues.keys
  initialValues : ∀ name, q.initialValues.lookup name = p.initialValues.lookup name
  same_iff : q.same p = true ↔ p.OwnNames

theorem lookup_rekeyed (p : Program) (name : String) : p.rekeyed.lookup (.text name) =
    ((p.nodes.map Prod.snd).filter fun n => n.label = name).getLast? := by
  rw [Program.rekeyed, Table.lookup_ofEntries, List.filter_map, List.filter_map, List.getLast?_map,
    List.getLast?_map, Option.map_map]
  simp only [Function.comp_def, Scalar.sameKey_text]

/-- Programs of texts and constants whose payload is not too long are encoded, and their blobs are
decoded to them. -/
theorem exists_roundTrip (hp : p.WellTyped) (hname : ∃ name : String, p.name = .text name)
    (hproper : ∀ e ∈ p.initialValues, e.2.IsProper)
    (hfit : ∀ text, payloadText p = .ok text →
      (Text.Utf8.encode text.toList).length < Nat.pow 256 lengthSize) :
    ∃ blob q, RoundTrip p blob q := by
  have hread : Json.ReadAs p.name p.name := by
    obtain ⟨name, hname⟩ := hname
    rw [hname]
    exact Json.readAs_text name
  obtain ⟨blob, operands, hencode, hascii, hperm, hdecode⟩ := exists_decode hp hread hfit
  refine ⟨blob, ⟨p.name, p.rekeyed, operands⟩, ?_⟩
  constructor
  case encoded => exact hencode
  case decoded => exact hdecode
  case ascii => exact hascii
  case unordered => exact fun operands h => (encode_of_perm hp h).trans hencode
  case name => rfl
  case nodeNames => exact Table.keys_ofEntries_text _ _ _
  case nodes => exact lookup_rekeyed p
  case variableNames => exact hperm.map _
  case initialValues => exact hp.distinct.lookup_perm hperm
  case same_iff => exact hp.same_iff hname hproper hperm

end Blob

def Program.festival : Program where
  name := .text "fête\n"
  nodes := [(.text "Start", ⟨.text "Start", [(.text "tag", .text "a\"b"),
    (.text "tag", .text "😀")]⟩),
    (.text "End", ⟨.text "Start", []⟩)]
  initialValues := [(.text "$name", ⟨.text "string_value", .text "Zoë"⟩),
    (.text "$met", ⟨.text "bool_value", .bool true⟩),
    (.text "$gold", ⟨.text "float_value", .float 0.1⟩)]

namespace Program

theorem isProper_festival : ∀ e ∈ festival.initialValues, e.2.IsProper := by
  have hnumber : Decimal.IsNumber 0.1 := by
    rw [Decimal.IsNumber]
    decide +kernel
  simp only [festival, List.forall_mem_cons, List.not_mem_nil, false_implies, implies_true,
    and_true]
  refine ⟨⟨.text "Zoë", rfl, by simp⟩, ⟨.bool true, rfl, by simp⟩, ⟨.float 0.1, rfl, ?_⟩⟩
  rintro x ⟨⟩
  exact hnumber

theorem wellTyped_festival : Program.festival.WellTyped where
  nodes := by simp [festival, Table.Distinct, Scalar.sameKey_text]
  textualNodes := by
    simp only [festival, List.forall_mem_cons, List.not_mem_nil, false_implies, implies_true,
      and_true]
    exact ⟨⟨⟨_, rfl⟩, [("tag", "a\"b"), ("tag", "😀")], rfl⟩, ⟨⟨_, rfl⟩, [], rfl⟩⟩
  textualNames := by simp [festival, Table.Textual, Scalar.Named, Scalar.name]
  distinct := by simp [festival, Table.Distinct, Scalar.sameKey_text]
  constants e he := (isProper_festival e he).isConstant

end Program

namespace Blob

theorem fits_of_write {chars : List Char} (h : Json.write p.toValue = .ok chars)
    (hfits : (Text.Utf8.encode chars).length < Nat.pow 256 lengthSize) (text : String)
    (htext : payloadText p = .ok text) :
    (Text.Utf8.encode text.toList).length < Nat.pow 256 lengthSize := by
  have hrender := payloadText_eq_ok htext
  rw [Json.render, h] at hrender
  rwa [← Except.ok.inj hrender, String.toList_ofList]

theorem fits_festival (text : String) (h : payloadText .festival = .ok text) :
    (Text.Utf8.encode text.toList).length < Nat.pow 256 lengthSize := by
  have hwrite : (Json.write (Program.toValue .festival)).toOption.map
      (fun chars => decide ((Text.Utf8.encode chars).length < Nat.pow 256 lengthSize)) =
        some true := by
    decide +kernel
  cases hchars : Json.write (Program.toValue .festival) with
  | error f => simp [hchars, Except.toOption] at hwrite
  | ok chars =>
      rw [hchars] at hwrite
      exact fits_of_write hchars (of_decide_eq_true (Option.some.inj hwrite)) text h

theorem exists_roundTrip_festival : ∃ blob q, RoundTrip .festival blob q :=
  exists_roundTrip Program.wellTyped_festival ⟨_, rfl⟩ Program.isProper_festival fits_festival

end Blob

end Dialogue
