import Dialogue.Proofs.Text.Ascii
import Dialogue.Text.Base64

/-! Three bytes are read back from their four characters, and one or two bytes from theirs with the
padding. Whatever was read before stays. -/

namespace Dialogue.Text.Base64

/-! ## Characters -/

theorem digit_facts : ∀ n < 64,
    value? (digit n) = some n ∧ digit n ≠ '=' ∧ (digit n).toNat < 128 := by
  decide +kernel

theorem value?_digit {n : Nat} (hn : n < 64) : value? (digit n) = some n :=
  (digit_facts n hn).1

theorem ascii_digit {n : Nat} (hn : n < 64) : (digit n).toNat < 128 :=
  (digit_facts n hn).2.2

theorem toNat_lt (b : UInt8) : b.toNat < 256 :=
  b.toNat_lt

/-! ## One character more -/

section Reading

variable {n pads bits : Nat} {bytes : List UInt8} {rest : List Char}

theorem decodeFrom_first (hn : n < 64) :
    decodeFrom .none pads bytes (digit n :: rest) = decodeFrom (.one n) 0 bytes rest := by
  rw [decodeFrom, if_neg (digit_facts n hn).2.1, value?_digit hn]

theorem decodeFrom_second (hn : n < 64) : decodeFrom (.one bits) pads bytes (digit n :: rest) =
    decodeFrom (.two (n % 16)) 0 (UInt8.ofNat (bits * 4 + n / 16) :: bytes) rest := by
  rw [decodeFrom, if_neg (digit_facts n hn).2.1, value?_digit hn]

theorem decodeFrom_third (hn : n < 64) : decodeFrom (.two bits) pads bytes (digit n :: rest) =
    decodeFrom (.three (n % 4)) 0 (UInt8.ofNat (bits * 16 + n / 4) :: bytes) rest := by
  rw [decodeFrom, if_neg (digit_facts n hn).2.1, value?_digit hn]

theorem decodeFrom_fourth (hn : n < 64) : decodeFrom (.three bits) pads bytes (digit n :: rest) =
    decodeFrom .none 0 (UInt8.ofNat (bits * 64 + n) :: bytes) rest := by
  rw [decodeFrom, if_neg (digit_facts n hn).2.1, value?_digit hn]

theorem decodeFrom_padding_two :
    decodeFrom (.two bits) 0 bytes ['=', '='] = .ok bytes.reverse := rfl

theorem decodeFrom_padding_three :
    decodeFrom (.three bits) 0 bytes ['='] = .ok bytes.reverse := rfl

/-! ## Bytes from their characters -/

theorem ofNat_first (a : UInt8) {low : Nat} (hlow : low < 16) :
    UInt8.ofNat (a.toNat / 4 * 4 + (a.toNat % 4 * 16 + low) / 16) = a := by
  have heq : a.toNat / 4 * 4 + (a.toNat % 4 * 16 + low) / 16 = a.toNat := by omega
  rw [heq, UInt8.ofNat_toNat]

theorem ofNat_second (a b : UInt8) {low : Nat} (hlow : low < 4) :
    UInt8.ofNat ((a.toNat % 4 * 16 + b.toNat / 16) % 16 * 16 + (b.toNat % 16 * 4 + low) / 4) =
      b := by
  have hb := toNat_lt b
  have heq : (a.toNat % 4 * 16 + b.toNat / 16) % 16 * 16 + (b.toNat % 16 * 4 + low) / 4 =
    b.toNat := by
    omega
  rw [heq, UInt8.ofNat_toNat]

theorem ofNat_third (b c : UInt8) :
    UInt8.ofNat ((b.toNat % 16 * 4 + c.toNat / 64) % 4 * 64 + c.toNat % 64) = c := by
  have hc := toNat_lt c
  have heq : (b.toNat % 16 * 4 + c.toNat / 64) % 4 * 64 + c.toNat % 64 = c.toNat := by omega
  rw [heq, UInt8.ofNat_toNat]

theorem decodeFrom_encode (content : List UInt8) :
    decodeFrom .none 0 bytes (encode content) = .ok (bytes.reverse ++ content) := by
  induction content using encode.induct generalizing bytes with
  | case1 => rw [encode, decodeFrom, List.append_nil]
  | case2 a =>
      have ha := toNat_lt a
      have hfirst := ofNat_first a (by decide : 0 < 16)
      rw [Nat.add_zero] at hfirst
      rw [encode, decodeFrom_first (by omega), decodeFrom_second (by omega), hfirst,
        decodeFrom_padding_two, List.reverse_cons]
  | case3 a b =>
      have ha := toNat_lt a
      have hb := toNat_lt b
      have hfirst := ofNat_first a (by omega : b.toNat / 16 < 16)
      have hsecond := ofNat_second a b (by decide : 0 < 4)
      rw [Nat.add_zero] at hsecond
      rw [encode, decodeFrom_first (by omega), decodeFrom_second (by omega), hfirst,
        decodeFrom_third (by omega), hsecond, decodeFrom_padding_three, List.reverse_cons,
        List.reverse_cons, List.append_assoc]
      rfl
  | case4 a b c rest ih =>
      have ha := toNat_lt a
      have hb := toNat_lt b
      have hc := toNat_lt c
      have hfirst := ofNat_first a (by omega : b.toNat / 16 < 16)
      have hsecond := ofNat_second a b (by omega : c.toNat / 64 < 4)
      rw [encode, decodeFrom_first (by omega), decodeFrom_second (by omega), hfirst,
        decodeFrom_third (by omega), hsecond, decodeFrom_fourth (by omega), ofNat_third, ih]
      simp

end Reading

theorem ascii_encode (content : List UInt8) : Ascii (encode content) := by
  induction content using encode.induct with
  | case1 => simp [encode, Ascii]
  | case2 a =>
      have ha := toNat_lt a
      simp only [encode, Ascii, List.forall_mem_cons]
      exact ⟨ascii_digit (by omega), ascii_digit (by omega), by decide, by decide, by simp⟩
  | case3 a b =>
      have ha := toNat_lt a
      have hb := toNat_lt b
      simp only [encode, Ascii, List.forall_mem_cons]
      exact ⟨ascii_digit (by omega), ascii_digit (by omega), ascii_digit (by omega), by decide,
        by simp⟩
  | case4 a b c rest ih =>
      have ha := toNat_lt a
      have hb := toNat_lt b
      have hc := toNat_lt c
      simp only [encode, Ascii, List.forall_mem_cons]
      exact ⟨ascii_digit (by omega), ascii_digit (by omega), ascii_digit (by omega),
        ascii_digit (by omega), ih⟩

theorem decode_encode (content : List UInt8) : decode (encode content) = .ok content := by
  have hall : (encode content).all (fun c => decide (c.toNat < 128)) = true := by
    simpa [List.all_eq_true, Ascii] using ascii_encode content
  rw [decode, if_pos hall, decodeFrom_encode, List.reverse_nil, List.nil_append]

end Dialogue.Text.Base64
