import Dialogue.Text.Encoding

/-! Every text is read back from its bytes. -/

namespace Dialogue.Text

namespace Utf8

theorem toNat_byte {n : Nat} (h : n < 256) : (UInt8.ofNat n).toNat = n := by
  rw [UInt8.toNat_ofNat']
  exact Nat.mod_eq_of_lt h

def IsByte (b : UInt8) (n : Nat) : Prop :=
  b.toNat = n

theorem isByte_ofNat {n : Nat} (h : n < 256) : IsByte (UInt8.ofNat n) n :=
  toNat_byte h

section

variable {b m : UInt8} {n : Nat} (h : IsByte b n)

include h

theorem IsByte.lt (hlt : n < m.toNat) : b < m := by
  rw [UInt8.lt_iff_toNat_lt, h]
  exact hlt

theorem IsByte.not_lt (hle : m.toNat ≤ n) : ¬ b < m := by
  rw [UInt8.lt_iff_toNat_lt, h]
  exact Nat.not_lt_of_le hle

theorem IsByte.le (hle : m.toNat ≤ n) : m ≤ b :=
  UInt8.not_lt.mp (h.not_lt hle)

theorem IsByte.eq_of (heq : b = m) : n = m.toNat := by
  rw [← h, heq]

end

theorem isTail_byte (n : Nat) : isTail (UInt8.ofNat (n % 64 + 128)) = true := by
  have hb := isByte_ofNat (show n % 64 + 128 < 256 by omega)
  exact decide_eq_true ⟨hb.le (m := 0x80) (by grind), hb.lt (m := 0xc0) (by grind)⟩

theorem tail_byte (n : Nat) : tail (UInt8.ofNat (n % 64 + 128)) = n % 64 := by
  rw [tail, toNat_byte (by omega)]
  omega

variable {v : Nat} (rest : List UInt8)

theorem front_one (h : v < 0x80) : front (UInt8.ofNat v) rest = .char (Char.ofNat v) 0 := by
  have hb := isByte_ofNat (show v < 256 by omega)
  rw [front.eq_def, if_pos (hb.lt (m := 0x80) h), hb]

theorem front_two (hlow : 0x80 ≤ v) (hhigh : v < 0x800) :
    front (UInt8.ofNat (v / 64 % 32 + 192)) (UInt8.ofNat (v % 64 + 128) :: rest) =
      .char (Char.ofNat v) 1 := by
  have hb := isByte_ofNat (show v / 64 % 32 + 192 < 256 by omega)
  have hnumber : (v / 64 % 32 + 192) % 32 * 64 + v % 64 = v := by omega
  rw [front.eq_def, if_neg (hb.not_lt (m := 0x80) (by grind)),
    if_neg (hb.not_lt (m := 0xc2) (by grind)),
    if_pos (hb.lt (m := 0xe0) (by grind))]
  dsimp only
  rw [isTail_byte, if_pos rfl, hb, tail_byte, hnumber]

/-- A second byte keeps out long forms, surrogates and what lies beyond the last character. -/
theorem isSecond_byte {b : UInt8} {n m : Nat} (hb : IsByte b n)
    (he0 : n = 0xe0 → 0xa0 ≤ m % 64 + 128) (hed : n = 0xed → m % 64 + 128 < 0xa0)
    (hf0 : n = 0xf0 → 0x90 ≤ m % 64 + 128) (hf4 : n = 0xf4 → m % 64 + 128 < 0x90) :
    isSecond b (UInt8.ofNat (m % 64 + 128)) = true := by
  have hc := isByte_ofNat (show m % 64 + 128 < 256 by omega)
  unfold isSecond
  split
  · next h =>
      have h := he0 (hb.eq_of h)
      exact decide_eq_true ⟨hc.le (m := 0xa0) h, hc.lt (m := 0xc0) (by grind)⟩
  split
  · next h =>
      have h := hed (hb.eq_of h)
      exact decide_eq_true ⟨hc.le (m := 0x80) (by grind), hc.lt (m := 0xa0) h⟩
  split
  · next h =>
      have h := hf0 (hb.eq_of h)
      exact decide_eq_true ⟨hc.le (m := 0x90) h, hc.lt (m := 0xc0) (by grind)⟩
  split
  · next h =>
      have h := hf4 (hb.eq_of h)
      exact decide_eq_true ⟨hc.le (m := 0x80) (by grind), hc.lt (m := 0x90) h⟩
  · exact isTail_byte m

theorem front_three (hlow : 0x800 ≤ v) (hhigh : v < 0x10000) (hvalid : v < 0xd800 ∨ 0xdfff < v) :
    front (UInt8.ofNat (v / 4096 % 16 + 224)) (UInt8.ofNat (v / 64 % 64 + 128) ::
      UInt8.ofNat (v % 64 + 128) :: rest) = .char (Char.ofNat v) 2 := by
  have hb := isByte_ofNat (show v / 4096 % 16 + 224 < 256 by omega)
  have hnumber : ((v / 4096 % 16 + 224) % 16 * 64 + v / 64 % 64) * 64 + v % 64 = v := by omega
  have hsecond := isSecond_byte (m := v / 64) hb (by omega) (by omega) (by omega) (by omega)
  rw [front.eq_def, if_neg (hb.not_lt (m := 0x80) (by grind)),
    if_neg (hb.not_lt (m := 0xc2) (by grind)),
    if_neg (hb.not_lt (m := 0xe0) (by grind)),
    if_pos (hb.lt (m := 0xf0) (by grind))]
  dsimp only
  rw [hsecond, if_neg (by decide), isTail_byte, if_pos rfl, hb, tail_byte, tail_byte, hnumber]

theorem front_four (hlow : 0x10000 ≤ v) (hhigh : v < 0x110000) :
    front (UInt8.ofNat (v / 262144 % 8 + 240)) (UInt8.ofNat (v / 4096 % 64 + 128) ::
      UInt8.ofNat (v / 64 % 64 + 128) :: UInt8.ofNat (v % 64 + 128) :: rest) =
      .char (Char.ofNat v) 3 := by
  have hb := isByte_ofNat (show v / 262144 % 8 + 240 < 256 by omega)
  have hnumber : (((v / 262144 % 8 + 240) % 8 * 64 + v / 4096 % 64) * 64 + v / 64 % 64) * 64 +
      v % 64 = v := by omega
  have hsecond := isSecond_byte (m := v / 4096) hb (by omega) (by omega) (by omega) (by omega)
  rw [front.eq_def, if_neg (hb.not_lt (m := 0x80) (by grind)),
    if_neg (hb.not_lt (m := 0xc2) (by grind)),
    if_neg (hb.not_lt (m := 0xe0) (by grind)),
    if_neg (hb.not_lt (m := 0xf0) (by grind)),
    if_pos (hb.lt (m := 0xf5) (by grind))]
  dsimp only
  rw [hsecond, if_neg (by decide), isTail_byte, if_neg (by decide), isTail_byte, if_pos rfl, hb,
    tail_byte, tail_byte, tail_byte,
    hnumber]

/-- The bytes of a character are read as the character. -/
theorem exists_front (c : Char) : ∃ b more, String.utf8EncodeChar c = b :: more ∧
    ∀ rest, front b (more ++ rest) = .char c more.length := by
  have hvalid : c.val.toNat < 0xd800 ∨ 0xdfff < c.val.toNat ∧ c.val.toNat < 0x110000 := c.valid
  have hchar : Char.ofNat c.val.toNat = c := c.ofNat_toNat
  rw [String.utf8EncodeChar]
  split
  · next h =>
      exact ⟨_, _, rfl, fun rest => (front_one rest (by omega)).trans (by rw [hchar]; rfl)⟩
  split
  · next h =>
      exact ⟨_, _, rfl, fun rest => (front_two rest (by omega) (by omega)).trans
        (by rw [hchar]; rfl)⟩
  split
  · next h =>
      exact ⟨_, _, rfl, fun rest => (front_three rest (by omega) (by omega) (by omega)).trans
        (by rw [hchar]; rfl)⟩
  · next h =>
      exact ⟨_, _, rfl, fun rest => (front_four rest (by omega) (by omega)).trans
        (by rw [hchar]; rfl)⟩

theorem decodeFrom_encode (text : List Char) (place : Nat) :
    decodeFrom place (encode text) = .ok text := by
  induction text generalizing place with
  | nil => rw [encode, List.flatMap_nil, decodeFrom]
  | cons c text ih =>
      obtain ⟨b, more, hbytes, hfront⟩ := exists_front c
      rw [encode, List.flatMap_cons, hbytes, List.cons_append, decodeFrom, hfront]
      dsimp only
      rw [List.drop_left, ← encode, ih]
      rfl

end Utf8

theorem Encoding.decodeUtf8_encode (text : List Char) :
    decodeUtf8 (Utf8.encode text) = .ok text := by
  rw [decodeUtf8, Utf8.decode, Utf8.decodeFrom_encode]
  rfl

end Dialogue.Text
