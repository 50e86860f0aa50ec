import Dialogue.Text.Encoding

/-! Texts of ASCII alone take one byte per character in UTF-8. -/

namespace Dialogue.Text

def Ascii (text : List Char) : Prop :=
  ∀ c ∈ text, c.toNat < 128

theorem ascii_nil : Ascii [] := by
  simp [Ascii]

theorem ascii_cons {c : Char} {text : List Char} :
    Ascii (c :: text) ↔ c.toNat < 128 ∧ Ascii text := by
  simp [Ascii]

theorem ascii_append {s t : List Char} : Ascii (s ++ t) ↔ Ascii s ∧ Ascii t := by
  simp [Ascii, or_imp, forall_and]

theorem ascii_flatMap {α : Type} {as : List α} {f : α → List Char} (h : ∀ a, Ascii (f a)) :
    Ascii (as.flatMap f) := by
  intro d hd
  obtain ⟨a, _, ha⟩ := List.mem_flatMap.mp hd
  exact h a d ha

theorem toNat_lt_of_isDigit {c : Char} (h : c.isDigit = true) : c.toNat < 128 := by
  simp only [Char.isDigit, Bool.and_eq_true, decide_eq_true_eq] at h
  have : c.val.toNat ≤ 57 := h.2
  exact Nat.lt_of_le_of_lt this (by decide)

namespace Utf8

theorem utf8EncodeChar_of_lt {c : Char} (hc : c.toNat < 128) :
    String.utf8EncodeChar c = [UInt8.ofNat c.toNat] := by
  have : ¬ 127 < c.toNat := by omega
  simp [String.utf8EncodeChar, this]

theorem encode_of_ascii {text : List Char} (h : Ascii text) :
    encode text = text.map fun c => UInt8.ofNat c.toNat := by
  induction text with
  | nil => rfl
  | cons c text ih =>
      obtain ⟨hc, htext⟩ := ascii_cons.mp h
      rw [encode, List.flatMap_cons, utf8EncodeChar_of_lt hc]
      exact congrArg _ (ih htext)

theorem lt_of_mem_encode {text : List Char} (h : Ascii text) : ∀ b ∈ encode text, b < 128 := by
  rw [encode_of_ascii h, List.forall_mem_map]
  intro c hc
  rw [UInt8.lt_iff_toNat_lt, UInt8.toNat_ofNat']
  have := h c hc
  exact Nat.lt_of_le_of_lt (Nat.mod_le _ _) this

end Utf8

end Dialogue.Text
