import Mathlib
import Dialogue.Decimal.Dyadic

/-! A double is given by the value that is read off its bits. Positive finite doubles have a
significand and an exponent, and each pair within the bounds is that of one double. -/

namespace Dialogue.Decimal

open Float.Model (Format UnpackedFloat)
open Float.Model.UnpackedFloat
  (Sign packComponents packedNaN unpackSign unpackExponent unpackMantissa)

/-! ## Packed bits -/

theorem toNat_packComponents (s : Sign) (e : BitVec 11) (m : BitVec 52) :
    (packComponents Format.binary64 s e m).toNat =
      s.toBitVec.toNat * 2 ^ 63 + e.toNat * 2 ^ 52 + m.toNat := by
  have h := e.isLt
  have h' := m.isLt
  rw [packComponents, BitVec.toNat_append, BitVec.toNat_append,
    ← Nat.shiftLeft_add_eq_or_of_lt h, ← Nat.shiftLeft_add_eq_or_of_lt h', Nat.shiftLeft_eq,
    Nat.shiftLeft_eq]
  omega

theorem toNat_unpackMantissa (b : BitVec 64) :
    (@unpackMantissa Format.binary64 b).toNat = b.toNat % 2 ^ 52 := by
  simp [unpackMantissa, BitVec.extractLsb_toNat]

theorem toNat_unpackExponent (b : BitVec 64) :
    (@unpackExponent Format.binary64 b).toNat = b.toNat / 2 ^ 52 % 2 ^ 11 := by
  simp [unpackExponent, BitVec.extractLsb_toNat, Nat.shiftRight_eq_div_pow]

theorem toNat_unpackSign (b : BitVec 64) :
    (@unpackSign Format.binary64 b).toNat = b.toNat / 2 ^ 63 := by
  have := b.isLt
  simp [unpackSign, BitVec.extractLsb_toNat, Nat.shiftRight_eq_div_pow]
  omega

/-! ## The value and the bits -/

/-- The sign, the biased exponent and the fraction that the bits of a double hold. -/
structure Parts where
  negative : Bool
  exponent : Nat
  fraction : Nat
  exponent_lt : exponent < 2048
  fraction_lt : fraction < 2 ^ 52

namespace Parts

variable (p : Parts) {x : Float}

def bits : Nat :=
  p.negative.toNat * 2 ^ 63 + p.exponent * 2 ^ 52 + p.fraction

def value : Dyadic :=
  if p.exponent = 2047 then
    if p.fraction = 0 then .infinite p.negative else .notANumber
  else if p.exponent = 0 then .finite p.negative p.fraction (-1074)
  else .finite p.negative (2 ^ 52 + p.fraction) (-1074 + (p.exponent - 1))

theorem sign_bits : decide (Nat.pow 2 63 ≤ p.bits) = p.negative := by
  obtain ⟨negative, e, f, he, hf⟩ := p
  have hpow : Nat.pow 2 63 = 2 ^ 63 := rfl
  cases negative <;> simp only [bits, hpow, Bool.toNat_true, Bool.toNat_false, decide_eq_true_eq,
    decide_eq_false_iff_not] <;> omega

theorem exponent_bits : p.bits / Dyadic.leadingBit % 2048 = p.exponent := by
  obtain ⟨negative, e, f, he, hf⟩ := p
  have hpow : Dyadic.leadingBit = 2 ^ 52 := rfl
  cases negative <;> simp only [bits, hpow, Bool.toNat_true, Bool.toNat_false] <;> omega

theorem fraction_bits : p.bits % Dyadic.leadingBit = p.fraction := by
  obtain ⟨negative, e, f, he, hf⟩ := p
  have hpow : Dyadic.leadingBit = 2 ^ 52 := rfl
  cases negative <;> simp only [bits, hpow, Bool.toNat_true, Bool.toNat_false] <;> omega

theorem ofFloat_eq (h : x.toBits.toNat = p.bits) : Dyadic.ofFloat x = p.value := by
  simp only [Dyadic.ofFloat, h, p.sign_bits, p.exponent_bits, p.fraction_bits]
  rfl

theorem exists_of_float (x : Float) : ∃ p : Parts, x.toBits.toNat = p.bits := by
  have hlt : x.toBits.toNat < 2 ^ 64 := x.toBits.toNat_lt
  refine ⟨⟨decide (2 ^ 63 ≤ x.toBits.toNat), x.toBits.toNat / 2 ^ 52 % 2048,
    x.toBits.toNat % 2 ^ 52, by omega, by omega⟩, ?_⟩
  by_cases h : 2 ^ 63 ≤ x.toBits.toNat <;> simp only [bits, h, decide_true, decide_false,
    Bool.toNat_true, Bool.toNat_false] <;> omega

theorem toNat_unpackExponent (h : x.toBits.toNat = p.bits) :
    (@unpackExponent Format.binary64 x.toModel.toBits.toBitVec).toNat = p.exponent :=
  (Decimal.toNat_unpackExponent _).trans
    ((congrArg (· / 2 ^ 52 % 2 ^ 11) h).trans p.exponent_bits)

theorem toNat_unpackMantissa (h : x.toBits.toNat = p.bits) :
    (@unpackMantissa Format.binary64 x.toModel.toBits.toBitVec).toNat = p.fraction :=
  (Decimal.toNat_unpackMantissa _).trans ((congrArg (· % 2 ^ 52) h).trans p.fraction_bits)

theorem bits_of_notANumber (h : x.toBits.toNat = p.bits) (he : p.exponent = 2047)
    (hf : p.fraction ≠ 0) : p.bits = 2047 * 2 ^ 52 + 2 ^ 51 := by
  have hexponent : @unpackExponent Format.binary64 x.toModel.toBits.toBitVec = -1#11 := by
    rw [← BitVec.toNat_inj, p.toNat_unpackExponent h]
    exact he
  have hmantissa : @unpackMantissa Format.binary64 x.toModel.toBits.toBitVec ≠ 0#52 := by
    rw [ne_eq, ← BitVec.toNat_inj, p.toNat_unpackMantissa h]
    exact hf
  have hpacked := congrArg BitVec.toNat (x.toModel.valid.eq_packedNaN hexponent hmantissa)
  rw [packedNaN, toNat_packComponents] at hpacked
  exact h.symm.trans hpacked

end Parts

theorem Dyadic.ofFloat_injective : Function.Injective ofFloat := by
  intro x y h
  obtain ⟨p, hp⟩ := Parts.exists_of_float x
  obtain ⟨p', hp'⟩ := Parts.exists_of_float y
  have hbits : p.bits = p'.bits := by
    rw [p.ofFloat_eq hp, p'.ofFloat_eq hp'] at h
    have hnan := p.bits_of_notANumber hp
    have hnan' := p'.bits_of_notANumber hp'
    obtain ⟨n, e, f, he, hf⟩ := p
    obtain ⟨n', e', f', he', hf'⟩ := p'
    simp only [Parts.value] at h
    simp only [Parts.bits] at hnan hnan' ⊢
    split_ifs at h <;> simp_all <;> omega
  exact Float.toBits_inj.mp (UInt64.toNat_inj.mp (hp.trans (hbits.trans hp'.symm)))

/-! ## Finite doubles -/

/-- The significands and the exponents of the positive finite doubles, each double once. -/
structure Legal (m : Nat) (q : Int) : Prop where
  pos : 0 < m
  lt_carry : m < 2 ^ 53
  least_le : -1074 ≤ q
  le_greatest : q ≤ 971
  leading : q = -1074 ∨ 2 ^ 52 ≤ m

def signOf (negative : Bool) : Sign :=
  if negative then .negative else .positive

theorem ofBitVec_unpackSign {b : BitVec 64} {p : Parts} (h : b.toNat = p.bits) :
    Sign.ofBitVec (@unpackSign Format.binary64 b) = signOf p.negative := by
  have hsign := toNat_unpackSign b
  obtain ⟨negative, e, f, he, hf⟩ := p
  rw [h] at hsign
  have hdiv : (Parts.mk negative e f he hf).bits / 2 ^ 63 = negative.toNat := by
    cases negative <;> simp only [Parts.bits, Bool.toNat_true, Bool.toNat_false] <;> omega
  rw [hdiv] at hsign
  have hvec : @unpackSign Format.binary64 b = BitVec.ofNat 1 negative.toNat := by
    rw [← BitVec.toNat_inj, hsign]
    cases negative <;> rfl
  rw [hvec]
  cases negative <;> rfl

theorem Parts.value_of_subnormal {p : Parts} (h : p.exponent = 0) :
    p.value = .finite p.negative p.fraction (-1074) := by
  rw [value, if_neg (by omega), if_pos h]

theorem Parts.value_of_normal {p : Parts} (h : p.exponent ≠ 0) (hfinite : p.exponent ≠ 2047) :
    p.value = .finite p.negative (2 ^ 52 + p.fraction) (p.exponent - 1075) := by
  have hq : (-1074 : Int) + (p.exponent - 1) = p.exponent - 1075 := by omega
  rw [value, if_neg hfinite, if_neg h, hq]

theorem Parts.of_value_eq_finite {p : Parts} {negative : Bool} {m : Nat} {q : Int}
    (h : p.value = .finite negative m q) : p.negative = negative ∧ p.exponent ≠ 2047 ∧
      (p.exponent = 0 ∧ m = p.fraction ∧ q = -1074 ∨
        p.exponent ≠ 0 ∧ m = 2 ^ 52 + p.fraction ∧ q = p.exponent - 1075) := by
  by_cases hfinite : p.exponent = 2047
  · rw [value, if_pos hfinite] at h
    split at h <;> cases h
  · by_cases he : p.exponent = 0
    · rw [value_of_subnormal he] at h
      cases h
      exact ⟨rfl, hfinite, .inl ⟨he, rfl, rfl⟩⟩
    · rw [value_of_normal he hfinite] at h
      cases h
      exact ⟨rfl, hfinite, .inr ⟨he, rfl, rfl⟩⟩

theorem finite_congr {s s' : Sign} {m m' : Nat} {q q' : Int} {h : 0 < m} {h' : 0 < m'}
    (hs : s = s') (hm : m = m') (hq : q = q') :
    UnpackedFloat.finite s m q h = .finite s' m' q' h' := by
  subst hs hm hq
  rfl

/-- A finite double, its sign apart, unpacks into its significand and its exponent. -/
theorem unpack_of_ofFloat {x : Float} {negative : Bool} {m : Nat} {q : Int}
    (h : Dyadic.ofFloat x = .finite negative m q) (hm : 0 < m) :
    x.toModel.unpack = .finite (signOf negative) m q hm := by
  obtain ⟨p, hp⟩ := Parts.exists_of_float x
  have hexponent := p.toNat_unpackExponent hp
  have hmantissa := p.toNat_unpackMantissa hp
  have hsign := ofBitVec_unpackSign hp
  rw [p.ofFloat_eq hp] at h
  obtain ⟨rfl, hfinite, hparts⟩ := Parts.of_value_eq_finite h
  have hinfinite : @unpackExponent Format.binary64 x.toModel.toBits.toBitVec ≠ -1#11 := by
    rw [ne_eq, ← BitVec.toNat_inj, hexponent]
    exact hfinite
  show UnpackedFloat.unpack Format.binary64 x.toModel.toBits.toBitVec = _
  rw [UnpackedFloat.unpack]
  simp only []
  rw [if_neg hinfinite]
  have hbias : Format.binary64.exponentBias = 1023 := rfl
  obtain ⟨he, rfl, rfl⟩ | ⟨he, rfl, rfl⟩ := hparts
  · have hsubnormal : @unpackExponent Format.binary64 x.toModel.toBits.toBitVec = 0#11 := by
      rw [← BitVec.toNat_inj, hexponent]
      exact he
    have hzero : @unpackMantissa Format.binary64 x.toModel.toBits.toBitVec ≠ 0#52 := by
      rw [ne_eq, ← BitVec.toNat_inj, hmantissa]
      exact hm.ne'
    rw [if_pos hsubnormal, dif_neg hzero]
    exact finite_congr hsign hmantissa (by rw [hexponent, he, hbias]; norm_num)
  · have hnormal : @unpackExponent Format.binary64 x.toModel.toBits.toBitVec ≠ 0#11 := by
      rw [ne_eq, ← BitVec.toNat_inj, hexponent]
      exact he
    rw [if_neg hnormal]
    refine finite_congr hsign ?_ (by rw [hexponent, hbias]; norm_num)
    have hlt := (@unpackMantissa Format.binary64 x.toModel.toBits.toBitVec).isLt
    rw [BitVec.toNat_append, ← Nat.shiftLeft_add_eq_or_of_lt hlt, hmantissa]
    rfl

theorem legal_of_ofFloat {x : Float} {negative : Bool} {m : Nat} {q : Int}
    (h : Dyadic.ofFloat x = .finite negative m q) (hm : 0 < m) : Legal m q := by
  obtain ⟨p, hp⟩ := Parts.exists_of_float x
  rw [p.ofFloat_eq hp] at h
  obtain ⟨-, hfinite, hparts⟩ := Parts.of_value_eq_finite h
  have he := p.exponent_lt
  have hf := p.fraction_lt
  constructor <;> omega

theorem exponent_of_zero {x : Float} {negative : Bool} {q : Int}
    (h : Dyadic.ofFloat x = .finite negative 0 q) : q = -1074 := by
  obtain ⟨p, hp⟩ := Parts.exists_of_float x
  rw [p.ofFloat_eq hp] at h
  obtain ⟨-, -, hparts⟩ := Parts.of_value_eq_finite h
  omega

def double (s : Sign) (m : Nat) (q : Int) (h : 0 < m) : Float :=
  .ofModel (.pack (.finite s m q h))

namespace Legal

variable {m : Nat} {q : Int} (h : Legal m q)
include h

theorem log2_succ_eq_iff : m.log2 + 1 = 53 ↔ 2 ^ 52 ≤ m := by
  have h1 : m.log2 < 53 := (Nat.log2_lt h.pos.ne').mpr h.lt_carry
  have h2 : m.log2 < 52 ↔ m < 2 ^ 52 := Nat.log2_lt h.pos.ne'
  omega

theorem toNat_pack (s : Sign) :
    (UnpackedFloat.pack Format.binary64 (.finite s m q h.pos)).toNat =
      s.toBitVec.toNat * 2 ^ 63 + (q + 1074).toNat * 2 ^ 52 + m := by
  obtain ⟨hpos, hlt, hleast, hgreatest, hleading⟩ := id h
  have hbias : (q + Format.binary64.exponentBias
      + Format.binary64.mantissaBitsWithoutImplicit).toNat = (q + 1074).toNat + 1 := by
    rw [show Format.binary64.exponentBias = 1023 from rfl]
    norm_num
    omega
  rw [UnpackedFloat.pack]
  simp only [hbias]
  rw [if_neg (by norm_num; omega)]
  split
  · rename_i hlog
    have hm : 2 ^ 52 ≤ m := h.log2_succ_eq_iff.mp hlog
    rw [toNat_packComponents, BitVec.toNat_ofNat, BitVec.toNat_ofNat]
    omega
  · rename_i hlog
    have hm : ¬ 2 ^ 52 ≤ m := mt h.log2_succ_eq_iff.mpr hlog
    rw [toNat_packComponents, BitVec.toNat_ofNat, BitVec.toNat_ofNat]
    omega

theorem ofFloat_double (negative : Bool) :
    Dyadic.ofFloat (double (signOf negative) m q h.pos) = .finite negative m q := by
  have hbits : (double (signOf negative) m q h.pos).toBits.toNat =
      negative.toNat * 2 ^ 63 + (q + 1074).toNat * 2 ^ 52 + m := by
    refine (h.toNat_pack (signOf negative)).trans ?_
    cases negative <;> rfl
  obtain ⟨hpos, hlt, hleast, hgreatest, hleading⟩ := id h
  by_cases hm : m < 2 ^ 52
  · have hq : q = -1074 := by omega
    let p : Parts := ⟨negative, 0, m, by decide, hm⟩
    have hp : (double (signOf negative) m q h.pos).toBits.toNat = p.bits := by
      rw [hbits, hq]
      simp [Parts.bits, p]
    rw [p.ofFloat_eq hp, Parts.value_of_subnormal rfl, hq]
  · let p : Parts := ⟨negative, (q + 1075).toNat, m - 2 ^ 52, by omega, by omega⟩
    have hp : (double (signOf negative) m q h.pos).toBits.toNat = p.bits := by
      rw [hbits]
      simp only [Parts.bits, p]
      omega
    have he : (p.exponent : Int) - 1075 = q := by
      simp only [p]
      omega
    have hf : 2 ^ 52 + p.fraction = m := by
      simp only [p]
      omega
    rw [p.ofFloat_eq hp, Parts.value_of_normal (by omega) (by omega), he, hf]

theorem eq_double {x : Float} {negative : Bool} (hx : Dyadic.ofFloat x = .finite negative m q) :
    x = double (signOf negative) m q h.pos :=
  Dyadic.ofFloat_injective (hx.trans (h.ofFloat_double negative).symm)

theorem unpack_double (negative : Bool) :
    (double (signOf negative) m q h.pos).toModel.unpack = .finite (signOf negative) m q h.pos :=
  unpack_of_ofFloat (h.ofFloat_double negative) h.pos

theorem neg_double : -double .positive m q h.pos = double .negative m q h.pos := by
  have hunpack := h.unpack_double false
  show Float.ofModel (.pack (double (signOf false) m q h.pos).toModel.unpack.neg) = _
  rw [hunpack]
  rfl

end Legal

/-! ## Numbers -/

def IsNumber (x : Float) : Prop :=
  Dyadic.ofFloat x ≠ .notANumber

theorem Parts.bits_of_not_isNumber {x : Float} {p : Parts} (hp : x.toBits.toNat = p.bits)
    (h : ¬ IsNumber x) : p.bits = 2047 * 2 ^ 52 + 2 ^ 51 := by
  have hnan := not_not.mp h
  rw [p.ofFloat_eq hp, value] at hnan
  refine p.bits_of_notANumber hp ?_ ?_
  · by_contra he
    rw [if_neg he] at hnan
    split at hnan <;> cases hnan
  · intro hf
    rw [if_pos hf] at hnan
    split at hnan
    · cases hnan
    · split at hnan <;> cases hnan

theorem toNat_packedInfinity_ne (s : Sign) :
    (UnpackedFloat.packedInfinity Format.binary64 s).toNat ≠ 2047 * 2 ^ 52 + 2 ^ 51 := by
  cases s <;> decide

theorem toNat_sign (s : Sign) : s.toBitVec.toNat = 0 ∨ s.toBitVec.toNat = 1 := by
  cases s <;> decide

theorem isNumber_pack {u : UnpackedFloat} (h : u ≠ .notANumber) :
    IsNumber (.ofModel (.pack u)) := by
  by_contra hnan
  obtain ⟨p, hp⟩ := Parts.exists_of_float (.ofModel (.pack u))
  have hpack : (UnpackedFloat.pack Format.binary64 u).toNat = 2047 * 2 ^ 52 + 2 ^ 51 :=
    hp.trans (Parts.bits_of_not_isNumber hp hnan)
  cases u with
  | notANumber => exact h rfl
  | infinity s => exact toNat_packedInfinity_ne s hpack
  | zero s => cases s <;> exact absurd hpack (by decide)
  | finite s m e hm =>
      rw [UnpackedFloat.pack] at hpack
      dsimp only at hpack
      split at hpack
      · exact toNat_packedInfinity_ne s hpack
      · rename_i hsmall
        split at hpack <;>
          rw [toNat_packComponents, BitVec.toNat_ofNat, BitVec.toNat_ofNat] at hpack <;>
          obtain hs | hs := toNat_sign s <;> rw [hs] at hpack <;>
          norm_num at hsmall hpack <;> omega

theorem IsNumber.unpack_ne {x : Float} (h : IsNumber x) : x.toModel.unpack ≠ .notANumber := by
  intro hnan
  have hpacked := congrArg BitVec.toNat
    ((UnpackedFloat.unpack_eq_notANumber_iff_of_valid x.toModel.valid).mp hnan)
  rw [packedNaN, toNat_packComponents] at hpacked
  let p : Parts := ⟨false, 2047, 2 ^ 51, by decide, by decide⟩
  have hbits : x.toBits.toNat = p.bits := hpacked.trans (by decide)
  exact h (p.ofFloat_eq hbits)

theorem IsNumber.neg {x : Float} (h : IsNumber x) : IsNumber (-x) := by
  refine isNumber_pack (u := x.toModel.unpack.neg) ?_
  have hne := h.unpack_ne
  cases hu : x.toModel.unpack with
  | notANumber => exact absurd hu hne
  | infinity s => simp [UnpackedFloat.neg]
  | zero s => simp [UnpackedFloat.neg]
  | finite s m e hm => simp [UnpackedFloat.neg]

end Dialogue.Decimal
