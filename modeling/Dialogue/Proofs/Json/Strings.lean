import Dialogue.Json.Reader
import Dialogue.Json.Writer
import Dialogue.Proofs.Text.Hexadecimal
import Dialogue.Proofs.Text.Loose

/-! A text is read back from its escapes: of one letter, of a code unit, and of two surrogates for a
character that one code unit does not hold. Lone surrogates come back alone, unless two of them
stand for a character. -/

namespace Dialogue

namespace Json

open Text (CodePoint pointsOf)

/-! ## Joined surrogates -/

/-- Code points with every two surrogates that stand for a character joined. -/
def joined : List CodePoint → List CodePoint
  | .surrogate s :: .surrogate t :: rest =>
    if isHighSurrogate s.code ∧ isLowSurrogate t.code then
      .char (joinSurrogates s.code t.code) :: joined rest
    else .surrogate s :: joined (.surrogate t :: rest)
  | p :: rest => p :: joined rest
  | [] => []

theorem joined_char (c : Char) (points : List CodePoint) :
    joined (.char c :: points) = .char c :: joined points := by
  rw [joined]
  simp

@[simp]
theorem joined_pointsOf (chars : List Char) : joined (pointsOf chars) = pointsOf chars := by
  induction chars with
  | nil => rfl
  | cons c chars ih => exact (joined_char c _).trans (congrArg _ ih)

/-- A surrogate stays alone in front of what is joined, unless it is joined with what is next. -/
theorem joined_surrogate {s : Text.Surrogate} {points : List CodePoint}
    (h : joined points = points) (halone : ∀ t, points.head? = some (.surrogate t) →
      isHighSurrogate s.code = true → isLowSurrogate t.code = false) :
    joined (.surrogate s :: points) = .surrogate s :: points := by
  cases points with
  | nil => rfl
  | cons p points =>
      cases p with
      | char c =>
          rw [joined, h]
          simp
      | surrogate t =>
          have ht := halone t rfl
          rw [joined, if_neg, h]
          rintro ⟨hs, hlow⟩
          exact absurd ((ht hs).symm.trans hlow) (by decide)

/-! ## Escapes -/

theorem exists_unitEscape_eq (n : Nat) : ∃ a b c d, unitEscape n = ['\\', 'u', a, b, c, d] ∧
    (n < 0x10000 → Text.hexNumber? [a, b, c, d] = some n) := by
  have hnumber : n < 16 ^ 4 → Text.hexNumber? (Text.hexDigits 4 n) = some n :=
    Text.hexNumber?_hexDigits
  obtain ⟨a, b, c, d, hdigits⟩ : ∃ a b c d, Text.hexDigits 4 n = [a, b, c, d] := ⟨_, _, _, _, rfl⟩
  rw [hdigits] at hnumber
  exact ⟨a, b, c, d, by rw [unitEscape, hdigits], hnumber⟩

theorem isHighSurrogate_toNat (c : Char) : isHighSurrogate c.toNat = false := by
  have := Text.lt_or_gt_of_char c
  simp only [isHighSurrogate, decide_eq_false_iff_not]
  omega

theorem isLowSurrogate_toNat (c : Char) : isLowSurrogate c.toNat = false := by
  have := Text.lt_or_gt_of_char c
  simp only [isLowSurrogate, decide_eq_false_iff_not]
  omega

theorem unitPoint_code (p : CodePoint) : unitPoint p.code = p := by
  cases p with
  | char c =>
      have hc := Text.lt_or_gt_of_char c
      rw [unitPoint, dif_neg (by simp only [CodePoint.code]; omega), CodePoint.code,
        Char.ofNat_toNat]
  | surrogate s => exact dif_pos s.bounds

variable {start place : Nat} {rest : List Char}

/-- A code unit that is no high surrogate stands for itself, whatever comes behind. -/
theorem joinUnit_of_not_high {unit : Nat} (h : isHighSurrogate unit = false) (place : Nat)
    (rest : List Char) : joinUnit unit place rest = .ok (unitPoint unit, 0) := by
  unfold joinUnit
  split
  · rw [h]
    rfl
  · rfl

/-- The code unit of a character stands for it, whatever comes behind. -/
theorem joinUnit_toNat (c : Char) (place : Nat) (rest : List Char) :
    joinUnit c.toNat place rest = .ok (.char c, 0) := by
  rw [joinUnit_of_not_high (isHighSurrogate_toNat c), ← unitPoint_code (.char c)]
  rfl

theorem stringFrom_unitEscape {n more : Nat} {point : CodePoint} (hn : n < 0x10000)
    (hrest : rest ≠ []) (hjoin : joinUnit n (place + 6) rest = .ok (point, more)) :
    stringFrom start place (unitEscape n ++ rest) =
      stringFrom.cons point (stringFrom start (place + 6 + more) (rest.drop more)) := by
  obtain ⟨a, b, c, d, hescape, hnumber⟩ := exists_unitEscape_eq n
  specialize hnumber hn
  rw [hescape]
  have hempty : rest.isEmpty = false := by simpa using hrest
  simp only [List.cons_append, List.nil_append]
  rw [stringFrom]
  simp [hempty, hnumber, hjoin]

theorem joinUnit_surrogates {high low : Nat} (hhigh : isHighSurrogate high = true)
    (hlow : isLowSurrogate low = true) (hrest : rest ≠ []) (place : Nat) :
    joinUnit high place (unitEscape low ++ rest) = .ok (.char (joinSurrogates high low), 6) := by
  have hlow' : low < 0x10000 := by
    simp only [isLowSurrogate, decide_eq_true_eq] at hlow
    omega
  obtain ⟨a, b, c, d, hescape, hnumber⟩ := exists_unitEscape_eq low
  specialize hnumber hlow'
  obtain ⟨e, rest, rfl⟩ := List.exists_cons_of_ne_nil hrest
  rw [hescape]
  simp [joinUnit, hhigh, hnumber, hlow]

/-- A code unit stays alone in front of one that is no low surrogate. -/
theorem joinUnit_unitEscape {unit n : Nat} (hn : n < 0x10000) (hlow : isLowSurrogate n = false) :
    joinUnit unit place (unitEscape n ++ rest) = .ok (unitPoint unit, 0) := by
  obtain ⟨a, b, c, d, hescape, hnumber⟩ := exists_unitEscape_eq n
  specialize hnumber hn
  rw [hescape]
  cases rest with
  | nil => rfl
  | cons e rest => simp [joinUnit, hnumber, hlow]

/-- A code unit stays alone in front of what is no escape of a code unit. -/
theorem joinUnit_of_ne {unit : Nat} {c : Char} (h : c = '\\' → ∀ e ∈ rest.head?, e ≠ 'u') :
    joinUnit unit place (c :: rest) = .ok (unitPoint unit, 0) := by
  unfold joinUnit
  split
  · next heq =>
      obtain ⟨rfl, rfl⟩ := List.cons.inj heq
      exact absurd rfl (h rfl 'u' rfl)
  · rfl

theorem stringFrom_plainEscape {e c : Char} (he : e ≠ 'u') (hc : plainEscape? e = some c) :
    stringFrom start place ('\\' :: e :: rest) =
      stringFrom.cons (.char c) (stringFrom start (place + 2) rest) := by
  rw [stringFrom]
  · simp [he, hc]
  all_goals simp [he]

theorem stringFrom_char {c : Char} (hquote : c ≠ '"') (hescape : c ≠ '\\') (hc : 0x20 ≤ c.toNat) :
    stringFrom start place (c :: rest) =
      stringFrom.cons (.char c) (stringFrom start (place + 1) rest) := by
  rw [stringFrom]
  · rw [if_neg (by omega)]
  all_goals simp [hquote, hescape]

/-- What is written for a character is read as the character. -/
theorem stringFrom_escapeChar (c : Char) (hrest : rest ≠ []) :
    stringFrom start place (escapeChar c ++ rest) =
      stringFrom.cons (.char c) (stringFrom start (place + (escapeChar c).length) rest) := by
  rw [escapeChar]
  iterate 7
    split
    · subst c
      exact stringFrom_plainEscape (by decide) (by decide)
  split
  · rename_i hquote hescape _ _ _ _ _ hprintable
    exact stringFrom_char hquote hescape hprintable.1
  split
  · rw [stringFrom_unitEscape ‹_› hrest (joinUnit_toNat c _ rest)]
    rfl
  · rename_i hlarge
    have hvalid := Text.lt_or_gt_of_char c
    have hhigh : isHighSurrogate (0xd800 + (c.toNat - 0x10000) / 0x400) = true := by
      simp only [isHighSurrogate, decide_eq_true_eq]
      omega
    have hlow : isLowSurrogate (0xdc00 + (c.toNat - 0x10000) % 0x400) = true := by
      simp only [isLowSurrogate, decide_eq_true_eq]
      omega
    have hchar : joinSurrogates (0xd800 + (c.toNat - 0x10000) / 0x400)
        (0xdc00 + (c.toNat - 0x10000) % 0x400) = c := by
      rw [joinSurrogates]
      have : 0x10000 + (0xd800 + (c.toNat - 0x10000) / 0x400 - 0xd800) * 0x400
          + (0xdc00 + (c.toNat - 0x10000) % 0x400 - 0xdc00) = c.toNat := by omega
      rw [this, Char.ofNat_toNat]
    rw [List.append_assoc, stringFrom_unitEscape (by omega) (by simp [unitEscape])
      (joinUnit_surrogates hhigh hlow hrest _), hchar]
    rfl

/-- A code unit stays alone in front of what is written for a character. -/
theorem joinUnit_escapeChar (unit : Nat) (c : Char) :
    joinUnit unit place (escapeChar c ++ rest) = .ok (unitPoint unit, 0) := by
  rw [escapeChar]
  iterate 7
    split
    · exact joinUnit_of_ne (by simp)
  split
  · rename_i hescape _ _ _ _ _ _
    exact joinUnit_of_ne (fun h => absurd h hescape)
  split
  · exact joinUnit_unitEscape ‹_› (isLowSurrogate_toNat c)
  · have hvalid := Text.lt_or_gt_of_char c
    have hlow : isLowSurrogate (0xd800 + (c.toNat - 0x10000) / 0x400) = false := by
      simp only [isLowSurrogate, decide_eq_false_iff_not]
      omega
    rw [List.append_assoc]
    exact joinUnit_unitEscape (by omega) hlow

/-! ## Texts -/

theorem lt_of_surrogate (s : Text.Surrogate) : s.code < 0x10000 :=
  Nat.lt_trans s.bounds.2 (by decide)

theorem stringFrom_surrogate {s : Text.Surrogate} (hrest : rest ≠ [])
    (hjoin : joinUnit s.code (place + 6) rest = .ok (unitPoint s.code, 0)) :
    stringFrom start place (unitEscape s.code ++ rest) =
      stringFrom.cons (.surrogate s) (stringFrom start (place + 6) rest) := by
  rw [stringFrom_unitEscape (lt_of_surrogate s) hrest hjoin, ← unitPoint_code (.surrogate s)]
  rfl

theorem length_unitEscape (n : Nat) : (unitEscape n).length = 6 := by
  obtain ⟨a, b, c, d, hescape, -⟩ := exists_unitEscape_eq n
  rw [hescape]
  rfl

/-- What is written for a text is read as the text with its surrogates joined. -/
theorem stringFrom_writeString (points : List CodePoint) (start place : Nat) (rest : List Char) :
    stringFrom start place (points.flatMap escapePoint ++ '"' :: rest) =
      .ok ⟨joined points, place + (points.flatMap escapePoint).length + 1, rest⟩ := by
  have hne : ∀ text : List Char, text ++ '"' :: rest ≠ [] := by simp
  fun_induction joined points generalizing place with
  | case1 s t points hjoin ih =>
      have hread := joinUnit_surrogates hjoin.1 hjoin.2 (hne (points.flatMap escapePoint))
        (place + 6)
      rw [List.flatMap_cons, List.flatMap_cons, escapePoint, escapePoint, List.append_assoc,
        List.append_assoc, stringFrom_unitEscape (lt_of_surrogate s) (by simp [unitEscape]) hread,
        List.drop_left' (length_unitEscape _), ih]
      simp +arith [stringFrom.cons, length_unitEscape]
  | case2 s t points hjoin ih =>
      have hread : joinUnit s.code (place + 6) ((CodePoint.surrogate t :: points).flatMap
          escapePoint ++ '"' :: rest) = .ok (unitPoint s.code, 0) := by
        rw [List.flatMap_cons, List.append_assoc]
        cases hhigh : isHighSurrogate s.code with
        | false => exact joinUnit_of_not_high hhigh _ _
        | true =>
            have hlow : isLowSurrogate t.code = false := by simpa [hhigh] using hjoin
            exact joinUnit_unitEscape (lt_of_surrogate t) hlow
      rw [List.flatMap_cons, escapePoint, List.append_assoc, stringFrom_surrogate (hne _) hread, ih]
      simp [stringFrom.cons, length_unitEscape, Nat.add_assoc]
  | case3 p points hp ih =>
      rw [List.flatMap_cons, List.append_assoc]
      cases p with
      | char c =>
          rw [escapePoint, stringFrom_escapeChar c (hne _), ih]
          simp [stringFrom.cons, Nat.add_assoc]
      | surrogate s =>
          have hread : joinUnit s.code (place + 6) (points.flatMap escapePoint ++ '"' :: rest) =
              .ok (unitPoint s.code, 0) := by
            match points with
            | [] => exact joinUnit_of_ne (by simp)
            | .char c :: points =>
                rw [List.flatMap_cons, List.append_assoc]
                exact joinUnit_escapeChar _ c
            | .surrogate t :: points => exact absurd rfl (hp s t points rfl)
          rw [escapePoint, stringFrom_surrogate (hne _) hread, ih]
          simp [stringFrom.cons, length_unitEscape, Nat.add_assoc]
  | case4 => simp [stringFrom]

/-! ## What is read -/

/-- A text that goes on with the escape of a low surrogate, which a high one in front of it would be
joined with. -/
def LowNext (text : List Char) : Prop :=
  ∃ a b c d e rest low, text = '\\' :: 'u' :: a :: b :: c :: d :: e :: rest ∧
    Text.hexNumber? [a, b, c, d] = some low ∧ isLowSurrogate low = true

theorem joinUnit_of_lowNext {unit : Nat} (hhigh : isHighSurrogate unit = true)
    (h : LowNext rest) (place : Nat) : ∃ c, joinUnit unit place rest = .ok (.char c, 6) := by
  obtain ⟨a, b, c, d, e, rest, low, rfl, hnumber, hlow⟩ := h
  exact ⟨joinSurrogates unit low, by simp [joinUnit, hhigh, hnumber, hlow]⟩

/-- Code points as they are read from a text: with their surrogates joined, and with a low one at
the front only if the text has one there. -/
structure JoinedFrom (text : List Char) (points : List CodePoint) : Prop where
  joined_eq : joined points = points
  lowNext : ∀ s, points.head? = some (.surrogate s) → isLowSurrogate s.code = true → LowNext text

theorem JoinedFrom.char {text : List Char} {points : List CodePoint}
    (h : JoinedFrom rest points) (c : Char) : JoinedFrom text (.char c :: points) where
  joined_eq := (joined_char c points).trans (congrArg _ h.joined_eq)
  lowNext := by simp

theorem exists_of_cons {p : CodePoint} {x : Result (List CodePoint)} {r : Read (List CodePoint)}
    (h : stringFrom.cons p x = .ok r) : ∃ r', x = .ok r' ∧ r.value = p :: r'.value := by
  cases x with
  | error e => cases h
  | ok r' =>
      cases h
      exact ⟨r', rfl, rfl⟩

theorem eq_code_of_unitPoint {n : Nat} {s : Text.Surrogate} (h : unitPoint n = .surrogate s) :
    n = s.code := by
  rw [unitPoint] at h
  split at h
  · exact congrArg Text.Surrogate.code (CodePoint.surrogate.inj h)
  · cases h

/-- A surrogate is read alone from its own escape only, and only if nothing comes behind it that it
is joined with. -/
theorem joinUnit_eq_surrogate {unit more : Nat} {s : Text.Surrogate}
    (h : joinUnit unit place rest = .ok (.surrogate s, more)) :
    unit = s.code ∧ more = 0 ∧ (isHighSurrogate unit = true → ¬ LowNext rest) := by
  have halone : isHighSurrogate unit = true → ¬ LowNext rest := by
    intro hhigh hnext
    obtain ⟨c, hc⟩ := joinUnit_of_lowNext hhigh hnext place
    cases hc.symm.trans h
  have hunit : .ok (unitPoint unit, 0) = joinUnit unit place rest := by
    unfold joinUnit at h ⊢
    split
    · split
      · next hhigh =>
          simp only [hhigh, if_true] at h
          split at h
          · cases h
          · next low hnumber =>
              split at h
              · cases h
              · next hlow => simp only [hlow, Bool.false_eq_true, if_false]
      · rfl
    · rfl
  obtain ⟨hpoint, hmore⟩ := Prod.mk.inj (Except.ok.inj (hunit.trans h))
  exact ⟨eq_code_of_unitPoint hpoint, hmore.symm, halone⟩

theorem joinedFrom_unit {a b c d : Char} {unit more : Nat} {point : CodePoint}
    {points : List CodePoint} (hrest : rest ≠ []) (hunit : Text.hexNumber? [a, b, c, d] = some unit)
    (hjoin : joinUnit unit place rest = .ok (point, more))
    (h : JoinedFrom (rest.drop more) points) :
    JoinedFrom ('\\' :: 'u' :: a :: b :: c :: d :: rest) (point :: points) := by
  cases point with
  | char c => exact h.char c
  | surrogate s =>
      obtain ⟨rfl, rfl, halone⟩ := joinUnit_eq_surrogate hjoin
      refine ⟨joined_surrogate h.joined_eq fun t ht hhigh => ?_, fun t ht hlow => ?_⟩
      · have hnext := mt (h.lowNext t ht) (halone hhigh)
        exact Bool.eq_false_iff.mpr hnext
      · obtain rfl : s = t := CodePoint.surrogate.inj (Option.some.inj ht)
        obtain ⟨e, rest, rfl⟩ := List.exists_cons_of_ne_nil hrest
        exact ⟨a, b, c, d, e, rest, s.code, rfl, hunit, hlow⟩

theorem joinedFrom_stringFrom {text : List Char} {r : Read (List CodePoint)}
    (h : stringFrom start place text = .ok r) : JoinedFrom text r.value := by
  fun_induction stringFrom start place text generalizing r with
  | case1 | case3 | case4 | case5 | case6 | case8 | case9 | case11 => cases h
  | case2 =>
      cases h
      exact ⟨rfl, by simp⟩
  | case7 place a b c d rest hrest unit hunit point more hjoin ih =>
      obtain ⟨r', hread, hvalue⟩ := exists_of_cons h
      rw [hvalue]
      exact joinedFrom_unit (by simpa using hrest) hunit hjoin (ih hread)
  | case10 _ _ _ _ _ _ _ ih | case12 _ _ _ _ _ _ _ _ ih =>
      obtain ⟨r', hread, hvalue⟩ := exists_of_cons h
      rw [hvalue]
      exact (ih hread).char _

end Json

end Dialogue
