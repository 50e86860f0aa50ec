import Dialogue.Config

/-! What can be relied on in settings that have been accepted. -/

namespace Dialogue.Config

variable {v : Value} {config : Config}

/-- Accepted settings have a length for locks and a suffix. -/
theorem accepted_of_ofValue (h : ofValue v = .ok config) :
    isLockLength config.lockLength = true ∧ config.projectSuffix.truthy = true := by
  unfold ofValue at h
  split at h
  · rw [← Except.ok.inj h]
    exact ⟨rfl, rfl⟩
  · simp only [bind, Except.bind] at h
    split at h
    · cases h
    split at h
    · cases h
    split at h
    · cases h
    dsimp only [pure, Except.pure] at h
    split at h
    · split at h
      · cases h
      · rename_i hlength
        split at h
        · cases h
        · rename_i hsuffix
          rw [← Except.ok.inj h]
          exact ⟨by simpa using hlength, by simpa using hsuffix⟩
    · cases h

theorem isLockLength_of_ofValue (h : ofValue v = .ok config) :
    isLockLength config.lockLength = true :=
  (accepted_of_ofValue h).1

theorem suffix_ne_of_ofValue (h : ofValue v = .ok config) {suffix : String}
    (hsuffix : config.projectSuffix = .text suffix) : suffix ≠ "" := by
  have htruthy := (accepted_of_ofValue h).2
  rw [hsuffix] at htruthy
  rintro rfl
  cases htruthy

end Dialogue.Config
