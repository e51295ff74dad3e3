import ExpressCore.Model.Statement

/-! # Classes of characters -/

namespace ExpressCore

/-- The spaces are below the digits or above the letters. -/
theorem isSpace_range {c : Char} (h : isSpace c = true) : c.toNat < 48 ∨ 123 ≤ c.toNat := by
  simp only [isSpace, List.mem_cons, List.not_mem_nil, or_false, Bool.or_eq_true,
    decide_eq_true_eq, Bool.and_eq_true] at h
  rcases h with h | h
  · rcases h with rfl | rfl | rfl | rfl | rfl | rfl | rfl | rfl | rfl | rfl | rfl | rfl | rfl |
      rfl <;> decide
  · have hlow := h.1
    simp only [Char.le_def, UInt32.le_iff_toNat_le] at hlow
    exact .inr (Nat.le_trans (by decide) hlow)

theorem isDigit_iff {c : Char} : c.isDigit = true ↔ 48 ≤ c.toNat ∧ c.toNat ≤ 57 := by
  simp [Char.isDigit, UInt32.le_iff_toNat_le]

theorem isLower_iff {c : Char} : c.isLower = true ↔ 97 ≤ c.toNat ∧ c.toNat ≤ 122 := by
  change (decide (c.val ≥ 97) && decide (c.val ≤ 122)) = true ↔ _
  simp [UInt32.le_iff_toNat_le]

theorem isUpper_iff {c : Char} : c.isUpper = true ↔ 65 ≤ c.toNat ∧ c.toNat ≤ 90 := by
  change decide (c.val ≥ 65 ∧ c.val ≤ 90) = true ↔ _
  simp [UInt32.le_iff_toNat_le]

theorem isAlpha_eq (c : Char) : c.isAlpha = (c.isUpper || c.isLower) := rfl

theorem isWord_range {c : Char} (h : isWord c = true) : 48 ≤ c.toNat ∧ c.toNat < 123 := by
  simp only [isWord, Char.isAlphanum, isAlpha_eq, Bool.or_eq_true, beq_iff_eq, isUpper_iff,
    isLower_iff, isDigit_iff] at h
  rcases h with ((h | h) | h) | rfl
  · omega
  · omega
  · omega
  · decide

theorem isSpace_of_isWord {c : Char} (h : isWord c = true) : isSpace c = false := by
  by_contra hspace
  have := isWord_range h
  have := isSpace_range (by simpa using hspace)
  omega

theorem isSpace_of_isDigit {c : Char} (h : c.isDigit = true) : isSpace c = false :=
  isSpace_of_isWord (by simp [isWord, Char.isAlphanum, h])

theorem toLower_not_upper (c : Char) : c.toLower.isUpper = false := by
  by_contra h
  have hset : c.toLower.isUpper = true := by simpa using h
  have hrange := isUpper_iff.mp hset
  by_cases hupper : c.val ≥ 'A'.val ∧ c.val ≤ 'Z'.val
  · have hc := isUpper_iff.mp (decide_eq_true hupper)
    have hsum : c.toLower.toNat = (c.val + 32).toNat := congrArg Char.toNat (dif_pos hupper)
    have hval : c.toLower.toNat = c.toNat + 32 := by
      have hsmall : c.toNat + 32 < 4294967296 := by omega
      rw [hsum, UInt32.toNat_add]
      simpa using Nat.mod_eq_of_lt hsmall
    omega
  · have hsame : c.toLower = c := dif_neg hupper
    rw [hsame] at hset
    exact hupper (of_decide_eq_true hset)

end ExpressCore
