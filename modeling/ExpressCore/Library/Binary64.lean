import Mathlib.Data.ENat.Basic
import Mathlib.Data.Nat.Size

/-! # Whole numbers as doubles

A double without sign and fraction is a natural number of 53 significant bits, or infinite. An
operation gives the double nearest to the exact result. -/

namespace Binary64

/-- `n` to 53 significant bits. When two neighbours are as near, it is the even one. -/
def nearest (n : ℕ) : ℕ :=
  let unit := 2 ^ (n.size - 53)
  let q := n / unit
  if 2 * (n % unit) < unit ∨ 2 * (n % unit) = unit ∧ q % 2 = 0 then q * unit else (q + 1) * unit

/-- What is rounded to this number or further is infinite. -/
@[irreducible] def limit : ℕ := 2 ^ 1024

/-- The double nearest to a natural number. -/
def ofNat (n : ℕ) : ℕ∞ := if nearest n < limit then nearest n else ⊤

/-- The double nearest to an exact result. -/
def round : ℕ∞ → ℕ∞
  | ⊤ => ⊤
  | (n : ℕ) => ofNat n

/-- The larger one of a number and a double. -/
def atLeast (low : ℕ) : ℕ∞ → ℕ∞
  | ⊤ => ⊤
  | (n : ℕ) => (Nat.max low n : ℕ)

/-- The smaller one. -/
def atMost (high : ℕ) : ℕ∞ → ℕ
  | ⊤ => high
  | (n : ℕ) => Nat.min high n

variable {m n low high : ℕ} {x : ℕ∞}

theorem nearest_of_lt (h : n < 2 ^ 53) : nearest n = n := by
  have hunit : n.size - 53 = 0 := Nat.sub_eq_zero_of_le (Nat.size_le.mpr h)
  simp [nearest, hunit, Nat.mod_one]

/-- Rounding does not pass a number that is a double. -/
theorem le_nearest (hm : m ≤ 2 ^ 53) (h : m ≤ n) : m ≤ nearest n := by
  by_cases hn : n < 2 ^ 53
  · rwa [nearest_of_lt hn]
  · have hsize : 53 < n.size := Nat.lt_size.mpr (Nat.le_of_not_lt hn)
    have hunit : 0 < 2 ^ (n.size - 53) := Nat.pow_pos (by decide)
    have hpower : 2 ^ 52 * 2 ^ (n.size - 53) = 2 ^ (n.size - 1) := by
      rw [← Nat.pow_add]
      congr 1
      omega
    have hq : 2 ^ 52 ≤ n / 2 ^ (n.size - 53) := by
      rw [Nat.le_div_iff_mul_le hunit, hpower]
      exact Nat.lt_size.mp (by omega)
    have hlow : 2 ^ 53 ≤ n / 2 ^ (n.size - 53) * 2 ^ (n.size - 53) :=
      calc 2 ^ 53 ≤ 2 ^ (n.size - 1) := Nat.pow_le_pow_right (by decide) (by omega)
        _ = 2 ^ 52 * 2 ^ (n.size - 53) := hpower.symm
        _ ≤ n / 2 ^ (n.size - 53) * 2 ^ (n.size - 53) := Nat.mul_le_mul_right _ hq
    refine Nat.le_trans hm ?_
    simp only [nearest]
    split
    · exact hlow
    · exact Nat.le_trans hlow (Nat.mul_le_mul_right _ (Nat.le_succ _))

theorem le_limit : 2 ^ 53 ≤ limit := by decide +kernel

theorem ofNat_of_lt (h : n < 2 ^ 53) : ofNat n = n := by
  rw [ofNat, nearest_of_lt h, if_pos (Nat.lt_of_lt_of_le h le_limit)]

theorem round_coe : round n = ofNat n := rfl

/-- The numbers below `2 ^ 53` are exact. -/
theorem round_of_lt (h : n < 2 ^ 53) : round n = n := ofNat_of_lt h

theorem le_round (hm : m ≤ 2 ^ 53) (h : (m : ℕ∞) ≤ x) : (m : ℕ∞) ≤ round x := by
  cases x with
  | top => exact le_top
  | coe n =>
      have hle : m ≤ nearest n := le_nearest hm (by exact_mod_cast h)
      rw [round_coe, ofNat]
      split
      · exact_mod_cast hle
      · exact le_top

/-! ## Bounds -/

theorem le_atLeast : (low : ℕ∞) ≤ atLeast low x := by
  cases x with
  | top => exact le_top
  | coe n => exact Nat.cast_le.mpr (Nat.le_max_left low n)

theorem atLeast_of_le (h : (low : ℕ∞) ≤ x) : atLeast low x = x := by
  cases x with
  | top => rfl
  | coe n => exact congrArg Nat.cast (Nat.max_eq_right (Nat.cast_le.mp h))

theorem atMost_le : atMost high x ≤ high := by
  cases x with
  | top => exact Nat.le_refl high
  | coe n => exact Nat.min_le_left high n

theorem le_atMost (hm : m ≤ high) (h : (m : ℕ∞) ≤ x) : m ≤ atMost high x := by
  cases x with
  | top => exact hm
  | coe n => exact Nat.le_min.mpr ⟨hm, Nat.cast_le.mp h⟩

theorem atMost_coe : atMost high n = min high n := rfl

theorem atMost_of_le (h : (high : ℕ∞) ≤ x) : atMost high x = high :=
  Nat.le_antisymm atMost_le (le_atMost (Nat.le_refl high) h)

example : ofNat (2 ^ 53 + 1) = ((2 ^ 53 : ℕ) : ℕ∞) := by decide +kernel

end Binary64
