import Mathlib

/-! Rounding a rational number to a significand of 53 bits, to nearest and to even on a tie. The
range of the exponent is not bounded. -/

namespace Binary64

/-- The nearest integer, the even one of two. -/
def nearest (q : ℚ) : ℤ :=
  if q - ⌊q⌋ < 1 / 2 ∨ (q - ⌊q⌋ = 1 / 2 ∧ ⌊q⌋ % 2 = 0) then ⌊q⌋ else ⌊q⌋ + 1

/-- The distance between neighbours at the magnitude of `q`. -/
def ulp (q : ℚ) : ℚ := 2 ^ (Int.log 2 |q| - 52)

def float (q : ℚ) : ℚ := if q = 0 then 0 else nearest (q / ulp q) * ulp q

theorem abs_nearest_sub_le (q : ℚ) : |nearest q - q| ≤ 1 / 2 := by
  have h0 := Int.floor_le q
  have h1 := Int.lt_floor_add_one q
  unfold nearest
  split
  · rename_i h
    rw [abs_le]
    constructor <;> rcases h with h | ⟨h, -⟩ <;> linarith
  · rename_i h
    push Not at h
    have := h.1
    rw [abs_le]
    push_cast
    constructor <;> linarith

theorem ulp_pos (q : ℚ) : 0 < ulp q := by
  unfold ulp
  positivity

theorem ulp_le {q : ℚ} (hq : q ≠ 0) : ulp q ≤ |q| / 2 ^ 52 := by
  have h := Int.zpow_log_le_self (b := 2) (r := |q|) (by norm_num) (abs_pos.mpr hq)
  unfold ulp
  rw [zpow_sub₀ (by norm_num)]
  push_cast at h
  norm_num at h ⊢
  linarith

theorem abs_float_sub_le (q : ℚ) : |float q - q| ≤ |q| / 2 ^ 53 := by
  unfold float
  split
  · rename_i h
    simp [h]
  · rename_i h
    have hu := ulp_pos q
    have hcancel : (nearest (q / ulp q) : ℚ) * ulp q - q =
        (nearest (q / ulp q) - q / ulp q) * ulp q := by field_simp
    rw [hcancel, abs_mul, abs_of_pos hu]
    calc |(nearest (q / ulp q) : ℚ) - q / ulp q| * ulp q
        ≤ 1 / 2 * ulp q := by gcongr; exact abs_nearest_sub_le _
      _ ≤ 1 / 2 * (|q| / 2 ^ 52) := by gcongr; exact ulp_le h
      _ = |q| / 2 ^ 53 := by ring

theorem float_nonneg {q : ℚ} (hq : 0 ≤ q) : 0 ≤ float q := by
  have h := (abs_le.mp (abs_float_sub_le q)).1
  rw [abs_of_nonneg hq] at h
  linarith

/-- Rounding adds no more than one part in 2⁵³. -/
theorem float_le {q : ℚ} (hq : 0 ≤ q) : float q ≤ q * (1 + 1 / 2 ^ 53) := by
  have h := (abs_le.mp (abs_float_sub_le q)).2
  rw [abs_of_nonneg hq] at h
  linarith

example : float (1 / 10) = 3602879701896397 / 36028797018963968 := by decide +kernel

end Binary64
