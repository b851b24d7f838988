import Mathlib.Algebra.Order.Ring.Int
import Mathlib.Tactic.Ring
import Mathlib.Tactic.Linarith

/-!
# Points next to a slope

On a slope that rises by `dy` over `dx`, the height behind `k` steps is rounded to the next whole
number, halves down. An error term that starts at half of `dx`, loses `dy` in each step and gains
`dx` with each rise stays between zero and `dx`, and that determines the rounded height.
-/

namespace Slope

/-- The whole number next to `k * dy / dx`. -/
def height (dx dy k : Int) : Int := (k * dy + (dx - 1 - dx / 2)) / dx

variable {dx dy k m : Int}

/-- The error term tells the height. -/
theorem height_eq (hlow : 0 ≤ dx / 2 - k * dy + m * dx) (hhigh : dx / 2 - k * dy + m * dx < dx) :
    height dx dy k = m := by
  have hsum : k * dy + (dx - 1 - dx / 2) = dx - 1 - (dx / 2 - k * dy + m * dx) + m * dx := by ring
  rw [height, hsum, Int.add_mul_ediv_right _ _ (by omega), Int.ediv_eq_zero_of_lt (by omega)
    (by omega), Int.zero_add]

/-- The error term of a height. -/
theorem height_bounds (hdx : 0 < dx) (dy k : Int) :
    0 ≤ dx / 2 - k * dy + height dx dy k * dx ∧ dx / 2 - k * dy + height dx dy k * dx < dx := by
  have hdiv := Int.mul_ediv_add_emod (k * dy + (dx - 1 - dx / 2)) dx
  have hnonneg := Int.emod_nonneg (k * dy + (dx - 1 - dx / 2)) hdx.ne'
  have hlt := Int.emod_lt_of_pos (k * dy + (dx - 1 - dx / 2)) hdx
  have hmul : height dx dy k * dx = dx * ((k * dy + (dx - 1 - dx / 2)) / dx) := mul_comm _ _
  omega

theorem height_zero (hdx : 0 ≤ dx) : height dx dy 0 = 0 := by
  rcases hdx.eq_or_lt with rfl | hpos
  · simp [height]
  · apply height_eq <;> omega

theorem height_self (hdx : 0 < dx) : height dx dy dx = dy := by
  have hmul : dy * dx = dx * dy := mul_comm _ _
  apply height_eq <;> omega

/-- A step further on. -/
theorem height_succ (hdx : 0 ≤ dx) (hlow : 0 ≤ dy) (hhigh : dy ≤ dx) (k : Int) :
    height dx dy (k + 1) = height dx dy k +
      if dx / 2 - k * dy + height dx dy k * dx - dy < 0 then 1 else 0 := by
  rcases hdx.eq_or_lt with rfl | hpos
  · obtain rfl : dy = 0 := by omega
    simp [height]
  · have hbounds := height_bounds hpos dy k
    have hstep : (k + 1) * dy = k * dy + dy := by ring
    have hone : (height dx dy k + 1) * dx = height dx dy k * dx + dx := by ring
    split
    · apply height_eq <;> omega
    · rw [Int.add_zero]
      apply height_eq <;> omega

/-- No point is off the slope by more than a half. -/
theorem height_near (hdx : 0 ≤ dx) (hdy : 0 ≤ dy) (hhigh : dy ≤ dx) (k : Int) :
    2 * |dx * height dx dy k - k * dy| ≤ dx := by
  rcases hdx.eq_or_lt with rfl | hpos
  · obtain rfl : dy = 0 := by omega
    simp
  · have hbounds := height_bounds hpos dy k
    have hmul : height dx dy k * dx = dx * height dx dy k := mul_comm _ _
    rcases abs_cases (dx * height dx dy k - k * dy) with ⟨h, -⟩ | ⟨h, -⟩ <;> omega

/-- The heights lie between those of the ends. -/
theorem height_mem (hdx : 0 ≤ dx) (hlow : 0 ≤ dy) (hk : 0 ≤ k) (hkdx : k ≤ dx) :
    0 ≤ height dx dy k ∧ height dx dy k ≤ dy := by
  rcases hdx.eq_or_lt with rfl | hpos
  · simpa [height] using hlow
  have hbounds := height_bounds hpos dy k
  have hkdy : 0 ≤ k * dy := mul_nonneg hk hlow
  have hkdy' : k * dy ≤ dx * dy := mul_le_mul_of_nonneg_right hkdx hlow
  constructor
  · by_contra hneg
    have : height dx dy k * dx ≤ -1 * dx := mul_le_mul_of_nonneg_right (by omega) hdx
    omega
  · by_contra hbig
    have : (dy + 1) * dx ≤ height dx dy k * dx := mul_le_mul_of_nonneg_right (by omega) hdx
    have hring : (dy + 1) * dx = dx * dy + dx := by ring
    omega

end Slope
