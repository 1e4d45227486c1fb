import Mathlib.Algebra.Order.Field.Basic
import Mathlib.Algebra.Order.Field.Rat
import Mathlib.Data.Rat.Lemmas
import Mathlib.Tactic.FieldSimp
import Mathlib.Tactic.Linarith
import Mathlib.Tactic.Ring

/-! A ratio whose terms are halved until they are small enough: the terms that are left are those of the ratio, divided by one number and
    rounded down, so that the ratio is off by no more than one part in the smaller of them. -/

namespace Khc.Lib

/-- The terms `x` and `y` are left of `a` and `b`. -/
def Halved (a b x y : Int) : Prop := ∃ s, 0 < s ∧ s * x ≤ a ∧ a < s * (x + 1) ∧ s * y ≤ b ∧ b < s * (y + 1)

section
variable {a b x y t : Int}

theorem halved_half {s : Int} (hs : 0 < s) (hle : s * x ≤ a) (hlt : a < s * (x + 1)) : 2 * s * (x / 2) ≤ a ∧ a < 2 * s * (x / 2 + 1) := by
  have hlow : 2 * (x / 2) ≤ x := by omega
  have hhigh : x + 1 ≤ 2 * (x / 2 + 1) := by omega
  constructor
  · calc 2 * s * (x / 2) = s * (2 * (x / 2)) := by ring
      _ ≤ s * x := Int.mul_le_mul_of_nonneg_left hlow hs.le
      _ ≤ a := hle
  · calc a < s * (x + 1) := hlt
      _ ≤ s * (2 * (x / 2 + 1)) := Int.mul_le_mul_of_nonneg_left hhigh hs.le
      _ = 2 * s * (x / 2 + 1) := by ring

theorem Halved.half (h : Halved a b x y) : Halved a b (x / 2) (y / 2) := by
  obtain ⟨s, hs, hx, hx', hy, hy'⟩ := h
  obtain ⟨hx, hx'⟩ := halved_half hs hx hx'
  obtain ⟨hy, hy'⟩ := halved_half hs hy hy'
  exact ⟨2 * s, by omega, hx, hx', hy, hy'⟩

/-- A common factor of the terms that are left goes over to the number. -/
theorem Halved.reduce (h : Halved a b (t * x) (t * y)) (ht : 0 < t) : Halved a b x y := by
  obtain ⟨s, hs, hx, hx', hy, hy'⟩ := h
  have hone : ∀ z : Int, s * (t * z + 1) ≤ s * t * (z + 1) := by
    intro z
    calc s * (t * z + 1) ≤ s * (t * z + t) := Int.mul_le_mul_of_nonneg_left (by omega) hs.le
      _ = s * t * (z + 1) := by ring
  exact ⟨s * t, mul_pos hs ht, by rwa [mul_assoc], hx'.trans_le (hone x), by rwa [mul_assoc], hy'.trans_le (hone y)⟩

theorem Halved.symm (h : Halved a b x y) : Halved b a y x := by
  obtain ⟨s, hs, hx, hx', hy, hy'⟩ := h
  exact ⟨s, hs, hy, hy', hx, hx'⟩

end

end Khc.Lib
