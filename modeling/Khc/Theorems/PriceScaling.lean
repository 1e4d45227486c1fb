import Khc.Lib.Halving
import Khc.Market.Int128
import Khc.Market.Rates

/-! The product of a price and a ratio. -/

namespace Khc.Market

open Lib
open Chain (Price maxShareSupply)

/-! ### The halvings -/

theorem terms_div_le {n d : Int} (hn : 0 < n) (hd : 0 < d) :
    (0 : ℚ) < (n : ℚ) / d ∧ ((n : ℚ) / d).num ≤ n ∧ (((n : ℚ) / d).den : Int) ≤ d := by
  have hpos : (0 : ℚ) < (n : ℚ) / d := div_pos (by exact_mod_cast hn) (by exact_mod_cast hd)
  have hnum : 0 < ((n : ℚ) / d).num := Rat.num_pos.mpr hpos
  obtain ⟨t, ht, ht'⟩ := Rat.exists_eq_mul_div_num_and_eq_mul_div_den n hd.ne'
  have htpos : 0 < t := pos_of_mul_pos_left (ht ▸ hn) hnum.le
  refine ⟨hpos, ?_, ?_⟩
  · calc ((n : ℚ) / d).num ≤ t * ((n : ℚ) / d).num := le_mul_of_one_le_left hnum.le htpos
      _ = n := ht.symm
  · calc (((n : ℚ) / d).den : Int) ≤ t * ((n : ℚ) / d).den := le_mul_of_one_le_left (Int.natCast_nonneg _) htpos
      _ = d := ht'.symm

/-- The terms that are left of the product, before common factors are taken out. After a halving one of them is large. -/
structure Left (v : ℚ) (shrinked : Bool) (x y : Int) : Prop where
  pos : 0 < x
  pos' : 0 < y
  halved : Halved v.num v.den x y
  large : shrinked = true → maxShareSupply ≤ 2 * x + 1 ∨ maxShareSupply ≤ 2 * y + 1

/-- What the loop ends with -/
inductive Ended (v : ℚ) (shrinked : Bool) : ℚ → Prop
  | fits {x y : Int} (h : Left v shrinked x y) {z : ℚ} (hz : z = x / y) (hnum : z.num ≤ maxShareSupply)
      (hden : (z.den : Int) ≤ maxShareSupply) (hsame : shrinked = false → z = v) : Ended v shrinked z
  | least {y : Int} (h : Left v shrinked 1 y) (hy : maxShareSupply < y) (hsame : shrinked = false → v.num = 1 ∧ maxShareSupply < v.den) :
      Ended v shrinked (1 / maxShareSupply)
  | greatest {x : Int} (h : Left v shrinked x 1) (hx : maxShareSupply < x) (hsame : shrinked = false → maxShareSupply < v.num ∧ v.den = 1) :
      Ended v shrinked maxShareSupply

section
variable {v cp z : ℚ} {n : Nat} {s s' : Bool} {x y : Int}

/-- The terms without common factors are left as well. -/
theorem Left.reduce (h : Left v s x y) (hcp : cp = x / y) : ∃ t, 0 < t ∧ x = t * cp.num ∧ y = t * cp.den ∧ 0 < cp.num ∧
    Halved v.num v.den cp.num cp.den := by
  obtain ⟨t, hx, hy⟩ := Rat.exists_eq_mul_div_num_and_eq_mul_div_den x h.pos'.ne'
  rw [← hcp] at hx hy
  have hpos : 0 < cp.num := by
    rw [Rat.num_pos, hcp]
    exact div_pos (by exact_mod_cast h.pos) (by exact_mod_cast h.pos')
  have ht : 0 < t := by
    have hprod := h.pos
    rw [hx] at hprod
    exact pos_of_mul_pos_left hprod hpos.le
  refine ⟨t, ht, hx, hy, hpos, ?_⟩
  have hhalved := h.halved
  rw [hx, hy] at hhalved
  exact hhalved.reduce ht

end

/-! ### Accuracy -/

/-- One part in a million -/
def Near (v z : ℚ) : Prop := |z - v| ≤ v / 10 ^ 6

/-- Between `price::min` and `price::max` -/
def InRange (v : ℚ) : Prop := 1 / maxShareSupply ≤ v ∧ v ≤ maxShareSupply

section
variable {v cp z : ℚ} {s : Bool} {x y : Int}

theorem InRange.pos (h : InRange v) : 0 < v := lt_of_lt_of_le (by unfold maxShareSupply; norm_num) h.1

theorem InRange.terms (h : InRange v) : (v.den : Int) ≤ maxShareSupply * v.num ∧ v.num ≤ maxShareSupply * v.den := by
  have hden : (0 : ℚ) < v.den := by exact_mod_cast v.den_pos
  have hmax : (0 : ℚ) < maxShareSupply := by unfold maxShareSupply; norm_num
  obtain ⟨hlow, hhigh⟩ := h
  rw [← Rat.num_div_den v] at hlow hhigh
  rw [div_le_div_iff₀ hmax hden, one_mul] at hlow
  rw [div_le_iff₀ hden] at hhigh
  constructor
  · rw [mul_comm]
    exact_mod_cast hlow
  · exact_mod_cast hhigh

/-- Without a halving the product is exact. -/
theorem Ended.eq (h : Ended v false z) (hr : InRange v) : z = v := by
  obtain ⟨hlow, hhigh⟩ := hr.terms
  cases h with
  | fits _ _ _ _ hsame => exact hsame rfl
  | least _ _ hsame =>
    obtain ⟨hnum, hden⟩ := hsame rfl
    rw [hnum] at hlow
    omega
  | greatest _ _ hsame =>
    obtain ⟨hnum, hden⟩ := hsame rfl
    rw [hden] at hhigh
    omega

end

/-! ### Differences that fit -/

section
variable {w : Int128} {x r v cp z : ℚ}

end

/-! ### Numbers that fit -/

/-- A ratio of two amounts -/
structure Bounded (z : ℚ) : Prop where
  pos : 0 < z
  num_le : z.num ≤ maxShareSupply
  den_le : (z.den : Int) ≤ maxShareSupply

section
variable {w : Int128} {v cp z : ℚ} {s : Bool} {n d : Int}

theorem bounded_div (hn : 0 < n) (hn' : n ≤ maxShareSupply) (hd : 0 < d) (hd' : d ≤ maxShareSupply) : Bounded ((n : ℚ) / d) := by
  obtain ⟨hpos, hnum, hden⟩ := terms_div_le hn hd
  exact ⟨hpos, hnum.trans hn', hden.trans hd'⟩

theorem Ended.bounded (h : Ended v s z) : Bounded z := by
  have hone : (1 : Int) ≤ maxShareSupply := by decide
  cases h with
  | fits hleft hz hnum hden => exact ⟨hz ▸ div_pos (by exact_mod_cast hleft.pos) (by exact_mod_cast hleft.pos'), hnum, hden⟩
  | least => exact_mod_cast bounded_div one_pos hone (by decide) le_rfl
  | greatest =>
    have h := bounded_div (by decide) (le_refl maxShareSupply) one_pos hone
    rwa [Int.cast_one, div_one] at h

end

/-! ### The product -/

namespace Int128
variable (w : Int128)

/-- Either no halving is needed, or the candidates are on the edge, or the differences of both candidates from the product fit. -/
def Holds (v : ℚ) : Prop := ∀ cp, scaleLoop 128 false v = .ok (cp, true) → ∀ t ∈ closestTerms v cp, |t| < w.limit

end Int128

section
variable {w : Int128} {p : Price} {r v cp z : ℚ} {s : Bool}

theorem lt_one_iff : r < 1 ↔ r.num < r.den := by
  have hden : (0 : ℚ) < r.den := by exact_mod_cast r.den_pos
  conv_lhs => rw [← Rat.num_div_den r, div_lt_one hden]
  exact_mod_cast Iff.rfl

theorem Bounded.product_lt (h : Bounded z) {x : Int} (hx : 0 < x) (hx' : x ≤ maxShareSupply) :
    |z.num * x| < 2 ^ 127 ∧ |(z.den : Int) * x| < 2 ^ 127 := by
  have hnum : 0 < z.num := Rat.num_pos.mpr h.pos
  have hden : 0 < (z.den : Int) := by exact_mod_cast z.den_pos
  have hmax : maxShareSupply * maxShareSupply < 2 ^ 127 := by decide
  rw [abs_of_pos (mul_pos hnum hx), abs_of_pos (mul_pos hden hx)]
  exact ⟨(mul_le_mul h.num_le hx' hx.le (by decide)).trans_lt hmax, (mul_le_mul h.den_le hx' hx.le (by decide)).trans_lt hmax⟩

end

namespace Sample

def price : Price := ⟨⟨55466517571698, 0⟩, ⟨519027053818553377, 1⟩⟩

end Sample

open Sample

end Khc.Market
