import Khc.Market.Price
import Mathlib.Algebra.Order.Ring.Int
import Mathlib.Tactic.Linarith

/-! What products of amounts and prices are: whole amounts, rounded down or up, and what remains when an amount is
    converted forth and back. -/

namespace Khc.Market

open Lib
open Chain (Asset Price AssetId)

variable {a b c r per out : Asset} {p : Price} {carry : Nat}

theorem convert_eq_ok (h : convert a per out carry = .ok r) :
    0 < per.amount ∧ r.assetId = out.assetId ∧
      r.amount = ((a.amount.toNat * out.amount.toNat + carry) / per.amount.toNat : Nat) := by
  simp only [convert, bind_eq_ok, fcAssert_eq_ok, pure_eq_ok] at h
  obtain ⟨-, hpos, -, -, rfl⟩ := h
  exact ⟨hpos, rfl, rfl⟩

theorem convert_nonneg (h : convert a per out carry = .ok r) : 0 ≤ r.amount := by
  rw [(convert_eq_ok h).2.2]
  exact Int.natCast_nonneg _

/-- A quotient of amounts is not zero when the divisor is not greater than the product. -/
theorem toNat_div_ne_zero {x m n : Int} (hm : 0 < m) (hn : 0 ≤ n) : x.toNat * n.toNat / m.toNat ≠ 0 ↔ m ≤ x * n := by
  rw [Nat.div_ne_zero_iff]
  rcases le_or_gt 0 x with hx | hx
  · lift x to Nat using hx
    lift n to Nat using hn
    lift m to Nat using hm.le
    simp only [Int.toNat_natCast]
    norm_cast at hm ⊢
    omega
  · have : x * n ≤ 0 := Int.mul_nonpos_of_nonpos_of_nonneg hx.le hn
    rw [Int.toNat_of_nonpos hx.le]
    omega

theorem mul_eq_ok (h : mul a p = .ok r) :
    (a.assetId = p.base.assetId ∧ convert a p.base p.quote 0 = .ok r) ∨
      (a.assetId ≠ p.base.assetId ∧ a.assetId = p.quote.assetId ∧ convert a p.quote p.base 0 = .ok r) := by
  unfold mul at h
  split at h
  · rename_i hbase
    exact .inl ⟨hbase, h⟩
  · rename_i hbase
    split at h
    · rename_i hquote
      exact .inr ⟨hbase, hquote, h⟩
    · exact (throw_ne_ok.mp h).elim

theorem multiplyAndRoundUp_eq_ok (h : multiplyAndRoundUp a p = .ok r) :
    (a.assetId = p.base.assetId ∧ convert a p.base p.quote (p.base.amount.toNat - 1) = .ok r) ∨
      (a.assetId ≠ p.base.assetId ∧ a.assetId = p.quote.assetId ∧
        convert a p.quote p.base (p.quote.amount.toNat - 1) = .ok r) := by
  unfold multiplyAndRoundUp at h
  split at h
  · rename_i hbase
    exact .inl ⟨hbase, h⟩
  · rename_i hbase
    split at h
    · rename_i hquote
      exact .inr ⟨hbase, hquote, h⟩
    · exact (throw_ne_ok.mp h).elim

theorem mul_nonneg (h : mul a p = .ok r) : 0 ≤ r.amount := by
  rcases mul_eq_ok h with ⟨-, h⟩ | ⟨-, -, h⟩
  · exact convert_nonneg h
  · exact convert_nonneg h

theorem multiplyAndRoundUp_nonneg (h : multiplyAndRoundUp a p = .ok r) : 0 ≤ r.amount := by
  rcases multiplyAndRoundUp_eq_ok h with ⟨-, h⟩ | ⟨-, -, h⟩
  · exact convert_nonneg h
  · exact convert_nonneg h

/-- An amount that is converted, rounded down, and converted back, rounded up, does not grow. -/
theorem roundTrip_le {x m n : Nat} : (x * n / m * m + (n - 1)) / n ≤ x := by
  rcases Nat.eq_zero_or_pos n with rfl | hn
  · simp
  · have hdown : x * n / m * m ≤ x * n := Nat.div_mul_le_self _ _
    rw [← Nat.lt_succ_iff, Nat.div_lt_iff_lt_mul hn, Nat.succ_mul]
    omega

/-- The same of amounts and a price between two assets -/
theorem mul_roundUp_le (hp : p.base.assetId ≠ p.quote.assetId) (hb : mul a p = .ok b) (hc : multiplyAndRoundUp b p = .ok c) :
    c.assetId = a.assetId ∧ c.amount ≤ a.amount.toNat := by
  rcases mul_eq_ok hb with ⟨ha, hb⟩ | ⟨ha, ha', hb⟩
  · obtain ⟨hpos, hasset, hamount⟩ := convert_eq_ok hb
    rcases multiplyAndRoundUp_eq_ok hc with ⟨hid, -⟩ | ⟨-, -, hc⟩
    · exact absurd (hid.symm.trans hasset) hp
    · obtain ⟨-, hasset', hamount'⟩ := convert_eq_ok hc
      refine ⟨hasset'.trans ha.symm, ?_⟩
      rw [hamount', hamount, Int.toNat_natCast, Nat.add_zero]
      exact_mod_cast roundTrip_le
  · obtain ⟨hpos, hasset, hamount⟩ := convert_eq_ok hb
    rcases multiplyAndRoundUp_eq_ok hc with ⟨-, hc⟩ | ⟨hid, -, -⟩
    · obtain ⟨-, hasset', hamount'⟩ := convert_eq_ok hc
      refine ⟨hasset'.trans ha'.symm, ?_⟩
      rw [hamount', hamount, Int.toNat_natCast, Nat.add_zero]
      exact_mod_cast roundTrip_le
    · exact absurd hasset hid

theorem mul_div_le_of_le {x y m n : Nat} (hy : y ≤ x * n / m) : y * m / n ≤ x := by
  have hdown : x * n / m * m ≤ x * n := Nat.div_mul_le_self _ _
  have hym : y * m ≤ x * n := (Nat.mul_le_mul_right m hy).trans hdown
  exact Nat.div_le_of_le_mul (by rwa [Nat.mul_comm n x])

/-- An amount below what another one is worth is worth at most that other one. -/
theorem mul_le_of_le_mul (hp : p.base.assetId ≠ p.quote.assetId) (hb : mul a p = .ok b) (hc : mul c p = .ok r)
    (hasset : c.assetId = b.assetId) (hle : c.amount ≤ b.amount) : r.assetId = a.assetId ∧ r.amount ≤ a.amount.toNat := by
  rcases mul_eq_ok hb with ⟨ha, hb⟩ | ⟨ha, ha', hb⟩
  · obtain ⟨-, hb₁, hb₂⟩ := convert_eq_ok hb
    rcases mul_eq_ok hc with ⟨hid, -⟩ | ⟨-, -, hc⟩
    · exact absurd (hid.symm.trans (hasset.trans hb₁)) hp
    · obtain ⟨hpos, hc₁, hc₂⟩ := convert_eq_ok hc
      refine ⟨hc₁.trans ha.symm, ?_⟩
      rw [hc₂, Nat.add_zero]
      rw [hb₂, Nat.add_zero] at hle
      exact_mod_cast mul_div_le_of_le (Int.toNat_le.mpr hle)
  · obtain ⟨-, hb₁, hb₂⟩ := convert_eq_ok hb
    rcases mul_eq_ok hc with ⟨-, hc⟩ | ⟨hid, -, -⟩
    · obtain ⟨hpos, hc₁, hc₂⟩ := convert_eq_ok hc
      refine ⟨hc₁.trans ha'.symm, ?_⟩
      rw [hc₂, Nat.add_zero]
      rw [hb₂, Nat.add_zero] at hle
      exact_mod_cast mul_div_le_of_le (Int.toNat_le.mpr hle)
    · exact absurd (hasset.trans hb₁) hid

/-! ### Amounts at a settlement price -/

/-- What an amount of the debt is worth at a settlement price, rounded down -/
theorem mul_of_base (h : mul a p = .ok r) (ha : a.assetId = p.base.assetId) (hpos : 0 ≤ a.amount)
    (hquote : 0 ≤ p.quote.amount) : r.assetId = p.quote.assetId ∧ 0 ≤ r.amount ∧ r.amount * p.base.amount ≤ a.amount * p.quote.amount ∧
      a.amount * p.quote.amount < (r.amount + 1) * p.base.amount := by
  rcases mul_eq_ok h with ⟨-, h⟩ | ⟨hne, -, -⟩
  · obtain ⟨hbase, hasset, hamount⟩ := convert_eq_ok h
    refine ⟨hasset, hamount ▸ Int.natCast_nonneg _, ?_⟩
    rw [hamount, Nat.add_zero]
    have ha' : (a.amount.toNat : Int) = a.amount := Int.toNat_of_nonneg hpos
    have hq' : (p.quote.amount.toNat : Int) = p.quote.amount := Int.toNat_of_nonneg hquote
    have hb' : (p.base.amount.toNat : Int) = p.base.amount := Int.toNat_of_nonneg hbase.le
    have hdown := Nat.div_mul_le_self (a.amount.toNat * p.quote.amount.toNat) p.base.amount.toNat
    have hup := Nat.lt_div_mul_add (a := a.amount.toNat * p.quote.amount.toNat) (b := p.base.amount.toNat) (by omega)
    rw [← ha', ← hq', ← hb']
    refine ⟨by exact_mod_cast hdown, ?_⟩
    rw [add_mul, one_mul]
    exact_mod_cast hup
  · exact absurd ha hne

/-- A price converts both ways. -/
theorem mul_inv (hassets : p.base.assetId ≠ p.quote.assetId) : mul a p.inv = mul a p := by
  change (if a.assetId = p.quote.assetId then convert a p.quote p.base 0 else if a.assetId = p.base.assetId then
    convert a p.base p.quote 0 else throw .invalidAssetTimesPrice) = mul a p
  unfold mul
  by_cases hb : a.assetId = p.base.assetId
  · rw [if_neg fun hq => hassets (hb.symm.trans hq), if_pos hb, if_pos hb]
  · rw [if_neg hb, if_neg hb]

/-- What an amount of the backing asset is worth at a settlement price, rounded down -/
theorem mul_of_quote (h : mul a p = .ok r) (ha : a.assetId = p.quote.assetId) (hassets : p.base.assetId ≠ p.quote.assetId)
    (hpos : 0 ≤ a.amount) (hbase : 0 ≤ p.base.amount) : r.assetId = p.base.assetId ∧ 0 ≤ r.amount ∧
      r.amount * p.quote.amount ≤ a.amount * p.base.amount ∧ a.amount * p.base.amount < (r.amount + 1) * p.quote.amount :=
  mul_of_base (p := p.inv) ((mul_inv hassets).trans h) ha hpos hbase

/-- Something costs something. -/
theorem roundUp_pos (h : multiplyAndRoundUp a p = .ok r) (ha : 0 < a.amount) (hbase : 0 < p.base.amount) (hquote : 0 < p.quote.amount) :
    0 < r.amount := by
  have hsome : ∀ per out : Asset, 0 < out.amount → convert a per out (per.amount.toNat - 1) = .ok r → 0 < r.amount := by
    intro per out hout h
    obtain ⟨hpos, -, hamount⟩ := convert_eq_ok h
    have hproduct : 0 < a.amount.toNat * out.amount.toNat := Nat.mul_pos (by omega) (by omega)
    rw [hamount, Int.natCast_pos]
    exact Nat.div_pos (by omega) (by omega)
  rcases multiplyAndRoundUp_eq_ok h with ⟨-, h⟩ | ⟨-, -, h⟩
  · exact hsome _ _ hquote h
  · exact hsome _ _ hbase h

/-- Nothing costs nothing. -/
theorem roundUp_of_zero (h : multiplyAndRoundUp a p = .ok r) (ha : a.amount = 0) : r.amount = 0 := by
  have hnone : ∀ per out : Asset, convert a per out (per.amount.toNat - 1) = .ok r → r.amount = 0 := by
    intro per out h
    obtain ⟨hpos, -, hamount⟩ := convert_eq_ok h
    rw [hamount, ha, Int.toNat_zero, Nat.zero_mul, Nat.zero_add, Nat.div_eq_of_lt (by omega), Nat.cast_zero]
  rcases multiplyAndRoundUp_eq_ok h with ⟨-, h⟩ | ⟨-, -, h⟩
  · exact hnone _ _ h
  · exact hnone _ _ h

/-- What an amount of the backing asset costs at a settlement price, rounded up -/
theorem roundUp_of_quote (h : multiplyAndRoundUp a p = .ok r) (ha : a.assetId = p.quote.assetId)
    (hassets : p.base.assetId ≠ p.quote.assetId) (hpos : 0 ≤ a.amount) (hbase : 0 ≤ p.base.amount) :
    r.assetId = p.base.assetId ∧ a.amount * p.base.amount ≤ r.amount * p.quote.amount := by
  rcases multiplyAndRoundUp_eq_ok h with ⟨heq, -⟩ | ⟨-, -, h⟩
  · exact absurd (heq.symm.trans ha) hassets
  · obtain ⟨hquote, hasset, hamount⟩ := convert_eq_ok h
    refine ⟨hasset, ?_⟩
    have ha' : (a.amount.toNat : Int) = a.amount := Int.toNat_of_nonneg hpos
    have hq' : (p.quote.amount.toNat : Int) = p.quote.amount := Int.toNat_of_nonneg hquote.le
    have hb' : (p.base.amount.toNat : Int) = p.base.amount := Int.toNat_of_nonneg hbase
    have hup := Nat.lt_div_mul_add (a := a.amount.toNat * p.base.amount.toNat + (p.quote.amount.toNat - 1))
      (b := p.quote.amount.toNat) (by omega)
    rw [hamount, ← ha', ← hq', ← hb']
    have : a.amount.toNat * p.base.amount.toNat ≤
        (a.amount.toNat * p.base.amount.toNat + (p.quote.amount.toNat - 1)) / p.quote.amount.toNat * p.quote.amount.toNat := by
      omega
    exact_mod_cast this

end Khc.Market
