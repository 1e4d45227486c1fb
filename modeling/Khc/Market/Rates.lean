import Khc.Market.Price
import Mathlib.Algebra.Order.Field.Rat
import Mathlib.Data.Prod.Lex
import Mathlib.Tactic.FieldSimp
import Mathlib.Tactic.Positivity

/-! Prices as rates. Within a market, prices compare as the rates do; over all markets they compare by a key. -/

namespace Khc

namespace Chain.Price

/-- How much of the base is asked for one of the quote -/
def rate (p : Price) : ℚ := p.base.amount / p.quote.amount

/-- By the assets, then by the rate -/
def key (p : Price) : ℕ ×ₗ ℕ ×ₗ ℚ := toLex (p.base.assetId, toLex (p.quote.assetId, p.rate))

variable {p q : Price}

theorem Valid.rate_pos (hp : p.Valid) : 0 < p.rate := by
  have hb : (0 : ℚ) < p.base.amount := by exact_mod_cast hp.base_pos
  have hq : (0 : ℚ) < p.quote.amount := by exact_mod_cast hp.quote_pos
  exact div_pos hb hq

theorem Valid.inv (hp : p.Valid) : p.inv.Valid := ⟨hp.quote_pos, hp.base_pos, hp.assets.symm⟩

@[simp] theorem rate_inv : p.inv.rate = p.rate⁻¹ := (inv_div _ _).symm

theorem Valid.products_lt (hp : p.Valid) (hq : q.Valid) :
    q.quote.amount * p.base.amount < p.quote.amount * q.base.amount ↔ p.rate < q.rate := by
  have hp' : (0 : ℚ) < p.quote.amount := by exact_mod_cast hp.quote_pos
  have hq' : (0 : ℚ) < q.quote.amount := by exact_mod_cast hq.quote_pos
  rw [rate, rate, div_lt_div_iff₀ hp' hq', mul_comm, mul_comm p.quote.amount]
  exact_mod_cast Iff.rfl

theorem Valid.products_eq (hp : p.Valid) (hq : q.Valid) :
    q.quote.amount * p.base.amount = p.quote.amount * q.base.amount ↔ p.rate = q.rate := by
  have hp' : (p.quote.amount : ℚ) ≠ 0 := by exact_mod_cast hp.quote_pos.ne'
  have hq' : (q.quote.amount : ℚ) ≠ 0 := by exact_mod_cast hq.quote_pos.ne'
  rw [rate, rate, div_eq_div_iff hp' hq', mul_comm, mul_comm p.quote.amount]
  exact_mod_cast Iff.rfl

theorem lt_iff (hp : p.Valid) (hq : q.Valid) : p.lt q ↔ p.key < q.key := by
  simp only [key, Prod.Lex.toLex_lt_toLex]
  by_cases hbase : p.base.assetId = q.base.assetId
  · by_cases hquote : p.quote.assetId = q.quote.assetId
    · simpa [Price.lt, hbase, hquote] using hp.products_lt hq
    · simp [Price.lt, hbase, hquote]
  · simp [Price.lt, hbase]

theorem same_iff (hp : p.Valid) (hq : q.Valid) : p.same q ↔ p.key = q.key := by
  simp only [key, Price.same, Bool.and_eq_true, beq_iff_eq, hp.products_eq hq, EmbeddingLike.apply_eq_iff_eq,
    Prod.mk.injEq, and_assoc]

theorem le_iff (hp : p.Valid) (hq : q.Valid) : p.le q ↔ p.key ≤ q.key := by
  rw [Price.le, Bool.or_eq_true, same_iff hp hq, lt_iff hp hq, le_iff_eq_or_lt]

theorem gt_iff (hp : p.Valid) (hq : q.Valid) : p.gt q ↔ q.key < p.key := by
  rw [Price.gt, Bool.not_eq_true', ← Bool.not_eq_true, le_iff hp hq, not_le]

/-! ### Prices of one market -/

theorem key_le_iff (hb : p.base.assetId = q.base.assetId) (hq : p.quote.assetId = q.quote.assetId) :
    p.key ≤ q.key ↔ p.rate ≤ q.rate := by
  simp [key, Prod.Lex.toLex_le_toLex, hb, hq]

theorem key_lt_iff (hb : p.base.assetId = q.base.assetId) (hq : p.quote.assetId = q.quote.assetId) :
    p.key < q.key ↔ p.rate < q.rate := by
  simp [key, Prod.Lex.toLex_lt_toLex, hb, hq]

/-- A price between two prices of a market is of the market. -/
theorem assets_of_key_between {r : Price} (hb : p.base.assetId = r.base.assetId)
    (hq : p.quote.assetId = r.quote.assetId) (h₁ : p.key ≤ q.key) (h₂ : q.key ≤ r.key) :
    q.base.assetId = p.base.assetId ∧ q.quote.assetId = p.quote.assetId := by
  have hbase : q.base.assetId = p.base.assetId :=
    le_antisymm (hb ▸ Prod.Lex.monotone_fst _ _ h₂) (Prod.Lex.monotone_fst _ _ h₁)
  simp only [key, Prod.Lex.toLex_le_toLex, ← hb, ← hq, hbase, lt_irrefl, false_or, true_and] at h₁ h₂
  rcases h₁ with h₁ | ⟨h₁, -⟩ <;> rcases h₂ with h₂ | ⟨h₂, -⟩
  · exact absurd h₁ h₂.asymm
  · exact ⟨hbase, h₂⟩
  · exact ⟨hbase, h₁.symm⟩
  · exact ⟨hbase, h₂⟩

/-- Of two prices of a market the other way round, one is above the other if that is above the one. -/
theorem gt_inv_iff (hp : p.Valid) (hq : q.Valid) (hb : p.base.assetId = q.quote.assetId) (hq' : p.quote.assetId = q.base.assetId) :
    p.gt q.inv ↔ q.gt p.inv := by
  rw [gt_iff hp hq.inv, gt_iff hq hp.inv, key_lt_iff (p := q.inv) hb.symm hq'.symm, key_lt_iff (p := p.inv) hq' hb, rate_inv,
    rate_inv, inv_lt_comm₀ hq.rate_pos hp.rate_pos]

/-! ### The greatest and the least price -/

/-- A price between `price::min` and `price::max` -/
structure InRange (p : Price) : Prop where
  valid : p.Valid
  base_le : p.base.amount ≤ Chain.maxShareSupply
  quote_le : p.quote.amount ≤ Chain.maxShareSupply

variable {base quote : Chain.AssetId}

theorem maxShareSupply_pos : 0 < Chain.maxShareSupply := by decide

theorem max_valid (h : base ≠ quote) : (Price.max base quote).Valid := ⟨maxShareSupply_pos, Int.one_pos, h⟩

theorem min_valid (h : base ≠ quote) : (Price.min base quote).Valid := ⟨Int.one_pos, maxShareSupply_pos, h⟩

theorem rate_max : (Price.max base quote).rate = Chain.maxShareSupply := by simp [Price.max, rate]

theorem rate_min : (Price.min base quote).rate = (Chain.maxShareSupply : ℚ)⁻¹ := by simp [Price.min, rate]

theorem InRange.min_le (h : p.InRange) : (Price.min p.base.assetId p.quote.assetId).key ≤ p.key := by
  refine (key_le_iff (p := Price.min _ _) (q := p) rfl rfl).mpr ?_
  rw [rate_min, rate, inv_eq_one_div]
  have hquote : (0 : ℚ) < p.quote.amount := by exact_mod_cast h.valid.quote_pos
  rw [div_le_div_iff₀ (by exact_mod_cast maxShareSupply_pos) hquote]
  have : 1 * p.quote.amount ≤ p.base.amount * Chain.maxShareSupply := by
    have := h.quote_le
    have := Int.mul_le_mul_of_nonneg_right (Int.add_one_le_of_lt h.valid.base_pos) maxShareSupply_pos.le
    omega
  exact_mod_cast this

theorem InRange.le_max (h : p.InRange) : p.key ≤ (Price.max p.base.assetId p.quote.assetId).key := by
  refine (key_le_iff (p := p) (q := Price.max _ _) rfl rfl).mpr ?_
  rw [rate_max, rate]
  have hquote : (0 : ℚ) < p.quote.amount := by exact_mod_cast h.valid.quote_pos
  rw [div_le_iff₀ hquote]
  have : p.base.amount ≤ Chain.maxShareSupply * p.quote.amount := by
    have := h.base_le
    have := Int.mul_le_mul_of_nonneg_left (Int.add_one_le_of_lt h.valid.quote_pos) maxShareSupply_pos.le
    omega
  exact_mod_cast this

end Chain.Price

/-! ### Margin prices -/

namespace Market

open Lib
open Chain (Asset Price maxShareSupply)

/-- What is left of a ratio when both parts are halved until they are small enough -/
theorem shrink_bounded {half : Int → Int} (hhalf : ∀ n, 0 < n → 0 < half n) {n : Nat} {cp r : ℚ}
    (h : shrink half n cp = .ok r) (hcp : 0 < cp) : 0 < r ∧ r.num ≤ maxShareSupply ∧ (r.den : Int) ≤ maxShareSupply := by
  induction n generalizing cp with
  | zero => exact (throw_ne_ok.mp h).elim
  | succ n ih =>
    rw [shrink] at h
    split at h
    · refine ih h ?_
      have hnum : (0 : ℚ) < half cp.num := by exact_mod_cast hhalf _ (Rat.num_pos.mpr hcp)
      have hden : (0 : ℚ) < half cp.den := by exact_mod_cast hhalf _ (Int.natCast_pos.mpr cp.den_pos)
      exact div_pos hnum hden
    · rename_i hsmall
      obtain rfl := Except.ok.inj h
      rw [not_or, not_lt, not_lt] at hsmall
      exact ⟨hcp, hsmall⟩

variable {debt collateral : Asset} {ratio : Nat} {p : Price}

theorem callPrice_assets (h : callPrice debt collateral ratio = .ok p) :
    p.base.assetId = collateral.assetId ∧ p.quote.assetId = debt.assetId ∧ collateral.amount ≠ 0 := by
  simp only [callPrice, mkPrice, bind_eq_ok, fcAssert_eq_ok, pure_eq_ok] at h
  obtain ⟨-, hne, cp, -, _, ⟨-, -, rfl⟩, rfl⟩ := h
  exact ⟨rfl, rfl, hne⟩

/-- The call price of an order that owes something and is secured lies between `price::min` and `price::max`. -/
theorem callPrice_bounded (h : callPrice debt collateral ratio = .ok p) (hdebt : 0 < debt.amount)
    (hcollateral : 0 < collateral.amount) (hratio : 0 < ratio) : p.InRange := by
  simp only [callPrice, mkPrice, bind_eq_ok, fcAssert_eq_ok, pure_eq_ok] at h
  obtain ⟨-, -, cp, hcp, _, ⟨-, hassets, rfl⟩, rfl⟩ := h
  have hdebt' : (0 : ℚ) < debt.amount := by exact_mod_cast hdebt
  have hcollateral' : (0 : ℚ) < collateral.amount := by exact_mod_cast hcollateral
  have hratio' : (0 : ℚ) < ratio := by exact_mod_cast hratio
  have hdenom : (0 : ℚ) < collateralRatioDenom := by norm_num [collateralRatioDenom]
  obtain ⟨hpos, hnum, hden⟩ := shrink_bounded (fun n hn => by omega) hcp (by positivity)
  exact ⟨⟨Int.natCast_pos.mpr cp.den_pos, Rat.num_pos.mpr hpos, hassets.symm⟩, hden, hnum⟩

/-! ### Feeds -/

variable {f : PriceFeed} {a : Chain.AssetId}

theorem PriceFeed.IsMedianFor.ratio_pos (h : f.IsMedianFor a) : 0 < f.maintenanceCollateralRatio := by
  rcases h with rfl | ⟨-, -, h, -⟩
  · decide
  · exact lt_of_lt_of_le (by decide) h

/-- The ratios of a median fit into `uint16_t`. -/
theorem PriceFeed.IsMedianFor.ratio_lt (h : f.IsMedianFor a) : f.maintenanceCollateralRatio < 2 ^ 16 := by
  rcases h with rfl | ⟨-, -, -, h, -⟩
  · decide
  · exact lt_of_le_of_lt h (by decide)

theorem PriceFeed.IsMedianFor.squeezeRatio_lt (h : f.IsMedianFor a) : f.maximumShortSqueezeRatio < 2 ^ 16 := by
  rcases h with rfl | ⟨-, -, -, -, -, h⟩
  · decide
  · exact lt_of_le_of_lt h (by decide)

/-- A median that is not null is a price of the asset. -/
theorem PriceFeed.IsMedianFor.valid (h : f.IsMedianFor a) (hnull : ¬f.settlementPrice.isNull) :
    f.settlementPrice.Valid ∧ f.settlementPrice.base.assetId = a ∧ 0 < f.maximumShortSqueezeRatio := by
  rcases h with rfl | ⟨hvalid, hbase, -, -, h, -⟩
  · exact absurd rfl hnull
  · exact ⟨hvalid, hbase, lt_of_lt_of_le (by decide) h⟩

theorem PriceFeed.maxShortSqueezePrice_assets (h : f.maxShortSqueezePrice = .ok p) :
    p.base.assetId = f.settlementPrice.base.assetId ∧ p.quote.assetId = f.settlementPrice.quote.assetId := by
  simp only [maxShortSqueezePrice, mkPrice, bind_eq_ok, fcAssert_eq_ok, pure_eq_ok] at h
  obtain ⟨-, -, cp, -, -, -, rfl⟩ := h
  exact ⟨rfl, rfl⟩

/-- The price of a margin call lies between `price::min` and `price::max` as well. -/
theorem PriceFeed.maxShortSqueezePrice_bounded (h : f.maxShortSqueezePrice = .ok p) (hf : f.settlementPrice.Valid)
    (hratio : 0 < f.maximumShortSqueezeRatio) : p.InRange := by
  simp only [maxShortSqueezePrice, mkPrice, bind_eq_ok, fcAssert_eq_ok, pure_eq_ok] at h
  obtain ⟨-, -, cp, hcp, -, hassets, rfl⟩ := h
  have hbase : (0 : ℚ) < f.settlementPrice.base.amount := by exact_mod_cast hf.base_pos
  have hquote : (0 : ℚ) < f.settlementPrice.quote.amount := by exact_mod_cast hf.quote_pos
  have hratio' : (0 : ℚ) < f.maximumShortSqueezeRatio := by exact_mod_cast hratio
  have hdenom : (0 : ℚ) < collateralRatioDenom := by norm_num [collateralRatioDenom]
  obtain ⟨hpos, hnum, hden⟩ := shrink_bounded (fun n hn => by omega) hcp (by positivity)
  exact ⟨⟨Rat.num_pos.mpr hpos, Int.natCast_pos.mpr cp.den_pos, hassets⟩, hnum, hden⟩

theorem PriceFeed.maxShortSqueezePrice_valid (h : f.maxShortSqueezePrice = .ok p) (hf : f.settlementPrice.Valid)
    (hratio : 0 < f.maximumShortSqueezeRatio) : p.Valid := (maxShortSqueezePrice_bounded h hf hratio).valid

end Market

end Khc
