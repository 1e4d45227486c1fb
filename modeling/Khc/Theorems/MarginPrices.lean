import Khc.Market.Halting
import Khc.Theorems.MarginTarget
import Mathlib.Tactic.NormNum

/-! Call prices keep the order of the positions up to the error of their rounding. -/

namespace Khc.Market

open Lib
open Chain (Asset Price AssetId maxShareSupply)

/-! ### The rounding -/

variable {half : Int → Int} {k n : Nat} {cp q : ℚ}

/-- Half of a number, with a remainder or one more -/
def Halves (half : Int → Int) : Prop := ∀ n, 0 < n → n ≤ 2 * half n ∧ 2 * half n ≤ n + 2

/-- A ratio that fits is not rounded. -/
theorem shrink_fits (hnum : cp.num ≤ maxShareSupply) (hden : (cp.den : Int) ≤ maxShareSupply) :
    shrink half (n + 1) cp = .ok cp := by
  rw [shrink, if_neg (by omega)]

/-- A round raises one more than the ratio by few parts of the greatest share supply. -/
theorem halve_rounded {m n m' n' : Int} (hm : 0 < m) (hn : 0 < n) (hm' : 0 ≤ m') (hn' : 0 < n') (hm₂ : 2 * m' ≤ m + 2) (hn₂ : n ≤ 2 * n')
    (hlarge : m > maxShareSupply ∨ n > maxShareSupply) : 1 + (m' / n' : ℚ) ≤ (1 + m / n) * (1 + 2 / maxShareSupply) := by
  have hle : m' * n ≤ (m + 2) * n' :=
    calc m' * n ≤ m' * (2 * n') := Int.mul_le_mul_of_nonneg_left hn₂ hm'
      _ = 2 * m' * n' := by ring
      _ ≤ (m + 2) * n' := Int.mul_le_mul_of_nonneg_right hm₂ hn'.le
  have hmQ : (0 : ℚ) < m := by exact_mod_cast hm
  have hnQ : (0 : ℚ) < n := by exact_mod_cast hn
  have hnQ' : (0 : ℚ) < n' := by exact_mod_cast hn'
  have hmax : (0 : ℚ) < maxShareSupply := by exact_mod_cast Price.maxShareSupply_pos
  have hsum : (maxShareSupply : ℚ) ≤ m + n := by exact_mod_cast (by omega : maxShareSupply ≤ m + n)
  calc 1 + (m' / n' : ℚ) ≤ 1 + (m + 2) / n := by
        gcongr 1 + ?_
        rw [div_le_div_iff₀ hnQ' hnQ]
        exact_mod_cast hle
    _ = (1 + m / n) * (1 + 2 / (m + n)) := by
        field_simp
        ring
    _ ≤ (1 + m / n) * (1 + 2 / maxShareSupply) := by gcongr

/-- A ratio after up to `k` rounds -/
structure Rounded (k : Nat) (cp q : ℚ) : Prop where
  above : 1 + q ≤ (1 + cp) * (1 + 2 / maxShareSupply) ^ k
  below : 1 + q⁻¹ ≤ (1 + cp⁻¹) * (1 + 2 / maxShareSupply) ^ k

theorem error_nonneg : (0 : ℚ) ≤ 1 + 2 / maxShareSupply := by
  have hmax : (0 : ℚ) < maxShareSupply := by exact_mod_cast Price.maxShareSupply_pos
  positivity

theorem Rounded.step {r : ℚ} (h : Rounded k r q) (h₁ : Rounded 1 cp r) : Rounded (k + 1) cp q := by
  have hpow : (0 : ℚ) ≤ (1 + 2 / maxShareSupply) ^ k := pow_nonneg error_nonneg k
  refine ⟨h.above.trans ?_, h.below.trans ?_⟩
  · rw [pow_succ', ← mul_assoc]
    have := h₁.above
    rw [pow_one] at this
    gcongr
  · rw [pow_succ', ← mul_assoc]
    have := h₁.below
    rw [pow_one] at this
    gcongr

/-- Each round halves both parts, so that there are few of them. -/
theorem shrink_rounded (hhalf : Halves half) (h : shrink half n cp = .ok q) (hpos : 0 < cp)
    (hnum : cp.num ≤ 2 ^ k * (maxShareSupply - 2) + 2) (hden : (cp.den : Int) ≤ 2 ^ k * (maxShareSupply - 2) + 2) : Rounded k cp q := by
  induction k generalizing n cp with
  | zero =>
    cases n with
    | zero => cases h
    | succ n =>
      rw [shrink_fits (by omega) (by omega)] at h
      obtain rfl := Except.ok.inj h
      constructor <;> simp
  | succ k ih =>
    cases n with
    | zero => cases h
    | succ n =>
      rw [shrink] at h
      split at h
      · rename_i hlarge
        have hn₀ : 0 < cp.num := Rat.num_pos.mpr hpos
        have hd₀ : (0 : Int) < cp.den := Int.natCast_pos.mpr cp.den_pos
        obtain ⟨hn₁, hn₂⟩ := hhalf cp.num hn₀
        obtain ⟨hd₁, hd₂⟩ := hhalf cp.den hd₀
        have hn' : 0 < half cp.num := by omega
        have hd' : 0 < half cp.den := by omega
        have hpos' : (0 : ℚ) < half cp.num / half cp.den := div_pos (by exact_mod_cast hn') (by exact_mod_cast hd')
        have hcp : (cp.num / (cp.den : Int) : ℚ) = cp := Rat.num_div_den cp
        have hround : Rounded 1 cp (half cp.num / half cp.den) := by
          have habove := halve_rounded hn₀ hd₀ hn'.le hd' hn₂ hd₁ hlarge
          have hbelow := halve_rounded hd₀ hn₀ hd'.le hn' hd₂ hn₁ hlarge.symm
          rw [hcp] at habove
          rw [← inv_div, ← inv_div (cp.num : ℚ), hcp] at hbelow
          constructor
          · rwa [pow_one]
          · rwa [pow_one]
        obtain ⟨hnum', hden'⟩ := num_le_of_div hn' hd'
        have hpow : (2 : Int) ^ (k + 1) * (maxShareSupply - 2) = 2 * (2 ^ k * (maxShareSupply - 2)) := by ring
        exact (ih h hpos' (by omega) (by omega)).step hround
      · obtain rfl := Except.ok.inj h
        have hone : (1 : ℚ) ≤ (1 + 2 / maxShareSupply) ^ (k + 1) := one_le_pow₀ (by
          have hmax : (0 : ℚ) < maxShareSupply := by exact_mod_cast Price.maxShareSupply_pos
          rw [le_add_iff_nonneg_right]
          positivity)
        constructor
        · exact le_mul_of_one_le_right (by positivity) hone
        · exact le_mul_of_one_le_right (by positivity) hone

/-! ### The prices -/

/-- Amounts of two assets, and a ratio that is accepted for feeds -/
structure Margined (debt collateral : Asset) (ratio : Nat) : Prop where
  debt_pos : 0 < debt.amount
  debt_le : debt.amount ≤ maxShareSupply
  collateral_pos : 0 < collateral.amount
  collateral_le : collateral.amount ≤ maxShareSupply
  assets : debt.assetId ≠ collateral.assetId
  ratio_ge : minCollateralRatio ≤ ratio
  ratio_le : ratio ≤ maxCollateralRatio

/-- How much debt there is for one of the collateral that is left after the division by the ratio -/
def exactRate (debt collateral : Asset) (ratio : Nat) : ℚ :=
  debt.amount / collateral.amount * (ratio / collateralRatioDenom)

/-- The exact rate needs no rounding. -/
def Fits (r : ℚ) : Prop := r.num ≤ maxShareSupply ∧ (r.den : Int) ≤ maxShareSupply

instance (r : ℚ) : Decidable (Fits r) := inferInstanceAs (Decidable (_ ∧ _))

/-- The error of a rate by its rounding -/
def slack (r : ℚ) : ℚ := 31 * (1 + r) / maxShareSupply

variable {debt collateral debt' collateral' : Asset} {ratio ratio' : Nat} {p p' : Price} {f : PriceFeed}

namespace Margined

theorem ratio_pos (h : Margined debt collateral ratio) : 0 < ratio := lt_of_lt_of_le (by decide) h.ratio_ge

theorem exactRate_eq : exactRate debt collateral ratio =
    (debt.amount * ratio : Int) / (collateral.amount * collateralRatioDenom : Int) := by
  push_cast
  exact div_mul_div_comm _ _ _ _

theorem products_pos (h : Margined debt collateral ratio) :
    0 < debt.amount * ratio ∧ 0 < collateral.amount * collateralRatioDenom :=
  ⟨Int.mul_pos h.debt_pos (Int.natCast_pos.mpr h.ratio_pos), Int.mul_pos h.collateral_pos (by decide)⟩

theorem exactRate_pos (h : Margined debt collateral ratio) : 0 < exactRate debt collateral ratio := by
  obtain ⟨hn, hd⟩ := h.products_pos
  rw [exactRate_eq]
  exact div_pos (by exact_mod_cast hn) (by exact_mod_cast hd)

theorem callPrice_total (h : Margined debt collateral ratio) : ∃ p, callPrice debt collateral ratio = .ok p := by
  have hmax : maxShareSupply < 2 ^ 63 := by decide
  have hratio : ratio < 2 ^ 16 := lt_of_le_of_lt h.ratio_le (by decide)
  have hhalts := halts_callPrice h.debt_pos.le (h.debt_le.trans_lt hmax) h.collateral_pos.le (h.collateral_le.trans_lt hmax) hratio
  exact hhalts.total (callPrice_only h.collateral_pos.ne' h.assets)

/-- A call price is the rounded rate the other way round. -/
theorem rate_callPrice (h : callPrice debt collateral ratio = .ok p) :
    shrink (fun n => n / 2 + 1) 128 (exactRate debt collateral ratio) = .ok p.rate⁻¹ := by
  simp only [callPrice, mkPrice, bind_eq_ok, fcAssert_eq_ok, pure_eq_ok] at h
  obtain ⟨-, -, cp, hcp, _, ⟨-, -, rfl⟩, rfl⟩ := h
  rw [Price.rate_inv, inv_inv, exactRate, hcp]
  exact congrArg Except.ok (Rat.num_div_den cp).symm

/-- A call price that needs no rounding is exact. -/
theorem rate_of_fits (h : callPrice debt collateral ratio = .ok p) (hfits : Fits (exactRate debt collateral ratio)) :
    p.rate⁻¹ = exactRate debt collateral ratio := by
  have hshrink := rate_callPrice h
  rw [shrink_fits hfits.1 hfits.2] at hshrink
  exact (Except.ok.inj hshrink).symm

/-- Fifteen rounds are enough for any ratio. -/
theorem rounded (h : Margined debt collateral ratio) (hp : callPrice debt collateral ratio = .ok p) :
    Rounded 15 (exactRate debt collateral ratio) p.rate⁻¹ := by
  obtain ⟨hn, hd⟩ := h.products_pos
  obtain ⟨hnum, hden⟩ := num_le_of_div hn hd
  rw [← exactRate_eq] at hnum hden
  have hratio : (ratio : Int) ≤ maxCollateralRatio := by exact_mod_cast h.ratio_le
  refine shrink_rounded (fun n hn => by omega) (rate_callPrice hp) h.exactRate_pos (hnum.trans ?_) (hden.trans ?_)
  · calc debt.amount * ratio ≤ maxShareSupply * maxCollateralRatio :=
          Int.mul_le_mul h.debt_le hratio (Int.natCast_nonneg _) Price.maxShareSupply_pos.le
      _ ≤ 2 ^ 15 * (maxShareSupply - 2) + 2 := by decide
  · calc collateral.amount * collateralRatioDenom ≤ maxShareSupply * collateralRatioDenom :=
          Int.mul_le_mul_of_nonneg_right h.collateral_le (by decide)
      _ ≤ 2 ^ 15 * (maxShareSupply - 2) + 2 := by decide

theorem rounds_le : (1 + 2 / maxShareSupply : ℚ) ^ 15 ≤ 1 + 31 / maxShareSupply := by
  rw [maxShareSupply]
  norm_num

/-- The rounded rate lies about the exact one. -/
theorem rate_bounds (h : Margined debt collateral ratio) (hp : callPrice debt collateral ratio = .ok p) :
    exactRate debt collateral ratio / (1 + slack (exactRate debt collateral ratio)) ≤ p.rate⁻¹ ∧
      p.rate⁻¹ ≤ exactRate debt collateral ratio + slack (exactRate debt collateral ratio) := by
  have hrounded := h.rounded hp
  have hrate := (callPrice_bounded hp h.debt_pos h.collateral_pos h.ratio_pos).valid.rate_pos
  have hpos := h.exactRate_pos
  generalize exactRate debt collateral ratio = r at hrounded hpos ⊢
  have hmax : (0 : ℚ) < maxShareSupply := by exact_mod_cast Price.maxShareSupply_pos
  constructor
  · have hinv : 1 + p.rate ≤ (1 + r⁻¹) * (1 + 31 / maxShareSupply) := by
      have hbelow := hrounded.below
      rw [inv_inv] at hbelow
      exact hbelow.trans (mul_le_mul_of_nonneg_left rounds_le (by positivity))
    have hslack : (1 + r⁻¹) * (1 + 31 / maxShareSupply) = 1 + (r / (1 + slack r))⁻¹ := by
      rw [slack]
      field_simp
      ring
    have hslack_pos : 0 < slack r := by
      rw [slack]
      positivity
    rw [le_inv_comm₀ (by positivity) hrate]
    linarith
  · have habove := hrounded.above.trans (mul_le_mul_of_nonneg_left rounds_le (by positivity))
    have hslack : (1 + r) * (1 + 31 / maxShareSupply) = 1 + (r + slack r) := by
      rw [slack]
      ring
    linarith

/-- Rates that are further apart than the errors stay in order. -/
theorem lt_of_slack (h : Margined debt collateral ratio) (h' : Margined debt' collateral' ratio')
    (hdebt : debt'.assetId = debt.assetId) (hcoll : collateral'.assetId = collateral.assetId)
    (hp : callPrice debt collateral ratio = .ok p) (hp' : callPrice debt' collateral' ratio' = .ok p')
    (hlt : exactRate debt' collateral' ratio' + slack (exactRate debt' collateral' ratio') <
      exactRate debt collateral ratio / (1 + slack (exactRate debt collateral ratio))) : p.lt p' := by
  have hvalid := (callPrice_bounded hp h.debt_pos h.collateral_pos h.ratio_pos).valid
  have hvalid' := (callPrice_bounded hp' h'.debt_pos h'.collateral_pos h'.ratio_pos).valid
  obtain ⟨hbase, hquote, -⟩ := callPrice_assets hp
  obtain ⟨hbase', hquote', -⟩ := callPrice_assets hp'
  rw [Price.lt_iff hvalid hvalid', Price.key_lt_iff (by rw [hbase, hbase', hcoll]) (by rw [hquote, hquote', hdebt]),
    ← inv_lt_inv₀ hvalid'.rate_pos hvalid.rate_pos]
  exact ((h'.rate_bounds hp').2.trans_lt hlt).trans_le (h.rate_bounds hp).1

/-- Rates that need no rounding are in order. -/
theorem lt_iff_of_fits (h : Margined debt collateral ratio) (h' : Margined debt' collateral' ratio')
    (hdebt : debt'.assetId = debt.assetId) (hcoll : collateral'.assetId = collateral.assetId)
    (hp : callPrice debt collateral ratio = .ok p) (hp' : callPrice debt' collateral' ratio' = .ok p')
    (hfits : Fits (exactRate debt collateral ratio)) (hfits' : Fits (exactRate debt' collateral' ratio')) :
    p.lt p' ↔ collateral.amount * (debt'.amount * ratio') < collateral'.amount * (debt.amount * ratio) := by
  have hvalid := (callPrice_bounded hp h.debt_pos h.collateral_pos h.ratio_pos).valid
  have hvalid' := (callPrice_bounded hp' h'.debt_pos h'.collateral_pos h'.ratio_pos).valid
  obtain ⟨hbase, hquote, -⟩ := callPrice_assets hp
  obtain ⟨hbase', hquote', -⟩ := callPrice_assets hp'
  obtain ⟨hn, hd⟩ := h.products_pos
  obtain ⟨hn', hd'⟩ := h'.products_pos
  rw [Price.lt_iff hvalid hvalid', Price.key_lt_iff (by rw [hbase, hbase', hcoll]) (by rw [hquote, hquote', hdebt]),
    ← inv_lt_inv₀ hvalid'.rate_pos hvalid.rate_pos, rate_of_fits hp hfits, rate_of_fits hp' hfits', exactRate_eq, exactRate_eq,
    div_lt_div_iff₀ (by exact_mod_cast hd') (by exact_mod_cast hd)]
  norm_cast
  have hleft : debt'.amount * ratio' * (collateral.amount * collateralRatioDenom) =
      collateral.amount * (debt'.amount * ratio') * collateralRatioDenom := by ring
  have hright : debt.amount * ratio * (collateral'.amount * collateralRatioDenom) =
      collateral'.amount * (debt.amount * ratio) * collateralRatioDenom := by ring
  rw [hleft, hright]
  exact Int.mul_lt_mul_right (by decide)

/-! ### The price of a margin call -/

theorem maxShortSqueezePrice_only (hf : f.settlementPrice.Valid) (hratio : f.maximumShortSqueezeRatio ≠ 0) :
    Only .outOfFuel f.maxShortSqueezePrice := by
  unfold PriceFeed.maxShortSqueezePrice mkPrice
  refine only_bind (only_of_ok ⟨(), fcAssert_eq_ok.mpr ⟨hf.quote_pos.ne', hratio⟩⟩) fun _ _ => ?_
  exact only_bind shrink_only fun cp _ => only_bind (only_of_ok ⟨(), fcAssert_eq_ok.mpr hf.assets⟩) fun _ _ => only_pure

theorem maxShortSqueezePrice_total
    (h : Margined f.settlementPrice.base f.settlementPrice.quote f.maximumShortSqueezeRatio) :
    ∃ p, f.maxShortSqueezePrice = .ok p ∧ p.InRange ∧ p.base.assetId = f.settlementPrice.base.assetId ∧
      p.quote.assetId = f.settlementPrice.quote.assetId := by
  have hmax : maxShareSupply < 2 ^ 63 := by decide
  have hratio : f.maximumShortSqueezeRatio < 2 ^ 16 := lt_of_le_of_lt h.ratio_le (by decide)
  have hvalid : f.settlementPrice.Valid := ⟨h.debt_pos, h.collateral_pos, h.assets⟩
  have hhalts := PriceFeed.halts_maxShortSqueezePrice h.debt_pos.le (h.debt_le.trans_lt hmax) h.collateral_pos.le
    (h.collateral_le.trans_lt hmax) hratio
  obtain ⟨p, hp⟩ := hhalts.total (maxShortSqueezePrice_only hvalid h.ratio_pos.ne')
  exact ⟨p, hp, PriceFeed.maxShortSqueezePrice_bounded hp hvalid h.ratio_pos, PriceFeed.maxShortSqueezePrice_assets hp⟩

end Margined

/-- All amounts and ratios have a call price and a price of margin calls within the bounds. The call prices of two positions
    are in the order of the exact rates if these fit or are further apart than the errors. -/
theorem marginPrices_ordered (h : Margined debt collateral ratio) :
    (∃ p, callPrice debt collateral ratio = .ok p ∧ p.InRange ∧ p.base.assetId = collateral.assetId ∧ p.quote.assetId = debt.assetId) ∧
    (∀ f : PriceFeed, f.settlementPrice = ⟨debt, collateral⟩ → f.maximumShortSqueezeRatio = ratio →
      ∃ p, f.maxShortSqueezePrice = .ok p ∧ p.InRange ∧ p.base.assetId = debt.assetId ∧ p.quote.assetId = collateral.assetId) ∧
    ∀ debt' collateral' ratio' p p', Margined debt' collateral' ratio' →
      debt'.assetId = debt.assetId → collateral'.assetId = collateral.assetId →
      callPrice debt collateral ratio = .ok p → callPrice debt' collateral' ratio' = .ok p' →
        (Fits (exactRate debt collateral ratio) → Fits (exactRate debt' collateral' ratio') →
          (p.lt p' ↔ collateral.amount * (debt'.amount * ratio') < collateral'.amount * (debt.amount * ratio))) ∧
        (exactRate debt' collateral' ratio' + slack (exactRate debt' collateral' ratio') <
          exactRate debt collateral ratio / (1 + slack (exactRate debt collateral ratio)) → p.lt p') := by
  refine ⟨?_, ?_, ?_⟩
  · obtain ⟨p, hp⟩ := h.callPrice_total
    obtain ⟨hbase, hquote, -⟩ := callPrice_assets hp
    exact ⟨p, hp, callPrice_bounded hp h.debt_pos h.collateral_pos h.ratio_pos, hbase, hquote⟩
  · intro f hf hratio
    have hbase : f.settlementPrice.base = debt := by rw [hf]
    have hquote : f.settlementPrice.quote = collateral := by rw [hf]
    subst hbase hquote hratio
    exact h.maxShortSqueezePrice_total
  · intro debt' collateral' ratio' p p' h' hdebt hcoll hp hp'
    exact ⟨fun hfits hfits' => h.lt_iff_of_fits h' hdebt hcoll hp hp' hfits hfits', fun hlt => h.lt_of_slack h' hdebt hcoll hp hp' hlt⟩

/-- Positions of 100 and of 200 for the same debt -/
theorem marginPrices_ordered_twice : ∃ p p', callPrice ⟨300, 1⟩ ⟨100, 0⟩ 1750 = .ok p ∧ callPrice ⟨300, 1⟩ ⟨200, 0⟩ 1750 = .ok p' ∧
    p.lt p' := by
  have h : Margined ⟨300, 1⟩ ⟨100, 0⟩ 1750 := ⟨by decide, by decide, by decide, by decide, by decide, by decide, by decide⟩
  have h' : Margined ⟨300, 1⟩ ⟨200, 0⟩ 1750 := ⟨by decide, by decide, by decide, by decide, by decide, by decide, by decide⟩
  obtain ⟨⟨p, hp, -⟩, -, horder⟩ := marginPrices_ordered h
  obtain ⟨p', hp'⟩ := h'.callPrice_total
  exact ⟨p, p', hp, hp', ((horder _ _ _ p p' h' rfl rfl hp hp').1 (by decide +kernel) (by decide +kernel)).mpr (by decide)⟩

/-- The rounding turns positions round: with one of the collateral, a debt of 10^18 has a higher call price than one of 6 * 10^17; with
    a debt of 10^18, two of the collateral have a lower one than one, and the least ratio has a lower one than 2000. -/
theorem callPrice_turned :
    ¬ (∀ debt debt' collateral ratio p p', Margined debt collateral ratio → Margined debt' collateral ratio →
      debt.assetId = debt'.assetId → debt.amount ≤ debt'.amount → callPrice debt collateral ratio = .ok p →
      callPrice debt' collateral ratio = .ok p' → p'.le p) ∧
    ¬ (∀ debt collateral collateral' ratio p p', Margined debt collateral ratio → Margined debt collateral' ratio →
      collateral.assetId = collateral'.assetId → collateral.amount ≤ collateral'.amount → callPrice debt collateral ratio = .ok p →
      callPrice debt collateral' ratio = .ok p' → p.le p') ∧
    ¬ (∀ debt collateral ratio ratio' p p', Margined debt collateral ratio → Margined debt collateral ratio' → ratio ≤ ratio' →
      callPrice debt collateral ratio = .ok p → callPrice debt collateral ratio' = .ok p' → p'.le p) ∧
    ¬ (∀ debt debt' collateral collateral' ratio p p', Margined debt collateral ratio → Margined debt' collateral' ratio →
      debt.assetId = debt'.assetId → collateral.assetId = collateral'.assetId →
      collateral.amount * debt'.amount < collateral'.amount * debt.amount → callPrice debt collateral ratio = .ok p →
      callPrice debt' collateral' ratio = .ok p' → p.le p') := by
  have h₁ : Margined ⟨600000000000000000, 1⟩ ⟨1, 0⟩ 2000 := ⟨by decide, by decide, by decide, by decide, by decide, by decide, by decide⟩
  have h₂ : Margined ⟨1000000000000000000, 1⟩ ⟨1, 0⟩ 2000 := ⟨by decide, by decide, by decide, by decide, by decide, by decide, by decide⟩
  have h₃ : Margined ⟨1000000000000000000, 1⟩ ⟨2, 0⟩ 2000 := ⟨by decide, by decide, by decide, by decide, by decide, by decide, by decide⟩
  have h₄ : Margined ⟨1000000000000000000, 1⟩ ⟨1, 0⟩ 1001 := ⟨by decide, by decide, by decide, by decide, by decide, by decide, by decide⟩
  have c₁ : callPrice ⟨600000000000000000, 1⟩ ⟨1, 0⟩ 2000 = .ok ⟨⟨1, 0⟩, ⟨600000000000000001, 1⟩⟩ := by decide +kernel
  have c₂ : callPrice ⟨1000000000000000000, 1⟩ ⟨1, 0⟩ 2000 = .ok ⟨⟨1, 0⟩, ⟨500000000000000001, 1⟩⟩ := by decide +kernel
  have c₃ : callPrice ⟨1000000000000000000, 1⟩ ⟨2, 0⟩ 2000 = .ok ⟨⟨1, 0⟩, ⟨1000000000000000000, 1⟩⟩ := by decide +kernel
  have c₄ : callPrice ⟨1000000000000000000, 1⟩ ⟨1, 0⟩ 1001 = .ok ⟨⟨1, 0⟩, ⟨500500000000000001, 1⟩⟩ := by decide +kernel
  refine ⟨fun h => ?_, fun h => ?_, fun h => ?_, fun h => ?_⟩
  · exact absurd (h _ _ _ _ _ _ h₁ h₂ rfl (by decide) c₁ c₂) (by decide)
  · exact absurd (h _ _ _ _ _ _ h₂ h₃ rfl (by decide) c₂ c₃) (by decide)
  · exact absurd (h _ _ _ _ _ _ h₄ h₂ (by decide) c₄ c₂) (by decide)
  · exact absurd (h _ _ _ _ _ _ _ h₂ h₁ rfl rfl (by decide) c₂ c₁) (by decide)

end Khc.Market
