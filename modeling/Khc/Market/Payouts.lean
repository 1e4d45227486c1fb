import Khc.Market.Consistent
import Khc.Market.Evaluators

/-! Settlements from the fund of a settled asset: what a holder gives and gets, and that the fund stays worth the
    supply. -/

namespace Khc.Market

open Lib
open Chain (Asset Price AccountId AssetId)

namespace Database

section
variable {d d' : Database} {mia : AssetId} {b : BitassetData} {amount settled pays : Asset} {supply : Int}

/-- The whole supply gets the whole fund. Anything else gets its value, rounded down, for what that costs, rounded up. -/
theorem settledAmount_cases (h : settledAmount b amount supply = .ok (settled, pays))
    (hbase : amount.assetId = b.settlementPrice.base.assetId)
    (hassets : b.settlementPrice.base.assetId ≠ b.settlementPrice.quote.assetId) (hpos : 0 ≤ amount.amount)
    (hquote : 0 ≤ b.settlementPrice.quote.amount) (hbase_pos : 0 ≤ b.settlementPrice.base.amount) :
    settled.assetId = b.settlementPrice.quote.assetId ∧ pays.assetId = amount.assetId ∧
      ((amount.amount = supply ∧ settled.amount = b.settlementFund ∧ pays = amount) ∨
        (amount.amount ≠ supply ∧ mul amount b.settlementPrice = .ok settled ∧ settled.amount ≤ b.settlementFund ∧
          settled.amount * b.settlementPrice.base.amount ≤ pays.amount * b.settlementPrice.quote.amount ∧
          0 ≤ pays.amount ∧ pays.amount ≤ amount.amount)) := by
  simp only [settledAmount, bind_eq_ok] at h
  obtain ⟨value, hvalue, h⟩ := h
  obtain ⟨hasset, hvalue_nonneg, -⟩ := mul_of_base hvalue hbase hpos hquote
  split at h
  · rename_i hwhole
    simp only [bind_eq_ok, pure_eq_ok, Prod.mk.injEq] at h
    obtain ⟨-, -, rfl, rfl⟩ := h
    exact ⟨hasset, rfl, .inl ⟨hwhole, rfl, rfl⟩⟩
  · rename_i hpart
    simp only [bind_eq_ok, fcAssert_eq_ok, pure_eq_ok, Prod.mk.injEq] at h
    obtain ⟨-, hfund, -, -, cost, hcost, rfl, rfl⟩ := h
    split at hcost
    · obtain ⟨hcost_asset, hcost_ge⟩ := roundUp_of_quote hcost hasset hassets hvalue_nonneg hbase_pos
      obtain ⟨-, hcost_le⟩ := mul_roundUp_le hassets hvalue hcost
      rw [Int.toNat_of_nonneg hpos] at hcost_le
      exact ⟨hasset, hcost_asset.trans hbase.symm, .inr ⟨hpart, hvalue, hfund, hcost_ge, multiplyAndRoundUp_nonneg hcost, hcost_le⟩⟩
    · rename_i hzero
      rw [not_not] at hzero
      cases hcost
      refine ⟨hasset, rfl, .inr ⟨hpart, hvalue, hfund, ?_, hpos, le_refl _⟩⟩
      rw [hzero, zero_mul]
      exact Int.mul_nonneg hpos hquote

/-- A holder gives `pays` of the asset and gets `settled` of the fund. -/
structure PaysOut (d d' : Database) (mia : AssetId) (b : BitassetData) (settled pays : Int) : Prop where
  same : d' = { d with
    statistics := d'.statistics, balances := d'.balances, dynamicData := d'.dynamicData, bitassets := d'.bitassets,
    applied := d'.applied }
  bitasset : ∀ a, d'.bitasset a = if mia = a then some { b with settlementFund := b.settlementFund - settled } else d.bitasset a
  changes : Changes d d' (put .total (Asset.of ⟨settled, b.options.shortBackingAsset⟩ - Asset.of ⟨pays, mia⟩) -
    put .funds (Asset.of ⟨settled, b.options.shortBackingAsset⟩) - put .supply (Asset.of ⟨pays, mia⟩))
  sound : d'.Sound

/-! ### The fund and the supply -/

theorem PaysOut.supply_eq {m n : Int} (h : PaysOut d d' mia b m n) (a : AssetId) :
    d'.currentSupply a = d.currentSupply a - Asset.of ⟨n, mia⟩ a := by
  have := h.changes .supply a
  simp only [Database.amount, Pi.sub_apply, put_self, put_ne, ne_eq, reduceCtorEq, not_false_eq_true, zero_sub] at this
  omega

/-- A payout that the fund and the supply can bear keeps the fund worth the supply. -/
theorem PaysOut.preserves {m n : Int} (h : PaysOut d d' mia b m n) (hd : d.Consistent) (hb : d.bitasset mia = some b)
    (hsettled : b.hasSettlement) (hfund : m ≤ b.settlementFund) (hsupply : n ≤ d.currentSupply mia)
    (hcost : (d.currentSupply mia - n) * b.settlementPrice.quote.amount ≤ (b.settlementFund - m) * b.settlementPrice.base.amount)
    (hempty : n = d.currentSupply mia → m = b.settlementFund) : Preserves d d' := by
  have hcalls : d'.callOrders = d.callOrders := by rw [h.same]
  refine ⟨{ h.sound with live := ?_, settled := ?_ }, keeps_of_amounts h.changes (fun a => ?_) fun account => ?_, ?_,
    fun a => ?_⟩
  · intro a b' hb' hlive
    rw [h.bitasset] at hb'
    split at hb'
    · obtain rfl := Option.some.inj hb'
      exact absurd hsettled hlive
    · rename_i ha
      obtain ⟨hzero, hcovered⟩ := hd.live a b' hb' hlive
      refine ⟨hzero, ?_⟩
      rw [uncovered_of_amounts h.changes, hcovered]
      simp [Asset.of, ha]
  · intro a b' hb' hsettled'
    rw [h.bitasset] at hb'
    split at hb'
    · rename_i ha
      subst ha
      obtain rfl := Option.some.inj hb'
      have hbacks := hd.settled mia b hb hsettled
      have hleft : d'.currentSupply mia = d.currentSupply mia - n := by rw [h.supply_eq, Asset.of, if_pos rfl]
      refine { hbacks with
        calls := hcalls ▸ hbacks.calls
        supply_nonneg := by omega
        fund_nonneg := sub_nonneg.mpr hfund
        backed := by rwa [hleft]
        empty := fun hzero => ?_ }
      exact sub_eq_zero.mpr (hempty (by omega)).symm
    · rename_i ha
      have hbacks := hd.settled a b' hb' hsettled'
      have hsame : d'.currentSupply a = d.currentSupply a := by rw [h.supply_eq, Asset.of, if_neg ha, sub_zero]
      exact { hbacks with
        calls := hcalls ▸ hbacks.calls
        supply_nonneg := hsame ▸ hbacks.supply_nonneg
        backed := hsame ▸ hbacks.backed
        empty := hsame ▸ hbacks.empty }
  · simp
  · simp
  · rw [h.same]
    exact Std.Refl.refl _
  · rw [h.bitasset]
    split
    · rename_i ha
      rw [← ha, hb]
      rfl
    · rfl

/-- What the fund and the supply can bear -/
theorem settledAmount_bears (h : settledAmount b amount (d.currentSupply mia) = .ok (settled, pays)) (hd : d.Backs mia b)
    (hasset : amount.assetId = mia) (hpos : 0 ≤ amount.amount) (hle : amount.amount ≤ d.currentSupply mia) :
    0 ≤ settled.amount ∧ settled.amount ≤ b.settlementFund ∧ 0 ≤ pays.amount ∧ pays.amount ≤ amount.amount ∧
      (d.currentSupply mia - pays.amount) * b.settlementPrice.quote.amount ≤
        (b.settlementFund - settled.amount) * b.settlementPrice.base.amount ∧
      (pays.amount = d.currentSupply mia → settled.amount = b.settlementFund) := by
  have hassets : b.settlementPrice.base.assetId ≠ b.settlementPrice.quote.assetId := by
    rw [hd.base, hd.quote]
    exact hd.assets
  obtain ⟨-, -, ⟨hwhole, hall, rfl⟩ | ⟨hpart, hvalue, hfund, hcost, hpays, hpays_le⟩⟩ :=
    settledAmount_cases h (hasset.trans hd.base.symm) hassets hpos hd.quote_nonneg hd.base_pos.le
  · rw [hall, hwhole]
    exact ⟨hd.fund_nonneg, le_refl _, hd.supply_nonneg, le_refl _, by simp, fun _ => rfl⟩
  · refine ⟨mul_nonneg hvalue, hfund, hpays, hpays_le, ?_, fun heq => absurd (by omega) hpart⟩
    rw [sub_mul, sub_mul]
    have := hd.backed
    omega

theorem settleFromFund_paysOut {o : AssetSettle} (h : d.settleFromFund o b = .ok d') (hd : d.Consistent)
    (hb : d.bitasset o.amount.assetId = some b) (hsettled : b.hasSettlement) (hpos : 0 ≤ o.amount.amount)
    (hle : o.amount.amount ≤ d.currentSupply o.amount.assetId) :
    ∃ settled pays, settledAmount b o.amount (d.currentSupply o.amount.assetId) = .ok (settled, pays) ∧
      PaysOut d d' o.amount.assetId b settled.amount pays.amount := by
  simp only [settleFromFund, getDynamicData, bind_eq_ok, lookup_eq_ok] at h
  obtain ⟨dyn, hdyn, ⟨settled, pays⟩, h₀, d₁, h₁, d₂, h₂, h⟩ := h
  have hsupply : dyn.currentSupply = d.currentSupply o.amount.assetId := by simp [currentSupply, hdyn]
  rw [hsupply] at h₀
  have hbacks := hd.settled _ b hb hsettled
  have hassets : b.settlementPrice.base.assetId ≠ b.settlementPrice.quote.assetId := by
    rw [hbacks.base, hbacks.quote]
    exact hbacks.assets
  obtain ⟨hasset, hpays, -⟩ := settledAmount_cases h₀ hbacks.base.symm hassets hpos hbacks.quote_nonneg hbacks.base_pos.le
  obtain ⟨hnonneg, -⟩ := settledAmount_bears h₀ hbacks rfl hpos hle
  refine ⟨settled, pays, h₀, ?_⟩
  have m₁ := adjustBalance_moves h₁
  have hd₁ := (m₁.deals (t := none)).sound hd.toSound
  have hb₁ : d₁.bitasset o.amount.assetId = some b := by rw [(m₁.deals (t := none)).bitasset, hb]
  set f : BitassetData → BitassetData := fun b => { b with settlementFund := b.settlementFund - settled.amount } with hf
  have hfunds : (fun a => fundOf a (some (f b)) - fundOf a (some b)) = -Asset.of ⟨settled.amount, b.options.shortBackingAsset⟩ := by
    funext a
    simp only [fundOf, Option.elim_some, hf, Asset.of_sub, Pi.neg_apply]
    ring
  have hpaid : pays.neg.of = -Asset.of ⟨pays.amount, o.amount.assetId⟩ := by rw [Asset.neg_of, Asset.of_mk hpays]
  have hof : settled.of = Asset.of ⟨settled.amount, b.options.shortBackingAsset⟩ := by rw [Asset.of_mk (hasset.trans hbacks.quote)]
  -- whether or not there is something to pay out, the fund loses it and the holder gets it
  have hmoved : ∃ d₀, d₀ = d₁.modifyBitasset o.amount.assetId f ∧ Moves d₀ d₂ (put .total settled.of) := by
    dsimp only at h₂
    split at h₂
    · exact ⟨_, rfl, adjustBalance_moves h₂⟩
    · have hzero : settled.amount = 0 := by omega
      cases h₂
      refine ⟨_, rfl, ?_⟩
      have hnone : settled.of = 0 := funext fun a => Asset.of_eq_zero hzero
      have hsame : d₁.modifyBitasset o.amount.assetId f = d₁ := by
        have hid : f = id := by
          funext x
          simp [hf, hzero]
        rw [modifyBitasset, hid, Option.map_id, List.modify_id]
      rw [hnone, put_zero, hsame]
      exact .refl
  obtain ⟨d₀, hd₀, m₂⟩ := hmoved
  have hsound₀ : d₀.Sound := by
    rw [hd₀]
    exact hd₁.modifyBitasset fun x hx => ⟨rfl, { hd₁.feeds _ x hx with }⟩
  have f₃ := changeSupply_deals (t := none) h
  have hchanges := ((Changes.trans m₁.amounts (hd₀ ▸ modifyBitasset_changes f hb₁)).trans m₂.amounts).trans f₃.amounts
  refine ⟨?_, fun a => ?_, ?_, f₃.sound ((m₂.deals (t := none)).sound hsound₀)⟩
  · rw [changeSupply_same h, m₂.same, hd₀, m₁.same]
    rfl
  · rw [f₃.bitasset, (m₂.deals (t := none)).bitasset, hd₀, bitasset_modify, (m₁.deals (t := none)).bitasset]
    split
    · rename_i ha
      rw [← ha, hb]
      rfl
    · rfl
  · have hneg : Asset.of ⟨-pays.amount, o.amount.assetId⟩ = -Asset.of ⟨pays.amount, o.amount.assetId⟩ :=
      Asset.neg_of (x := ⟨pays.amount, o.amount.assetId⟩)
    rw [hfunds, hpaid, hof, hneg] at hchanges
    intro q a
    rw [hchanges q a]
    simp only [put_neg, put_sub, Pi.add_apply, Pi.sub_apply, Pi.neg_apply]
    ring

end

end Database

end Khc.Market
