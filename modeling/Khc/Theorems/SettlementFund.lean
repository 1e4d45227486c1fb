import Khc.Market.Accounts
import Khc.Market.Reachable

/-! The settlement fund of a settled asset: whoever settles and in whatever order, the fund stays worth the supply, and nobody
    gets more than what the amount is worth. -/

namespace Khc.Market

open Lib
open Chain (Asset AccountId AssetId Price)

/-! ### The fund is never too small -/

theorem fcAssert_eq_error {c : Prop} [Decidable c] {e e' : Error} : fcAssert c e = .error e' ↔ ¬c ∧ e = e' := by
  unfold fcAssert
  split <;> simp_all

theorem safe_ne {x : Int} : safe x ≠ .error .fundTooSmall := by
  unfold safe
  split <;> simp

theorem convert_ne {a per out : Asset} {carry : Nat} : convert a per out carry ≠ .error .fundTooSmall := by
  simp [convert, bind_eq_error, map_eq_error, fcAssert_eq_error]

theorem mul_ne {a : Asset} {p : Price} : mul a p ≠ .error .fundTooSmall := by
  unfold mul
  split
  · exact convert_ne
  · split
    · exact convert_ne
    · simp [throw_eq_error]

theorem multiplyAndRoundUp_ne {a : Asset} {p : Price} : multiplyAndRoundUp a p ≠ .error .fundTooSmall := by
  unfold multiplyAndRoundUp
  split
  · exact convert_ne
  · split
    · exact convert_ne
    · simp [throw_eq_error]

namespace Database

section
variable {d d' : Database} {account : AccountId} {asset mia : AssetId} {delta : Asset} {b : BitassetData} {o : AssetSettle}

theorem lookup_ne {α : Type} {l : List α} {id : Nat} : lookup l id ≠ .error .fundTooSmall := by
  unfold lookup
  split <;> simp

theorem getBitasset_ne : d.getBitasset asset ≠ .error .fundTooSmall := by
  unfold getBitasset
  split <;> simp

theorem adjustBalance_ne : d.adjustBalance account delta ≠ .error .fundTooSmall := by
  unfold adjustBalance
  split
  · simp
  · split
    · simp [map_eq_error, fcAssert_eq_error]
    · simp [bind_eq_error, map_eq_error, fcAssert_eq_error, safe_ne]

theorem accumulateFees_ne : d.accumulateFees delta ≠ .error .fundTooSmall := by
  simp [accumulateFees, modifyDynamicData, getDynamicData, bind_eq_error, map_eq_error, lookup_ne, safe_ne]

theorem fundFeePool_ne {amount : Int} : d.fundFeePool asset amount ≠ .error .fundTooSmall := by
  simp [fundFeePool, modifyDynamicData, getDynamicData, bind_eq_error, map_eq_error, lookup_ne, safe_ne]

theorem changeSupply_ne : d.changeSupply delta ≠ .error .fundTooSmall := by
  simp [changeSupply, modifyDynamicData, getDynamicData, bind_eq_error, map_eq_error, lookup_ne, safe_ne]

theorem payFee_ne {amount : Int} : d.payFee account amount ≠ .error .fundTooSmall := by
  simp only [payFee, modifyStatistics, getStatistics, ne_eq, bind_eq_error, pure_eq_error, lookup_ne, and_false, exists_false,
    or_false, false_or, not_exists, not_and]
  intro s _
  split <;> simp [map_eq_error, safe_ne]

theorem prepareFee_ne : d.prepareFee account delta ≠ .error .fundTooSmall := by
  unfold prepareFee
  split
  · simp only [getAccount, getStatistics, getAsset, getDynamicData, ne_eq, bind_eq_error, fcAssert_eq_error, lookup_ne, reduceCtorEq,
      and_false, false_or, not_exists, not_and]
    intro _ _ _ _ a _ dyn _ _ _
    split
    · simp
    · split
      · rename_i e he
        intro h
        cases h
        exact mul_ne he
      · simp [bind_eq_error, fcAssert_eq_error]
  · simp [throw_eq_error]

theorem takeFee_ne {paid : PaidFee} : d.takeFee account paid ≠ .error .fundTooSmall := by
  simp only [takeFee, ne_eq, bind_eq_error, payFee_ne, and_false, exists_false, or_false]
  split
  · simp
  · simp [bind_eq_error, accumulateFees_ne, fundFeePool_ne]

theorem evaluateAssetSettle_ne : d.evaluateAssetSettle o ≠ .error .fundTooSmall := by
  simp only [evaluateAssetSettle, getAsset, getAccount, ne_eq, bind_eq_error, fcAssert_eq_error, lookup_ne, getBitasset_ne,
    reduceCtorEq, and_false, false_or, not_exists, not_and]
  intro _ _ _ _ _ _
  split <;> simp [bind_eq_error, fcAssert_eq_error, lookup_ne]

/-- What an amount of the supply is worth is in the fund. -/
theorem settledAmount_ne {amount : Asset} (hd : d.Backs mia b) (hasset : amount.assetId = mia) (hpos : 0 ≤ amount.amount)
    (hle : amount.amount ≤ d.currentSupply mia) : settledAmount b amount (d.currentSupply mia) ≠ .error .fundTooSmall := by
  intro h
  simp only [settledAmount, bind_eq_error, mul_ne, false_or] at h
  obtain ⟨value, hvalue, h⟩ := h
  split at h
  · simp [map_eq_error, fcAssert_eq_error] at h
  · simp only [bind_eq_error, fcAssert_eq_error, pure_eq_error, and_false, exists_false, or_false, reduceCtorEq, false_or] at h
    rcases h with ⟨hmore, -⟩ | ⟨-, -, -, -, h⟩
    · obtain ⟨-, -, hdown, -⟩ := mul_of_base hvalue (hasset.trans hd.base.symm) hpos hd.quote_nonneg
      have hworth : value.amount * b.settlementPrice.base.amount ≤ b.settlementFund * b.settlementPrice.base.amount :=
        (hdown.trans (Int.mul_le_mul_of_nonneg_right hle hd.quote_nonneg)).trans hd.backed
      exact hmore (le_of_mul_le_mul_right hworth hd.base_pos)
    · split at h
      · exact multiplyAndRoundUp_ne h
      · cases h

theorem applyAssetSettle_ne (hd : d.Consistent) (hpos : 0 ≤ o.amount.amount)
    (hle : ∀ b, d.bitasset o.amount.assetId = some b → b.hasSettlement → o.amount.amount ≤ d.currentSupply o.amount.assetId) :
    d.applyAssetSettle o ≠ .error .fundTooSmall := by
  intro h
  simp only [applyAssetSettle, bind_eq_error, getBitasset_ne, false_or, getBitasset_eq_ok] at h
  obtain ⟨b, hb, h⟩ := h
  split at h
  · rename_i hsettled
    simp only [settleFromFund, getDynamicData, bind_eq_error, lookup_ne, false_or, lookup_eq_ok] at h
    obtain ⟨dyn, hdyn, h⟩ := h
    have hsupply : dyn.currentSupply = d.currentSupply o.amount.assetId := by simp [currentSupply, hdyn]
    rw [hsupply] at h
    rcases h with h | ⟨⟨settled, pays⟩, -, h⟩
    · exact settledAmount_ne (hd.settled _ b hb hsettled) rfl hpos (hle b hb hsettled) h
    · simp only [adjustBalance_ne, changeSupply_ne, and_false, exists_false, or_false, false_or] at h
      obtain ⟨d₁, -, h⟩ := h
      split at h
      · exact adjustBalance_ne h
      · cases h
  · simp [map_eq_error, adjustBalance_ne] at h

theorem applyOperation_settle_ne {fuel : Nat} (h : d.Lawful) : d.applyOperation fuel (.assetSettle o) ≠ .error .fundTooSmall := by
  intro herror
  simp only [applyOperation, doEvaluate, convertAndPayFee, doApply, bind_eq_error, fcAssert_eq_error, fcAssert_eq_ok, reduceCtorEq,
    and_false, false_or, prepareFee_ne, evaluateAssetSettle_ne, takeFee_ne, adjustBalance_ne, exists_false, or_false] at herror
  obtain ⟨⟨⟩, haccepted, paid, hpaid, ⟨⟩, -, ⟨⟩, heval, d₁, h₁, herror⟩ := herror
  obtain ⟨hfee, hcore⟩ := prepareFee_eq_ok hpaid
  have m := takeFee_moves h₁ (hfee ▸ hcore)
  refine applyAssetSettle_ne (h.toConsistent.deals (t := none) m.deals fun a => by simp) haccepted (fun b' _ _ => ?_) herror
  obtain ⟨b, hb, hbalance⟩ := evaluateAssetSettle_eq_ok heval
  have hsupply : d₁.currentSupply o.amount.assetId = d.currentSupply o.amount.assetId := by
    simpa [put_ne, amount] using m.amounts .supply o.amount.assetId
  rw [hsupply]
  exact hbalance.trans (getBalance_le_supply h.toConsistent hb (h.worth _ b hb))

/-! ### What a holder gets -/

theorem takeFee_balances {paid : PaidFee} (h : d.takeFee account paid = .ok d') : d'.balances = d.balances := by
  simp only [takeFee, bind_eq_ok] at h
  obtain ⟨d₁, h₁, h⟩ := h
  have hpaid : d'.balances = d₁.balances := by
    obtain ⟨s, s', -, -, rfl⟩ := modifyStatistics_eq_ok h
    rfl
  rw [hpaid]
  split at h₁
  · obtain rfl := Except.ok.inj h₁
    rfl
  · obtain ⟨d₂, h₂, h₁⟩ := bind_eq_ok.mp h₁
    obtain ⟨x, x', -, -, rfl⟩ := modifyDynamicData_eq_ok h₁
    obtain ⟨y, y', -, -, rfl⟩ := modifyDynamicData_eq_ok h₂
    rfl

theorem settleFromFund_credits (h : d.settleFromFund o b = .ok d') {settled pays : Asset}
    (hsettled : settledAmount b o.amount (d.currentSupply o.amount.assetId) = .ok (settled, pays)) (hpos : 0 ≤ settled.amount) :
    Credits d d' (credit o.account pays.neg + credit o.account settled) := by
  simp only [settleFromFund, getDynamicData, bind_eq_ok, lookup_eq_ok] at h
  obtain ⟨dyn, hdyn, ⟨settled', pays'⟩, h₀, d₁, h₁, d₂, h₂, h⟩ := h
  have hsupply : dyn.currentSupply = d.currentSupply o.amount.assetId := by simp [currentSupply, hdyn]
  rw [hsupply, hsettled] at h₀
  cases h₀
  have hlater : d'.balances = d₂.balances := by
    rw [changeSupply_same h]
  have hpaid : Credits d₁ d₂ (credit o.account settled) := by
    dsimp only at h₂
    split at h₂
    · exact ((Credits.of_balances rfl).trans (adjustBalance_credits h₂)).congr fun owner a => by rw [zero_add]
    · have hzero : settled.amount = 0 := by omega
      obtain rfl := Except.ok.inj h₂
      exact (Credits.of_balances rfl).congr fun owner a => by simp [Asset.of_eq_zero hzero]
  exact (((adjustBalance_credits h₁).trans hpaid).trans (.of_balances hlater)).congr fun owner a => by rw [add_zero]

end

/-- A global settlement stores the supply over the fund as the settlement price. From then on the fund is worth the supply at that
    price and is empty only with the supply, it is never too small for a holder, and a holder gets what its amount is worth,
    rounded down, for no more than the amount and no less than what that costs. The whole supply gets the whole fund. -/
theorem settlementFund_solvent {d : Database} (h : d.Reachable) (mia : AssetId) :
    (∀ d₀ d₁ : Database, ∀ p, d₀.Sound → d₀.globallySettleAsset mia p = .ok d₁ → ∃ b, d₁.bitasset mia = some b ∧
        b.settlementPrice = ⟨⟨d₁.currentSupply mia, mia⟩, ⟨b.settlementFund, b.options.shortBackingAsset⟩⟩) ∧
      ∀ b, d.bitasset mia = some b → b.hasSettlement → 0 < b.settlementPrice.quote.amount →
        d.currentSupply mia * b.settlementPrice.quote.amount ≤ b.settlementFund * b.settlementPrice.base.amount ∧
        (b.settlementFund = 0 ↔ d.currentSupply mia = 0) ∧
        ∀ fuel o, o.amount.assetId = mia → d.applyOperation fuel (.assetSettle o) ≠ .error .fundTooSmall ∧
          ∀ d', d.applyOperation fuel (.assetSettle o) = .ok d' → ∃ settled pays : Int,
            (o.amount.amount = d.currentSupply mia → settled = b.settlementFund ∧ pays = o.amount.amount) ∧
            (o.amount.amount ≠ d.currentSupply mia →
              settled = o.amount.amount * b.settlementPrice.quote.amount / b.settlementPrice.base.amount ∧
              settled * b.settlementPrice.base.amount ≤ pays * b.settlementPrice.quote.amount ∧ pays ≤ o.amount.amount) ∧
            d'.bitasset mia = some { b with settlementFund := b.settlementFund - settled } ∧
            d'.currentSupply mia = d.currentSupply mia - pays ∧
            ∀ owner a, d'.getBalance owner a = d.getBalance owner a + if o.account = owner then
              Asset.of ⟨settled, b.options.shortBackingAsset⟩ a - Asset.of ⟨pays, mia⟩ a - o.fee.of a else 0 := by
  have hd := h.lawful
  refine ⟨fun d₀ d₁ p hd₀ hsettle => ?_, fun b hb hsettled hfund => ?_⟩
  · obtain ⟨b, hsettles⟩ := globallySettleAsset_settles hsettle hd₀
    have hbitasset := hsettles.bitasset_eq mia
    rw [if_pos rfl, hsettles.bitasset, Option.map_some] at hbitasset
    exact ⟨_, hbitasset, by rw [hsettles.supply_eq]⟩
  · have hbacks := hd.settled mia b hb hsettled
    refine ⟨hbacks.backed, ⟨fun hzero => ?_, hbacks.empty⟩, ?_⟩
    · have hbacked := hbacks.backed
      rw [hzero, zero_mul] at hbacked
      exact le_antisymm (nonpos_of_mul_nonpos_left hbacked hfund) hbacks.supply_nonneg
    · rintro fuel o rfl
      refine ⟨applyOperation_settle_ne hd, fun d' happly => ?_⟩
      obtain ⟨paid, d₁, d₂, haccepted, hpaid, -, heval, h₁, h₂, h₃⟩ := applyOperation_eq_ok happly
      obtain ⟨hfee, hcore⟩ := prepareFee_eq_ok hpaid
      have m := takeFee_moves h₁ (hfee ▸ hcore)
      have m' := adjustBalance_moves h₃
      have hd₁ : d₁.Consistent := hd.toConsistent.deals (t := none) m.deals fun a => by simp
      have hb₁ : d₁.bitasset o.amount.assetId = some b := by rw [m.bitasset, hb]
      have hsupply₁ : d₁.currentSupply o.amount.assetId = d.currentSupply o.amount.assetId := by
        simpa [put_ne, amount] using m.amounts .supply o.amount.assetId
      have hle : o.amount.amount ≤ d₁.currentSupply o.amount.assetId := by
        obtain ⟨b', hb', hbalance⟩ := evaluateAssetSettle_eq_ok heval
        rw [hsupply₁]
        exact hbalance.trans (getBalance_le_supply hd.toConsistent hb' (hd.worth _ b' hb'))
      simp only [doApply, applyAssetSettle, bind_eq_ok, getBitasset_eq_ok] at h₂
      obtain ⟨b', hb', h₂⟩ := h₂
      obtain rfl : b = b' := Option.some.inj (hb₁.symm.trans hb')
      rw [if_pos hsettled] at h₂
      have hbacks₁ := hd₁.settled _ b hb₁ hsettled
      obtain ⟨settled, pays, hamount, hout⟩ := settleFromFund_paysOut h₂ hd₁ hb₁ hsettled haccepted hle
      obtain ⟨hnonneg, -⟩ := settledAmount_bears hamount hbacks₁ rfl haccepted hle
      have hcredits := ((Credits.of_balances (takeFee_balances h₁)).trans (settleFromFund_credits h₂ hamount hnonneg)).trans
        (adjustBalance_credits h₃)
      have hassets : b.settlementPrice.base.assetId ≠ b.settlementPrice.quote.assetId := by
        rw [hbacks.base, hbacks.quote]
        exact hbacks.assets
      obtain ⟨hasset, hpays, hcases⟩ := settledAmount_cases hamount hbacks.base.symm hassets haccepted hbacks.quote_nonneg
        hbacks.base_pos.le
      rw [hsupply₁] at hcases
      refine ⟨settled.amount, pays.amount, fun hwhole => ?_, fun hpart => ?_, ?_, ?_, fun owner a => ?_⟩
      · rcases hcases with ⟨-, hall, rfl⟩ | ⟨hpart, -⟩
        · exact ⟨hall, rfl⟩
        · exact absurd hwhole hpart
      · rcases hcases with ⟨hwhole, -⟩ | ⟨-, hvalue, -, hcost, -, hpays_le⟩
        · exact absurd hwhole hpart
        · obtain ⟨-, -, hdown, hup⟩ := mul_of_base hvalue hbacks.base.symm haccepted hbacks.quote_nonneg
          refine ⟨?_, hcost, hpays_le⟩
          have hge := (Int.le_ediv_iff_mul_le hbacks.base_pos).mpr hdown
          have hlt := (Int.ediv_lt_iff_lt_mul hbacks.base_pos).mpr hup
          omega
      · rw [m'.bitasset, hout.bitasset, if_pos rfl]
      · have hsupply₂ := hout.supply_eq o.amount.assetId
        have hsupply' : d'.currentSupply o.amount.assetId = d₂.currentSupply o.amount.assetId := by
          simpa [put_ne, amount] using m'.amounts .supply o.amount.assetId
        rw [hsupply', hsupply₂, hsupply₁, Asset.of, if_pos rfl]
      · rw [hcredits owner a]
        have hof : settled.of = Asset.of ⟨settled.amount, b.options.shortBackingAsset⟩ := by
          rw [Asset.of_mk (hasset.trans hbacks.quote)]
        have hof' : pays.of = Asset.of ⟨pays.amount, o.amount.assetId⟩ := by rw [Asset.of_mk hpays]
        simp only [Pi.add_apply, Pi.zero_apply, credit_apply, Asset.of_neg, hof, hof', hfee]
        show _ = _ + (if o.account = owner then _ else 0)
        by_cases howner : o.account = owner
        · have hpayer : (Operation.assetSettle o).feePayer = owner := howner
          rw [if_pos howner, if_pos howner, if_pos howner, if_pos hpayer]
          show _ + (0 + (_ + _) + -o.fee.of a) = _
          ring
        · have hpayer : (Operation.assetSettle o).feePayer ≠ owner := howner
          rw [if_neg howner, if_neg howner, if_neg howner, if_neg hpayer]
          ring

/-- Of 2500 that 3750 of the core asset back, account 0 has settled 8 for 12. -/
theorem settlementFund_solvent_settled : ∃ d b, [publish ⟨⟨1, 1⟩, ⟨1, 0⟩⟩ 1500, borrow 0 2000 1000, borrow 1 3000 1500,
    ⟨20, .operation (.assetGlobalSettle ⟨⟨0, 0⟩, 3, 1, ⟨⟨2, 1⟩, ⟨3, 0⟩⟩⟩)⟩, ⟨20, .operation (.assetSettle ⟨⟨0, 0⟩, 0, ⟨8, 1⟩⟩)⟩].foldlM
      step fresh = some d ∧ d.bitasset 1 = some b ∧ b.settlementFund = 3738 ∧ d.currentSupply 1 = 2492 ∧
    d.currentSupply 1 * b.settlementPrice.quote.amount ≤ b.settlementFund * b.settlementPrice.base.amount ∧
    (b.settlementFund = 0 ↔ d.currentSupply 1 = 0) ∧
    d.applyOperation 20 (.assetSettle ⟨⟨0, 0⟩, 0, ⟨7, 1⟩⟩) ≠ .error .fundTooSmall := by
  have hrun : ([publish ⟨⟨1, 1⟩, ⟨1, 0⟩⟩ 1500, borrow 0 2000 1000, borrow 1 3000 1500,
      ⟨20, .operation (.assetGlobalSettle ⟨⟨0, 0⟩, 3, 1, ⟨⟨2, 1⟩, ⟨3, 0⟩⟩⟩)⟩, ⟨20, .operation (.assetSettle ⟨⟨0, 0⟩, 0, ⟨8, 1⟩⟩)⟩].foldlM
        step fresh).any fun d => (d.bitasset 1).any fun b => b.hasSettlement ∧ 0 < b.settlementPrice.quote.amount ∧
          b.settlementFund = 3738 ∧ d.currentSupply 1 = 2492 := by
    decide +kernel
  obtain ⟨d, hd, hrun⟩ := (Option.any_eq_true _ _).mp hrun
  obtain ⟨b, hb, hstate⟩ := (Option.any_eq_true _ _).mp hrun
  obtain ⟨hsettled, hpos, hfund, hsupply⟩ := of_decide_eq_true hstate
  obtain ⟨hbacked, hempty, hsettle⟩ := (settlementFund_solvent (.of_foldlM fresh_genesis hd) 1).2 b hb hsettled hpos
  exact ⟨d, b, hd, hb, hfund, hsupply, hbacked, hempty, (hsettle 20 ⟨⟨0, 0⟩, 0, ⟨7, 1⟩⟩ rfl).1⟩

end Database

end Khc.Market
