import Khc.Market.Deals
import Khc.Market.Products

/-! What cancelling, culling and filling an order comes to: what is left of the order, and where its funds go. -/

namespace Khc.Market

open Lib
open Chain (Asset Price AccountId AssetId)

namespace Database

section
variable {t : Option Nat} {d d' : Database} {order : LimitOrder} {gone : Bool}

/-! ### Cancelled and culled orders -/

theorem coreCancelFee_nonneg (d : Database) (order : LimitOrder) (op : Bool) : 0 ≤ d.coreCancelFee order op := by
  unfold coreCancelFee
  split
  · exact le_min (d.parameters.currentFees_nonneg _) order.deferredFee_nonneg
  · exact le_refl 0

theorem paidCancelFee_nonneg {fee : Int} (hfee : 0 ≤ fee) : 0 ≤ paidCancelFee order fee := by
  unfold paidCancelFee
  rcases order.deferredFee_nonneg.eq_or_lt with hzero | hpos
  · simp [← hzero]
  · have := Int.mul_nonneg order.deferredPaidFee_nonneg hfee
    exact Int.ediv_nonneg (by omega) hpos.le

/-- An order is taken out when what it held is elsewhere. -/
theorem removed_of_moves (m : Moves d d' (put .total order.holds - put (.uncounted order.seller) order.amountForSale.core.of))
    (hfind : d.findLimitOrder order.id = some order) :
    Deals t d (d'.removeLimitOrder order.id) 0 ∧
      (d'.removeLimitOrder order.id).limitOrders = d.limitOrders.eraseP (·.id = order.id) ∧
      (d'.removeLimitOrder order.id).callOrders = d.callOrders := by
  have hfind' := hfind
  rw [findLimitOrder, ← m.limitOrders] at hfind'
  refine ⟨(m.deals.trans (removeLimitOrder_deals hfind')).congr ?_, ?_, m.callOrders⟩
  · abel
  · rw [removeLimitOrder, m.limitOrders]

/-- A cancelled order gives back what it held. -/
theorem cancelLimitOrder_deals {op : Bool} (h : d.cancelLimitOrder order op = .ok d')
    (hfind : d.findLimitOrder order.id = some order) :
    Deals t d d' 0 ∧ d'.limitOrders = d.limitOrders.eraseP (·.id = order.id) ∧ d'.callOrders = d.callOrders := by
  have hfee := d.coreCancelFee_nonneg order op
  simp only [cancelLimitOrder, bind_eq_ok, pure_eq_ok] at h
  obtain ⟨d₁, h₁, d₂, h₂, d₃, h₃, d₄, h₄, d₅, h₅, rfl⟩ := h
  generalize d.coreCancelFee order op = fee at *
  -- what of the originally paid fee goes with the cancellation
  generalize hpaid : (if fee > 0 then paidCancelFee order fee else 0) = paidFee at *
  have hpaid' : 0 ≤ paidFee := by
    rw [← hpaid]
    split
    · exact paidCancelFee_nonneg hfee
    · exact le_refl 0
  have m₁ := Moves.ite h₁ fun _ => payFee_moves
  have m₂ := Moves.ite h₂ fun _ h => accumulateFees_moves h (.inl hpaid')
  have m₃ := adjustCoreInOrders_moves h₃
  have m₄ := adjustBalance_moves h₄
  have hcharged : (if fee > 0 then put .total (Asset.of ⟨fee, 0⟩) else 0) = put .total (Asset.of ⟨fee, 0⟩) :=
    put_ite (x := ⟨fee, 0⟩) hfee
  rw [hcharged] at m₁
  refine removed_of_moves (Moves.andThen ?_ pushIf_moves) hfind
  have m := ((m₁.trans m₂).trans m₃).trans m₄
  split at h₅
  · rename_i hnone
    refine (m.trans (adjustBalance_moves h₅)).congr ?_
    have hholds : order.holds = Asset.of ⟨fee, 0⟩ + order.amountForSale.of + Asset.of ⟨order.deferredFee - fee, 0⟩ := by
      funext a
      rw [LimitOrder.holds, Asset.of_eq_zero hnone, Pi.add_apply, Pi.add_apply, Asset.of_sub]
      ring
    have hcond : ¬(fee > 0 ∧ order.deferredPaidFee.amount ≠ 0) := fun h => h.2 hnone
    rw [hholds, if_neg hcond, Asset.neg_core, put_neg, put_add, put_add]
    abel
  · rename_i hsome
    obtain ⟨d₆, h₆, h₅⟩ := bind_eq_ok.mp h₅
    refine ((m.trans (adjustBalance_moves h₆)).trans (fundFeePool_moves h₅)).congr ?_
    have hholds : order.holds = Asset.of ⟨fee, 0⟩ + Asset.of ⟨paidFee, order.deferredPaidFee.assetId⟩ + order.amountForSale.of +
        Asset.of ⟨order.deferredPaidFee.amount - paidFee, order.deferredPaidFee.assetId⟩ +
        Asset.of ⟨order.deferredFee - fee, 0⟩ := by
      funext a
      simp only [LimitOrder.holds, Pi.add_apply, Asset.of_sub]
      ring
    have hfees : (if fee > 0 ∧ order.deferredPaidFee.amount ≠ 0 then
        put .total (Asset.of ⟨paidFee, order.deferredPaidFee.assetId⟩) else 0) =
        put .total (Asset.of ⟨paidFee, order.deferredPaidFee.assetId⟩) := by
      split
      · rfl
      · rename_i hcond
        have hzero : paidFee = 0 := by
          rw [← hpaid, if_neg fun hpos => hcond ⟨hpos, hsome⟩]
        have hnone : Asset.of ⟨paidFee, order.deferredPaidFee.assetId⟩ = 0 := funext fun a => Asset.of_eq_zero hzero
        rw [hnone, put_zero]
    rw [hholds, hfees, Asset.neg_core, put_neg, put_add, put_add, put_add, put_add]
    abel

theorem amountToReceive_eq_zero {r : Asset} (h : order.amountToReceive = .ok r) : r.amount = 0 ↔ ¬order.Worthwhile := by
  rcases mul_eq_ok h with ⟨-, h⟩ | ⟨hne, -, -⟩
  · obtain ⟨-, -, hamount⟩ := convert_eq_ok h
    rw [hamount, Nat.add_zero, Int.natCast_eq_zero, ← not_ne_iff]
    exact not_congr (toNat_div_ne_zero order.valid.base_pos order.valid.quote_pos.le)
  · exact absurd rfl hne

/-- An order is culled when it would receive nothing at its own price. -/
theorem maybeCullSmallOrder_cases (h : d.maybeCullSmallOrder order = .ok (gone, d')) :
    (gone = true ∧ d.cancelLimitOrder order true = .ok d' ∧ ¬order.Worthwhile) ∨ (gone = false ∧ d' = d ∧ order.Worthwhile) := by
  simp only [maybeCullSmallOrder, bind_eq_ok] at h
  obtain ⟨receives, hreceives, h⟩ := h
  split at h
  · rename_i hnone
    simp only [bind_eq_ok, pure_eq_ok, Prod.mk.injEq] at h
    obtain ⟨d₁, h₁, rfl, rfl⟩ := h
    exact .inl ⟨rfl, h₁, (amountToReceive_eq_zero hreceives).mp hnone⟩
  · rename_i hsome
    simp only [pure_eq_ok, Prod.mk.injEq] at h
    obtain ⟨rfl, rfl⟩ := h
    exact .inr ⟨rfl, rfl, not_not.mp fun hnot => hsome ((amountToReceive_eq_zero hreceives).mpr hnot)⟩

/-! ### Market fees -/

theorem calculateMarketFee_nonneg (a : AssetObject) (x : Asset) : 0 ≤ (calculateMarketFee a x).amount := by
  unfold calculateMarketFee
  split
  · exact le_refl 0
  · split
    · exact le_refl 0
    · show 0 ≤ ite _ _ _
      split
      · exact a.maxMarketFee_nonneg
      · exact Int.natCast_nonneg _

theorem calculateMarketFee_assetId (a : AssetObject) (x : Asset) : (calculateMarketFee a x).assetId = x.assetId := by
  unfold calculateMarketFee
  split
  · rfl
  · split <;> rfl

theorem payMarketFees_moves {a : AssetObject} {receives fees : Asset} (h : d.payMarketFees a receives = .ok (fees, d')) :
    Moves d d' (put .total fees.of) ∧ fees.assetId = receives.assetId := by
  simp only [payMarketFees, bind_eq_ok, pure_eq_ok, Prod.mk.injEq] at h
  obtain ⟨d₁, h₁, rfl, rfl⟩ := h
  have hfee := calculateMarketFee_nonneg a receives
  refine ⟨(Moves.ite h₁ fun _ h => accumulateFees_moves h (.inl hfee)).congr ?_, calculateMarketFee_assetId a receives⟩
  rw [put_ite hfee]

/-! ### Fills -/

theorem payOrder_moves {owner : AccountId} {receives pays : Asset} (h : d.payOrder owner receives pays = .ok d') :
    Moves d d' (put .total receives.of - put (.uncounted owner) pays.core.of) := by
  simp only [payOrder, bind_eq_ok] at h
  obtain ⟨d₁, h₁, h⟩ := h
  refine ((adjustCoreInOrders_moves h₁).trans (adjustBalance_moves h)).congr ?_
  rw [Asset.neg_core, put_neg]
  abel

/-- What a limit order and its seller get from a fill, before the order itself is reduced -/
theorem fillLimitOrder_cases {pays receives : Asset} {cull maker : Bool} {p : Price}
    (h : d.fillLimitOrder order pays receives cull p maker = .ok (gone, d')) :
    order.sellAssetId = pays.assetId ∧
      ∃ d₁, Moves d d₁ (put .total (receives.of + Asset.of ⟨order.deferredFee, 0⟩ + order.deferredPaidFee.of) -
          put (.uncounted order.seller) pays.core.of) ∧
        ((pays = order.amountForSale ∧ gone = true ∧ d' = d₁.removeLimitOrder order.id) ∨
          (pays ≠ order.amountForSale ∧ cull = false ∧ gone = false ∧ d' = d₁.setLimitOrder (soldOff order pays)) ∨
          (pays ≠ order.amountForSale ∧ cull = true ∧
            (d₁.setLimitOrder (soldOff order pays)).maybeCullSmallOrder (soldOff order pays) = .ok (gone, d'))) := by
  simp only [fillLimitOrder, bind_eq_ok, fcAssert_eq_ok] at h
  obtain ⟨-, hsell, -, -, -, -, recvAsset, -, ⟨fees, d₁⟩, h₁, d₂, h₂, d₃, h₃, d₄, h₄, h⟩ := h
  obtain ⟨m₁, hfees⟩ := payMarketFees_moves h₁
  have m₂ := payOrder_moves h₂
  have m₃ := Moves.ite h₃ fun _ => payFee_moves
  have m₄ := Moves.ite h₄ fun hc h => accumulateFees_moves h (.inl hc.le)
  refine ⟨hsell, d₄, ((((m₁.trans m₂).andThen (pushAppliedOperation_moves _)).trans m₃).trans m₄).congr ?_, ?_⟩
  · have hdeferred := put_ite (q := .total) (x := ⟨order.deferredFee, 0⟩) order.deferredFee_nonneg
    have hpaid := put_ite (q := .total) order.deferredPaidFee_nonneg
    have hreceives : receives.of = fees.of + Asset.of ⟨receives.amount - fees.amount, receives.assetId⟩ := by
      funext a
      rw [Pi.add_apply, Asset.of_sub, Asset.of_mk hfees, add_sub_cancel]
    simp only [hdeferred, hpaid, hreceives, put_add]
    abel
  · split at h
    · rename_i hall
      obtain ⟨rfl, rfl⟩ := Prod.mk.inj (pure_eq_ok.mp h)
      exact .inl ⟨hall, rfl, rfl⟩
    · rename_i hpart
      cases cull with
      | false =>
        obtain ⟨rfl, rfl⟩ := Prod.mk.inj (pure_eq_ok.mp h)
        exact .inr (.inl ⟨hpart, rfl, rfl, rfl⟩)
      | true => exact .inr (.inr ⟨hpart, rfl, h⟩)

/-- A limit order receives what it is filled with and gives away what it pays. -/
theorem fillLimitOrder_deals {pays receives : Asset} {cull maker : Bool} {p : Price}
    (h : d.fillLimitOrder order pays receives cull p maker = .ok (gone, d'))
    (hfind : d.findLimitOrder order.id = some order) (hpays : pays.amount ≤ order.forSale)
    (htaker : cull = false → t = some order.id) :
    Deals t d d' (put .total (receives.of - pays.of)) ∧ d'.callOrders = d.callOrders ∧
      ((gone = true ∧ d'.limitOrders = d.limitOrders.eraseP (·.id = order.id)) ∨
        (gone = false ∧ d'.limitOrders = updateFirst (·.id = order.id) (fun _ => soldOff order pays) d.limitOrders)) := by
  obtain ⟨hsell, d₁, m, hcases⟩ := fillLimitOrder_cases h
  have hfind₁ : d₁.findLimitOrder order.id = some order := by rwa [findLimitOrder, m.limitOrders]
  have hsold : order.amountForSale.of = pays.of + (soldOff order pays).amountForSale.of := by
    funext a
    show _ = _ + Asset.of ⟨order.forSale - pays.amount, order.sellAssetId⟩ a
    rw [Asset.of_sub, Asset.of_mk hsell.symm, add_sub_cancel]
    rfl
  have hholds : (soldOff order pays).holds = order.holds - pays.of - Asset.of ⟨order.deferredFee, 0⟩ - order.deferredPaidFee.of := by
    funext a
    have hsold' := congrFun hsold a
    have hnone : (soldOff order pays).holds a = (soldOff order pays).amountForSale.of a := by
      simp [LimitOrder.holds, soldOff]
    rw [hnone]
    simp only [Pi.add_apply, Pi.sub_apply, LimitOrder.holds] at hsold' ⊢
    rw [hsold']
    ring
  have hsale : pays ≠ order.amountForSale → 0 < (soldOff order pays).forSale := by
    intro hpart
    have hne : pays.amount ≠ order.forSale := by
      intro hall
      exact hpart (by rw [LimitOrder.amountForSale, hsell, ← hall])
    show 0 < order.forSale - pays.amount
    omega
  have hset : ∀ t, pays ≠ order.amountForSale → (some order.id ≠ t → (soldOff order pays).Worthwhile) →
      Deals t d (d₁.setLimitOrder (soldOff order pays)) (put .total (receives.of - pays.of)) := by
    intro t hpart hworth
    have hrest : (soldOff order pays).RestOf t order := .inr ⟨rfl, rfl, hsale hpart, hworth⟩
    refine (m.deals.trans (setLimitOrder_deals (soldOff order pays) hfind₁ hrest rfl)).congr ?_
    rw [hholds, Asset.core_eq_add hsold]
    simp only [put_add, put_sub]
    abel
  have hlimits : (d₁.setLimitOrder (soldOff order pays)).limitOrders =
      updateFirst (·.id = order.id) (fun _ => soldOff order pays) d.limitOrders := by
    rw [setLimitOrder, m.limitOrders]
    rfl
  rcases hcases with ⟨hall, rfl, rfl⟩ | ⟨hpart, rfl, rfl, rfl⟩ | ⟨hpart, rfl, hcull⟩
  · refine ⟨(m.deals.trans (removeLimitOrder_deals hfind₁)).congr ?_, m.callOrders,
      .inl ⟨rfl, by rw [removeLimitOrder, m.limitOrders]⟩⟩
    have hholds' : order.holds = order.amountForSale.of + Asset.of ⟨order.deferredFee, 0⟩ + order.deferredPaidFee.of := rfl
    rw [hholds', hall]
    simp only [put_add, put_sub]
    abel
  · exact ⟨hset t hpart fun hne => absurd (htaker rfl).symm hne, m.callOrders, .inr ⟨rfl, hlimits⟩⟩
  · rcases maybeCullSmallOrder_cases hcull with ⟨rfl, hcancel, -⟩ | ⟨rfl, rfl, hworth⟩
    · -- the rest of the order is not worthwhile, and does not stay
      have hdeals := hset (some order.id) hpart fun hne => absurd rfl hne
      obtain ⟨hcancelled, herase, hcalls⟩ := cancelLimitOrder_deals (t := some order.id) hcancel (by
        rw [findLimitOrder, hlimits]
        exact (find?_updateFirst_key fun _ _ => rfl).trans (congrArg (Option.map _) hfind))
      have hlimits' : d'.limitOrders = d.limitOrders.eraseP (·.id = order.id) := by
        rw [herase, hlimits]
        exact eraseP_updateFirst_key fun _ _ => rfl
      exact ⟨((hdeals.trans hcancelled).erased hlimits').congr (add_zero _), hcalls.trans m.callOrders,
        .inl ⟨rfl, hlimits'⟩⟩
    · exact ⟨hset t hpart fun _ => hworth, m.callOrders, .inr ⟨rfl, hlimits⟩⟩

/-- A call order gives away what it pays and, when its debt is covered, the rest of its collateral; debt and supply go
    together. -/
theorem fillCallOrder_deals {c : CallOrder} {pays receives : Asset} {maker : Bool} {p : Price}
    (h : d.fillCallOrder c pays receives p maker = .ok (gone, d')) (hd : d.Sound) (hc : c ∈ d.callOrders)
    (hreceives : receives.amount ≤ c.debt) :
    (∃ freed : Asset, Deals t d d' (put .total freed.of - put .collateral (pays.of + freed.of) -
      put .supply receives.of - put .debt receives.of)) ∧ d'.limitOrders = d.limitOrders ∧
      d'.settlements = d.settlements ∧ (gone = true ↔ receives.amount = c.debt) ∧
      (gone = true → d'.callOrders = d.callOrders.eraseP (·.id = c.id)) := by
  have hfind : d.findCallOrder c.id = some c := hd.calls.find?_of_mem hc
  simp only [fillCallOrder, bind_eq_ok, fcAssert_eq_ok, safe_eq_ok, pure_eq_ok, Prod.mk.injEq] at h
  obtain ⟨-, hdebt, -, hcoll, -, henough, mia, hmia, debt, ⟨-, rfl⟩, collateral, ⟨-, rfl⟩, d₁, h₁, d₂, h₂, d₃, h₃, d₄, h₄,
    d₅, h₅, rfl, rfl⟩ := h
  have hlater := ((Moves.ite h₃ fun _ => adjustBalance_moves).trans (Moves.ite h₄ fun _ => adjustCoreInOrders_moves)).trans
    (adjustCoreInOrders_moves h₅)
  have hsupply := changeSupply_deals (t := t) h₂
  have hkept : d₅.limitOrders = d₁.limitOrders ∧ d₅.settlements = d₁.settlements ∧ d₅.callOrders = d₁.callOrders := by
    rw [hlater.limitOrders, hlater.settlements, hlater.callOrders, changeSupply_same h₂]
    exact ⟨rfl, rfl, rfl⟩
  have hdebts : c.getDebt.of = receives.of + Asset.of ⟨c.debt - receives.amount, c.debtType⟩ := by
    funext a
    rw [Pi.add_apply, Asset.of_sub, CallOrder.getDebt, hdebt, add_sub_cancel]
  have hsecured : c.getCollateral.of = pays.of + Asset.of ⟨c.collateral - pays.amount, c.collateralType⟩ := by
    funext a
    rw [Pi.add_apply, Asset.of_sub, CallOrder.getCollateral, hcoll, add_sub_cancel]
  by_cases hfilled : c.debt - receives.amount = 0
  · rw [if_pos hfilled] at h₁
    obtain rfl := Except.ok.inj h₁
    refine ⟨⟨⟨c.collateral - pays.amount, c.collateralType⟩, ?_⟩, hkept.1, hkept.2.1, ?_, fun _ => hkept.2.2⟩
    · refine ((((removeCallOrder_deals hfind).trans hsupply).trans hlater.deals).trans
        (pushAppliedOperation_moves _).deals).congr ?_
      have hnone : Asset.of ⟨c.debt - receives.amount, c.debtType⟩ = 0 := funext fun a => Asset.of_eq_zero hfilled
      have hfreed : Asset.core ⟨-(c.collateral - pays.amount), c.collateralType⟩ =
          (Asset.neg ⟨c.collateral - pays.amount, c.collateralType⟩).core := rfl
      rw [hdebts, hnone, Asset.core_eq_add hsecured, hsecured]
      simp only [hfilled, if_true, hfreed, Asset.neg_of, Asset.neg_core, put_neg, put_add, add_zero]
      abel
    · simp only [hfilled, decide_true, true_iff]
      omega
  · rw [if_neg hfilled] at h₁
    obtain ⟨callPrice, hprice, h₁⟩ := bind_eq_ok.mp h₁
    obtain rfl := Except.ok.inj h₁
    refine ⟨⟨⟨0, 0⟩, ?_⟩, hkept.1, hkept.2.1, ?_, ?_⟩
    · obtain ⟨(hbase : callPrice.base.assetId = c.collateralType), (hquote : callPrice.quote.assetId = c.debtType),
        (hne : c.collateral - pays.amount ≠ 0)⟩ := callPrice_assets hprice
      have hpos : 0 < c.debt - receives.amount := by omega
      have hpos' : 0 < c.collateral - pays.amount := by omega
      have hpriced := callPrice_bounded hprice hpos hpos' (hd.feeds _ _ (getBitasset_eq_ok.mp hmia)).median.ratio_pos
      refine ((((setCallOrder_deals { c with debt := _, collateral := _, callPrice } hfind
        (.inr ⟨rfl, hquote, hbase, hpos, hpos', hpriced⟩) rfl).trans hsupply).trans hlater.deals).trans
        (pushAppliedOperation_moves _).deals).congr ?_
      have hdebt' : Asset.of ⟨c.debt - receives.amount, callPrice.quote.assetId⟩ = c.getDebt.of - receives.of := by
        rw [hdebts, hquote, add_sub_cancel_left]
      have hcoll' : c.getCollateral.of = pays.of + Asset.of ⟨c.collateral - pays.amount, callPrice.base.assetId⟩ := by
        rw [hsecured, hbase]
      have hnone : (⟨0, 0⟩ : Asset).of = 0 := funext fun _ => Asset.of_zero
      show put .collateral (Asset.of ⟨c.collateral - pays.amount, callPrice.base.assetId⟩) - _ +
        (put .debt (Asset.of ⟨c.debt - receives.amount, callPrice.quote.assetId⟩) - _) +
        (_ - put _ (Asset.core ⟨c.collateral - pays.amount, callPrice.base.assetId⟩).of) + _ + _ + _ = _
      rw [hdebt', Asset.core_eq_add hcoll', hcoll', hnone]
      simp only [hfilled, if_false, Asset.neg_of, Asset.neg_core, put_neg, put_zero, put_add, put_sub, add_zero]
      abel
    · simp only [hfilled, decide_false, Bool.false_eq_true, false_iff]
      omega
    · simp [hfilled]

/-! ### Settlement requests -/

theorem cancelSettleOrder_deals {r : ForceSettlement} (h : d.cancelSettleOrder r = .ok d')
    (hfind : d.findSettlement r.id = some r) :
    Deals t d d' (put .total r.balance.of - put .requested r.balance.of) ∧ d'.limitOrders = d.limitOrders ∧
      d'.callOrders = d.callOrders := by
  simp only [cancelSettleOrder, bind_eq_ok, pure_eq_ok] at h
  obtain ⟨d₁, h₁, rfl⟩ := h
  have m := (adjustBalance_moves h₁).andThen
    (pushAppliedOperation_moves (.assetSettleCancel r.id r.owner r.balance))
  refine ⟨(m.deals.trans (removeSettlement_deals ?_)).congr ?_, m.limitOrders, m.callOrders⟩
  · rwa [findSettlement, m.settlements]
  · rw [put_neg, sub_eq_add_neg]

/-- A settlement request receives what it is filled with and gives away what it pays. -/
theorem fillSettleOrder_deals {r : ForceSettlement} {pays receives : Asset} {maker : Bool} {p : Price}
    (h : d.fillSettleOrder r pays receives p maker = .ok (gone, d')) (hfind : d.findSettlement r.id = some r)
    (hpays : pays.amount ≤ r.balance.amount) :
    Deals t d d' (put .total receives.of - put .requested pays.of) ∧ d'.limitOrders = d.limitOrders ∧
      d'.callOrders = d.callOrders := by
  simp only [fillSettleOrder, bind_eq_ok, fcAssert_eq_ok, pure_eq_ok, Prod.mk.injEq] at h
  obtain ⟨recvAsset, -, ⟨fees, d₁⟩, h₁, -, hasset, d₂, h₂, rfl, rfl⟩ := h
  obtain ⟨m₁, hfees⟩ := payMarketFees_moves h₁
  have m₂ := adjustBalance_moves h₂
  have hpaid : receives.of = fees.of + Asset.of ⟨receives.amount - fees.amount, receives.assetId⟩ := by
    funext a
    rw [Pi.add_apply, Asset.of_sub, Asset.of_mk hfees, add_sub_cancel]
  by_cases hfilled : ¬pays.amount < r.balance.amount
  · simp only [hfilled, not_false_eq_true, if_true] at m₂ ⊢
    have m := (m₁.trans m₂).andThen (pushAppliedOperation_moves
      (.fillOrder (.settlement r.id) r.owner pays receives fees p maker))
    refine ⟨(m.deals.trans (removeSettlement_deals ?_)).congr ?_, m.limitOrders, m.callOrders⟩
    · rwa [findSettlement, m.settlements]
    · have hall : r.balance = pays := Asset.eq_of (by omega) hasset.symm
      rw [hpaid, hall, put_add, put_neg]
      abel
  · simp only [hfilled, if_false] at m₂ ⊢
    have m := m₂.andThen (pushAppliedOperation_moves
      (.fillOrder (.settlement r.id) r.owner pays receives fees p maker))
    have hfind₁ : d₁.findSettlement r.id = some r := by rwa [findSettlement, m₁.settlements]
    have hrest : 0 ≤ r.balance.amount - pays.amount := by omega
    refine ⟨((m₁.deals.trans (setSettlement_deals { r with balance := ⟨r.balance.amount - pays.amount, _⟩ } hfind₁
      (.inr ⟨rfl, rfl, hrest⟩))).trans m.deals).congr ?_, m.limitOrders.trans m₁.limitOrders,
      m.callOrders.trans m₁.callOrders⟩
    have hleft : Asset.of ⟨r.balance.amount - pays.amount, r.balance.assetId⟩ = r.balance.of - pays.of := by
      funext a
      rw [Pi.sub_apply, Asset.of_sub, Asset.of_mk hasset]
    show _ + (put .requested (Asset.of ⟨r.balance.amount - pays.amount, r.balance.assetId⟩) - _) + _ = _
    rw [hleft, hpaid, put_add, put_sub]
    abel

end

end Database

end Khc.Market
