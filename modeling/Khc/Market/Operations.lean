import Khc.Market.Loops
import Khc.Market.Revived
import Khc.Market.Payouts

/-! The operations of the market keep what holds in every state, and what all holdings are worth. -/

namespace Khc.Market

open Lib
open Chain (Asset Price AccountId AssetId)

namespace Database

section
variable {fuel : Nat} {d d' : Database} {mia : AssetId} {b : BitassetData}

/-! ### Call orders -/

/-- What a borrower gets and gives when its call order changes -/
theorem borrow_moves {o : CallOrderUpdate} (h : (if o.deltaCollateral.amount ≠ 0 then do
      let d ← d.adjustBalance o.fundingAccount o.deltaCollateral.neg
      d.adjustCoreInOrders o.fundingAccount o.deltaCollateral
    else .ok d) = Except.ok d') :
    Moves d d' (put (.uncounted o.fundingAccount) o.deltaCollateral.core.of - put .total o.deltaCollateral.of) := by
  split at h
  · obtain ⟨d₁, h₁, h⟩ := bind_eq_ok.mp h
    refine ((adjustBalance_moves h₁).trans (adjustCoreInOrders_moves h)).congr ?_
    rw [Asset.neg_of, put_neg]
    abel
  · rename_i hzero
    obtain rfl := Except.ok.inj h
    rw [not_not] at hzero
    have hnone : o.deltaCollateral.of = 0 := funext fun a => Asset.of_eq_zero hzero
    have hnone' : o.deltaCollateral.core.of = 0 := funext fun a => Asset.of_eq_zero (Asset.of_eq_zero hzero)
    rw [hnone, hnone', put_zero, put_zero, sub_zero]
    exact .refl

/-- The supply goes up and down with the debt. -/
theorem mint_deals {o : CallOrderUpdate} (h : (if o.deltaDebt.amount ≠ 0 then do
      let d ← d.adjustBalance o.fundingAccount o.deltaDebt
      let d ← d.changeSupply o.deltaDebt
      fcAssert ((← d.getDynamicData o.deltaDebt.assetId).currentSupply ≥ 0) .callOrderUpdate
      .ok d
    else .ok d) = Except.ok d') :
    Deals none d d' (put .total o.deltaDebt.of + put .supply o.deltaDebt.of) ∧ d'.callOrders = d.callOrders := by
  split at h
  · simp only [bind_eq_ok, fcAssert_eq_ok] at h
    obtain ⟨d₁, h₁, d₂, h₂, _, -, -, -, h⟩ := h
    obtain rfl := Except.ok.inj h
    have m := adjustBalance_moves h₁
    refine ⟨m.deals.trans (changeSupply_deals h₂), ?_⟩
    rw [changeSupply_same h₂]
    exact m.callOrders
  · rename_i hzero
    obtain rfl := Except.ok.inj h
    rw [not_not] at hzero
    have hnone : o.deltaDebt.of = 0 := funext fun a => Asset.of_eq_zero hzero
    rw [hnone, put_zero, put_zero, add_zero]
    exact ⟨.refl, rfl⟩

/-- An order is placed that is new, or an order of the account is changed. -/
theorem placeCallOrder_cases {o : CallOrderUpdate} {call : CallOrder} {old : Option CallOrder}
    (h : d.placeCallOrder o b = .ok (call, old, d')) :
    (0 < o.deltaCollateral.amount ∧ 0 < o.deltaDebt.amount ∧ ∃ p,
      callPrice o.deltaDebt o.deltaCollateral b.currentFeed.maintenanceCollateralRatio = .ok p ∧
      call = ⟨d.nextCallOrder, o.fundingAccount, o.deltaCollateral.amount, o.deltaDebt.amount, p, o.targetCollateralRatio⟩ ∧
      d.createCallOrder call = .ok d') ∨
    ∃ c ∈ d.callOrders, old = some c ∧ c.borrower = o.fundingAccount ∧ c.debtType = o.deltaDebt.assetId ∧
      updatedCallOrder c o b.currentFeed.maintenanceCollateralRatio = .ok call ∧ d' = d.setCallOrder call := by
  unfold placeCallOrder at h
  dsimp only at h
  split at h
  · simp only [bind_eq_ok, fcAssert_eq_ok, pure_eq_ok, Prod.mk.injEq] at h
    obtain ⟨-, hcoll, -, hdebt, p, hp, d₁, h₁, rfl, -, rfl⟩ := h
    exact .inl ⟨hcoll, hdebt, p, hp, rfl, h₁⟩
  · rename_i c hc
    simp only [bind_eq_ok, pure_eq_ok, Prod.mk.injEq] at h
    obtain ⟨call', hupdated, rfl, rfl, rfl⟩ := h
    have hfound := List.find?_some hc
    simp only [Bool.decide_and, Bool.and_eq_true, decide_eq_true_eq] at hfound
    exact .inr ⟨c, List.mem_of_find?_eq_some hc, rfl, hfound.1, hfound.2, hupdated, rfl⟩

theorem updatedCallOrder_eq_ok {c call : CallOrder} {o : CallOrderUpdate} {mcr : Nat}
    (h : updatedCallOrder c o mcr = .ok call) :
    call.id = c.id ∧ call.borrower = c.borrower ∧ call.collateral = c.collateral + o.deltaCollateral.amount ∧
      call.debt = c.debt + o.deltaDebt.amount ∧ (0 < call.debt →
        callPrice ⟨call.debt, c.debtType⟩ ⟨call.collateral, c.collateralType⟩ mcr = .ok call.callPrice) := by
  simp only [updatedCallOrder, bind_eq_ok, safe_eq_ok, pure_eq_ok] at h
  obtain ⟨_, ⟨-, rfl⟩, _, ⟨-, rfl⟩, p, hp, rfl⟩ := h
  refine ⟨rfl, rfl, rfl, rfl, fun hpos => ?_⟩
  rwa [if_pos hpos] at hp

theorem checkUpdatedCall_preserves {call : CallOrder} {old : Option CallOrder}
    (h : d.checkUpdatedCall fuel mia call old = .ok d') (hd : d.Consistent) : Preserves d d' := by
  simp only [checkUpdatedCall, bind_eq_ok] at h
  obtain ⟨b, -, ⟨called, d₁⟩, h₁, h⟩ := h
  have hpreserves := checkCallOrders_preserves h₁ hd
  cases called with
  | true =>
    simp only [if_true, bind_eq_ok, pure_eq_ok] at h
    obtain ⟨-, -, rfl⟩ := h
    exact hpreserves
  | false =>
    simp only [Bool.false_eq_true, if_false] at h
    split at h
    · exact (throw_ne_ok.mp h).elim
    · simp only [bind_eq_ok, pure_eq_ok] at h
      obtain ⟨-, -, rfl⟩ := h
      exact hpreserves

/-- A placed call order that owes something takes over what its owner has got and given. -/
theorem placeCallOrder_consistent {o : CallOrderUpdate} {call : CallOrder} {old : Option CallOrder} {d₁ : Database} {F : Shift}
    (f : Deals none d d₁ F) (hF : F = put .total o.deltaDebt.of + put .supply o.deltaDebt.of +
      (put (.uncounted o.fundingAccount) o.deltaCollateral.core.of - put .total o.deltaCollateral.of))
    (hd : d.Consistent) (hb : d.bitasset o.deltaDebt.assetId = some b) (hlive : ¬b.hasSettlement)
    (hbacking : o.deltaCollateral.assetId = b.options.shortBackingAsset)
    (h : d₁.placeCallOrder o b = .ok (call, old, d')) (hpos : 0 < call.collateral ∧ 0 < call.debt) : Preserves d d' := by
  have hd₁ := f.sound hd.toSound
  have hratio := (hd.feeds _ b hb).median.ratio_pos
  have hb₁ : d₁.bitasset o.deltaDebt.assetId = some b := by rw [f.bitasset, hb]
  rcases placeCallOrder_cases h with ⟨hcoll, hdebt, p, hp, rfl, hcreate⟩ | ⟨c, hc, -, hborrower, hdebtType, hupdated, rfl⟩
  · obtain ⟨hcreated, hchanges, hsound⟩ := createCallOrder_changes hcreate
    obtain ⟨hbase, hquote, -⟩ := callPrice_assets hp
    have hcoll' : (CallOrder.getCollateral ⟨d₁.nextCallOrder, o.fundingAccount, o.deltaCollateral.amount, o.deltaDebt.amount, p,
        o.targetCollateralRatio⟩) = o.deltaCollateral := Asset.eq_of rfl hbase
    have hdebt' : (CallOrder.getDebt ⟨d₁.nextCallOrder, o.fundingAccount, o.deltaCollateral.amount, o.deltaDebt.amount, p,
        o.targetCollateralRatio⟩) = o.deltaDebt := Asset.eq_of rfl hquote
    rw [hcoll', hdebt'] at hchanges
    have hall := Changes.trans f.amounts hchanges
    have hs : d'.Sound := hsound hd₁ hdebt hcoll (callPrice_bounded hp hdebt hcoll hratio)
      ⟨b, by rw [CallOrder.debtType, hquote, hb₁], by rw [CallOrder.collateralType, hbase, hbacking]⟩
    refine ⟨hd.changes hs hall (fun a => ?_) (fun a => ?_) fun c hc b' hb' hsettled => ?_,
      keeps_of_amounts hall (fun a => ?_) fun account => ?_, ?_, fun a => ?_⟩
    · rw [hF]
      simp
    · rw [hcreated]
      exact f.bitasset a
    · rw [hcreated] at hc
      rcases List.mem_append.mp hc with hc | hc
      · obtain ⟨c', hc', hrest⟩ := exists_of_sublistForall₂ f.calls hc
        exact ⟨c', hc', hrest.debtType_eq.symm⟩
      · rw [List.mem_singleton.mp hc, CallOrder.debtType, hquote, hb] at hb'
        cases hb'
        exact absurd hsettled hlive
    · rw [hF]
      simp
    · rw [hF]
      simp
    · rw [hcreated]
      exact f.limits
    · rw [hcreated]
      exact congrArg _ (f.bitasset a)
  · obtain ⟨hid, hborrower', hcoll, hdebt, hprice⟩ := updatedCallOrder_eq_ok hupdated
    have hprice' := hprice hpos.2
    obtain ⟨hbase, hquote, -⟩ := callPrice_assets hprice'
    have hback : c.collateralType = o.deltaCollateral.assetId := by
      rw [hd₁.assets hc (hdebtType ▸ hb₁), hbacking]
    have hcoll' : call.getCollateral.of = c.getCollateral.of + o.deltaCollateral.of := by
      funext a
      rw [CallOrder.getCollateral, CallOrder.collateralType, hbase, hcoll, Asset.of_add, hback, Pi.add_apply, CallOrder.getCollateral,
        hback]
    have hdebt' : call.getDebt.of = c.getDebt.of + o.deltaDebt.of := by
      funext a
      rw [CallOrder.getDebt, CallOrder.debtType, hquote, hdebt, Asset.of_add, hdebtType, Pi.add_apply, CallOrder.getDebt, hdebtType]
    have hset := setCallOrder_deals (t := none) call (hid ▸ hd₁.calls.find?_of_mem hc : d₁.findCallOrder call.id = some c)
      (.inr ⟨hid, hquote, hbase, hpos.2, hpos.1, callPrice_bounded hprice' hpos.2 hpos.1 hratio⟩) hborrower'
    rw [Asset.core_eq_add hcoll', hcoll', hdebt', hborrower] at hset
    refine Trades.preserves ⟨_, f.trans hset, ⟨fun a => ?_, fun a => ?_, fun account => ?_⟩⟩ hd
    · rw [hF]
      simp
    · rw [hF]
      simp
    · rw [hF]
      simp only [miscount_add, miscount_sub, miscount_put, Pi.add_apply]
      split <;> ring

theorem applyCallOrderUpdate_preserves {o : CallOrderUpdate} (h : d.applyCallOrderUpdate fuel o = .ok d') (hd : d.Consistent)
    (hb : d.bitasset o.deltaDebt.assetId = some b) (hlive : ¬b.hasSettlement)
    (hbacking : o.deltaCollateral.assetId = b.options.shortBackingAsset) : Preserves d d' := by
  simp only [applyCallOrderUpdate, bind_eq_ok, getBitasset_eq_ok] at h
  obtain ⟨b', hb', d₁, h₁, d₂, h₂, ⟨call, old, d₃⟩, h₃, h⟩ := h
  obtain rfl : b = b' := Option.some.inj (hb.symm.trans hb')
  obtain ⟨f₁, hcalls₁⟩ := mint_deals h₁
  have f₂ := f₁.trans (borrow_moves h₂).deals
  split at h
  · rename_i hnone
    simp only [bind_eq_ok, fcAssert_eq_ok, pure_eq_ok] at h
    obtain ⟨-, hempty, rfl⟩ := h
    replace hnone : call.debt = 0 := hnone
    have hd₂ := f₂.sound hd.toSound
    rcases placeCallOrder_cases h₃ with ⟨-, hdebt, p, -, rfl, -⟩ | ⟨c, hc, -, hborrower, hdebtType, hupdated, rfl⟩
    · exact absurd hnone hdebt.ne'
    · -- the order has paid its debt and got its collateral back
      obtain ⟨hid, -, hcoll, hdebt, -⟩ := updatedCallOrder_eq_ok hupdated
      have hback : c.collateralType = o.deltaCollateral.assetId := by
        rw [hd₂.assets hc (by rw [hdebtType, f₂.bitasset, hb]), hbacking]
      have hcoll' : c.getCollateral = o.deltaCollateral.neg :=
        Asset.eq_of (show c.collateral = -o.deltaCollateral.amount by omega) hback
      have hdebt' : c.getDebt = o.deltaDebt.neg :=
        Asset.eq_of (show c.debt = -o.deltaDebt.amount by omega) hdebtType
      have hremove := removeCallOrder_deals (t := none) (hd₂.calls.find?_of_mem hc : d₂.findCallOrder c.id = some c)
      have hsame : (d₂.setCallOrder call).removeCallOrder call.id = d₂.removeCallOrder c.id := by
        simp only [setCallOrder, removeCallOrder, hid]
        congr 1
        exact eraseP_updateFirst_key fun _ _ => hid
      rw [hsame]
      rw [hcoll', hdebt', hborrower, Asset.neg_core, Asset.neg_of, Asset.neg_of, put_neg, put_neg, put_neg] at hremove
      exact Trades.preserves ⟨_, f₂.trans hremove, ⟨fun a => by simp, fun a => by simp, fun account => by simp⟩⟩ hd
  · simp only [bind_eq_ok, fcAssert_eq_ok] at h
    obtain ⟨-, hpos, h⟩ := h
    have hpreserves := placeCallOrder_consistent f₂ rfl hd hb hlive hbacking h₃ hpos
    split at h
    · cases pure_eq_ok.mp h
      exact hpreserves
    · exact hpreserves.trans (checkUpdatedCall_preserves h hpreserves.consistent)

/-! ### Collateral bids -/

theorem applyBidCollateral_preserves {o : BidCollateral} (h : d.applyBidCollateral o = .ok d') (hd : d.Consistent)
    (haccepted : (Operation.bidCollateral o).Accepted) (hb : d.bitasset o.debtCovered.assetId = some b)
    (hbacking : o.additionalCollateral.assetId = b.options.shortBackingAsset) : Preserves d d' := by
  simp only [applyBidCollateral, bind_eq_ok] at h
  obtain ⟨d₁, h₁, h⟩ := h
  have hcancelled : ∃ F, Redeems d d₁ F ∧ F.Fair ∧ d₁.callOrders = d.callOrders := by
    split at h₁
    · rename_i bid hbid
      obtain ⟨hredeems, hcalls, -⟩ := cancelBid_redeems h₁ hd.toSound (List.mem_of_find?_eq_some hbid)
      exact ⟨_, hredeems, ⟨fun a => by simp, fun a => by simp, fun account => by simp⟩, hcalls⟩
    · cases h₁
      exact ⟨0, .refl hd.toSound, .zero, rfl⟩
  obtain ⟨F, hredeems, hfair, hcalls⟩ := hcancelled
  have hd₁ : Preserves d d₁ := by
    refine ⟨hd.changes hredeems.sound hredeems.changes hfair.uncovered (fun a => ?_) fun c hc _ _ _ => ⟨c, hcalls ▸ hc, rfl⟩,
      keeps_of_amounts hredeems.changes hfair.worth hfair.counted, ?_, fun a => ?_⟩
    · rw [Database.bitasset, Database.bitasset, hredeems.bitassets]
    · rw [hredeems.same]
      exact Std.Refl.refl _
    · rw [Database.bitasset, Database.bitasset, hredeems.bitassets]
  split at h
  · cases pure_eq_ok.mp h
    exact hd₁
  · rename_i hdebt
    obtain ⟨hdebt', hcoll⟩ := haccepted.resolve_left hdebt
    simp only [bind_eq_ok, mkPrice, fcAssert_eq_ok, pure_eq_ok] at h
    obtain ⟨d₂, h₂, price, ⟨-, -, hprice⟩, ⟨bid, d₃⟩, h₃, hbid⟩ := h
    subst hprice hbid
    have m := adjustBalance_moves h₂
    obtain ⟨heq, hcreated, hchanges, hsound, -⟩ := createBid_changes h₃
    have hd₂ := (m.deals (t := none)).sound hd₁.consistent.toSound
    have hb₂ : d₂.bitasset o.debtCovered.assetId = some b := by
      rw [(m.deals (t := none)).bitasset, Database.bitasset, hredeems.bitassets]
      exact hb
    have hd₃ : d₃.Sound := hsound hd₂ (by
      rw [heq]
      exact ⟨hcoll.le, hdebt', b, hb₂, hbacking.symm⟩)
    have hall := Changes.trans m.amounts hchanges
    refine hd₁.trans ⟨hd₁.consistent.changes hd₃ hall (fun a => by simp) (fun a => ?_) fun c hc _ _ _ => ⟨c, ?_, rfl⟩,
      keeps_of_amounts hall (fun a => by simp) (fun account => by simp), ?_, fun a => ?_⟩
    · rw [hcreated]
      exact (m.deals (t := none)).bitasset a
    · rw [hcreated, m.callOrders] at hc
      exact hc
    · rw [hcreated, m.limitOrders]
      exact Std.Refl.refl _
    · rw [hcreated]
      exact congrArg _ ((m.deals (t := none)).bitasset a)

/-! ### Settlements -/

/-- What a holder pays and gets keeps the fund worth the supply. -/
theorem settleFromFund_preserves {o : AssetSettle} (h : d.settleFromFund o b = .ok d') (hd : d.Consistent)
    (hb : d.bitasset o.amount.assetId = some b) (hsettled : b.hasSettlement) (hpos : 0 ≤ o.amount.amount)
    (hamount : o.amount.amount ≤ d.currentSupply o.amount.assetId) : Preserves d d' := by
  obtain ⟨settled, pays, hpaid, hout⟩ := settleFromFund_paysOut h hd hb hsettled hpos hamount
  obtain ⟨-, hfund, -, hpays, hcost, hempty⟩ := settledAmount_bears hpaid (hd.settled _ b hb hsettled) rfl hpos hamount
  exact hout.preserves hd hb hsettled hfund (hpays.trans hamount) hcost hempty

theorem applyAssetSettle_preserves {o : AssetSettle} (h : d.applyAssetSettle o = .ok d') (hd : d.Consistent)
    (hpos : 0 ≤ o.amount.amount)
    (hamount : ∀ b, d.bitasset o.amount.assetId = some b → b.hasSettlement → o.amount.amount ≤ d.currentSupply o.amount.assetId) :
    Preserves d d' := by
  simp only [applyAssetSettle, bind_eq_ok, getBitasset_eq_ok] at h
  obtain ⟨b, hb, h⟩ := h
  split at h
  · rename_i hsettled
    exact settleFromFund_preserves h hd hb hsettled hpos (hamount b hb hsettled)
  · obtain ⟨d₁, h₁, h⟩ := bind_eq_ok.mp h
    cases pure_eq_ok.mp h
    have m := adjustBalance_moves h₁
    have hd₁ := (m.deals (t := none)).sound hd.toSound
    have hchanges : Changes d₁ { d₁ with
        settlements := d₁.settlements ++ [⟨d₁.nextSettlement, o.account, o.amount, d₁.headBlockTime + b.options.forceSettlementDelaySec⟩]
        nextSettlement := d₁.nextSettlement + 1 } (put .requested o.amount.of) := by
      refine amount_put (fun a => ?_) fun q hq a => ?_
      · simp [amount, requested]
      · cases q <;> first | rfl | exact absurd rfl hq
    have hall := Changes.trans m.amounts hchanges
    have hsound : Sound { d₁ with
        settlements := d₁.settlements ++ [⟨d₁.nextSettlement, o.account, o.amount, d₁.headBlockTime + b.options.forceSettlementDelaySec⟩]
        nextSettlement := d₁.nextSettlement + 1 } := { hd₁ with
      solvent := ⟨hd₁.solvent.balances, hd₁.solvent.fees⟩
      secured := fun c hc => { hd₁.secured c hc with }
      requests := hd₁.requests.snoc rfl
      requests_nonneg := fun s hs => by
        rcases List.mem_append.mp hs with hs | hs
        · exact hd₁.requests_nonneg s hs
        · rw [List.mem_singleton.mp hs]
          exact hpos
      bidden := fun x hx => { hd₁.bidden x hx with } }
    refine ⟨hd.changes hsound hall (fun a => by simp) (m.deals (t := none)).bitasset fun c hc _ _ _ => ⟨c, m.callOrders ▸ hc, rfl⟩,
      keeps_of_amounts hall (fun a => by simp) (fun account => by simp), m.limitOrders ▸ Std.Refl.refl _,
      fun a => congrArg _ ((m.deals (t := none)).bitasset a)⟩

/-! ### Limit orders -/

theorem Matches.assets {t : LimitOrder} {m : Option CallMarket} {l : List (Database × Price)} (h : Matches d d' t m l)
    (hd : d.Sound) : ∀ c ∈ m, c.callMatchPrice.base.assetId ≠ c.callMatchPrice.quote.assetId :=
  fun _ hc => (callMarket_meets (hc ▸ h.market) hd).valid.assets

theorem Matches.trades {t : LimitOrder} {m : Option CallMarket} {l : List (Database × Price)} (h : Matches d d' t m l)
    (hd : d.Sound) : Trades (some t.id) d d' := h.rounds.trades hd (h.assets hd)

/-- A new order trades with the orders that it meets. -/
theorem applyOrder_trades {t : LimitOrder} {gone : Bool} (h : d.applyOrder fuel t = .ok (gone, d')) (hd : d.Sound)
    (ht : t ∈ d.limitOrders) : Trades (some t.id) d d' := by
  rcases applyOrder_cases h hd ht with ⟨-, -, rfl⟩ | ⟨-, m, l, d₁, hmatches, hrest⟩
  · exact .refl
  · have htrades := hmatches.trades hd
    rcases hrest with ⟨-, -, rfl⟩ | ⟨o, ho, hcull⟩
    · exact htrades
    · rcases maybeCullSmallOrder_cases hcull with ⟨-, hcancel, -⟩ | ⟨-, rfl, -⟩
      · rw [← id_of_findLimitOrder ho] at ho
        exact htrades.trans ((cancelLimitOrder_deals hcancel ho).1.trades .zero)
      · exact htrades

/-- What a new order holds is taken from its seller, but for the fee. -/
theorem createLimitOrder_changes {t : LimitOrder} (hd : d.Sound) (hid : t.id = d.nextLimitOrder) (hsale : 0 < t.forSale) :
    Changes d (d.createLimitOrder t) (put .total t.holds - put (.uncounted t.seller) t.amountForSale.core.of) ∧
      (d.createLimitOrder t).Sound := by
  refine ⟨fun q a => ?_, { hd with
    solvent := ⟨hd.solvent.balances, hd.solvent.fees⟩
    limits := hd.limits.snoc hid
    forSale := fun o ho => ?_
    secured := fun c hc => { hd.secured c hc with }
    bidden := fun b hb => { hd.bidden b hb with } }⟩
  · cases q with
    | total =>
      rw [Pi.sub_apply, Pi.sub_apply, put_self, put_ne (by simp), sub_zero]
      simp only [amount, total, liquid, createLimitOrder, List.map_append, List.sum_append, List.map_cons, List.map_nil,
        List.sum_cons, List.sum_nil, add_zero, ← add_assoc]
      rfl
    | uncounted account =>
      rw [Pi.sub_apply, Pi.sub_apply, put_core, put_ne (by simp), zero_sub, ← sub_eq_add_neg, amount, amount, ← Asset.of_sub]
      simp only [coreInOrders, totalCoreInOrders, createLimitOrder, List.map_append, List.sum_append, List.map_cons, List.map_nil,
        List.sum_cons, List.sum_nil, add_zero, LimitOrder.commits]
      congr 2
      ring
    | _ =>
      simp [put_ne]
      rfl
  · rcases List.mem_append.mp ho with ho | ho
    · exact hd.forSale o ho
    · rw [List.mem_singleton.mp ho]
      exact hsale

/-- The book has a new order, whose seller has paid for it. -/
structure Creates (d d' : Database) (o : LimitOrderCreate) (paid : PaidFee) (t : LimitOrder) : Prop where
  same : d' = { d with
    statistics := d'.statistics, balances := d'.balances, dynamicData := d'.dynamicData, applied := d'.applied,
    limitOrders := d.limitOrders ++ [t], nextLimitOrder := d.nextLimitOrder + 1 }
  price : t.sellPrice = o.price
  sale : t.forSale = o.amountToSell.amount
  paidFee : t.deferredPaidFee = if paid.fee.assetId = 0 then ⟨0, 0⟩ else paid.fee
  changes : Changes d d' (put .total (Asset.of ⟨paid.core, 0⟩) + put .total t.deferredPaidFee.of)
  sound : d'.Sound

/-- A new order takes from its seller what it sells. -/
theorem createLimitOrder_creates {o : LimitOrderCreate} {paid : PaidFee} {d₁ d₂ : Database} (valid : o.price.Valid)
    (h₁ : d.adjustCoreInOrders o.seller o.amountToSell = .ok d₁) (h₂ : d₁.adjustBalance o.seller o.amountToSell.neg = .ok d₂) (hd : d.Sound) :
    Creates d (d₂.createLimitOrder (d₂.newLimitOrder o paid valid)) o paid (d₂.newLimitOrder o paid valid) := by
  have m : Moves d d₂ (put (.uncounted o.seller) o.amountToSell.core.of - put .total o.amountToSell.of) := by
    refine ((adjustCoreInOrders_moves h₁).trans (adjustBalance_moves h₂)).congr ?_
    rw [Asset.neg_of, put_neg, sub_eq_add_neg]
  have hd₂ := (m.deals (t := none)).sound hd
  obtain ⟨hcreated, hsound⟩ := createLimitOrder_changes (t := d₂.newLimitOrder o paid valid) hd₂ rfl valid.base_pos
  refine ⟨?_, rfl, rfl, rfl, fun q a => ?_, hsound⟩
  · rw [createLimitOrder, m.same]
  · rw [Changes.trans m.amounts hcreated q a]
    have hholds : (d₂.newLimitOrder o paid valid).holds = o.amountToSell.of + Asset.of ⟨paid.core, 0⟩ +
        (d₂.newLimitOrder o paid valid).deferredPaidFee.of := rfl
    have hsale : (d₂.newLimitOrder o paid valid).amountForSale = o.amountToSell := rfl
    rw [hholds, hsale, put_add, put_add]
    simp only [Pi.add_apply, Pi.sub_apply, newLimitOrder]
    ring

theorem applyLimitOrderCreate_creates {o : LimitOrderCreate} {paid : PaidFee} (h : d.applyLimitOrderCreate fuel o paid = .ok d')
    (hd : d.Sound) : ∃ t d₁ gone, Creates d d₁ o paid t ∧ d₁.applyOrder fuel t = .ok (gone, d') := by
  unfold applyLimitOrderCreate at h
  split at h
  · rename_i valid
    simp only [bind_eq_ok, fcAssert_eq_ok, pure_eq_ok] at h
    obtain ⟨d₁, h₁, d₂, h₂, ⟨gone, d₃⟩, h₃, -, -, rfl⟩ := h
    exact ⟨_, _, gone, createLimitOrder_creates valid h₁ h₂ hd, h₃⟩
  · exact (throw_ne_ok.mp h).elim

theorem Creates.consistent {d₁ : Database} {o : LimitOrderCreate} {paid : PaidFee} {t : LimitOrder} (h : Creates d d₁ o paid t)
    (hd : d.Consistent) : d₁.Consistent := by
  refine hd.changes h.sound h.changes (fun a => by simp) (fun a => ?_) fun c hc _ _ _ => ⟨c, ?_, rfl⟩
  · rw [h.same]
    rfl
  · rw [h.same] at hc
    exact hc

theorem applyLimitOrderCancel_preserves {o : LimitOrderCancel} (h : d.applyLimitOrderCancel o = .ok d') (hd : d.Consistent) :
    Preserves d d' := by
  simp only [applyLimitOrderCancel, bind_eq_ok, getLimitOrder_eq_ok] at h
  obtain ⟨order, horder, h⟩ := h
  rw [← id_of_findLimitOrder horder] at horder
  exact ((cancelLimitOrder_deals h horder).1.trades .zero).preserves hd

/-! ### Fees and feeds -/

theorem applyAssetClaimFees_preserves {o : AssetClaimFees} (h : d.applyAssetClaimFees o = .ok d') (hd : d.Consistent) :
    Preserves d d' := by
  simp only [applyAssetClaimFees, getDynamicData, bind_eq_ok, fcAssert_eq_ok, lookup_eq_ok] at h
  obtain ⟨dyn, hdyn, -, hclaim, d₁, h₁, h⟩ := h
  have hfees : -o.amountToClaim.neg.amount ≤ d.accumulatedFees o.amountToClaim.neg.assetId := by
    simpa [Asset.neg, accumulatedFees, hdyn] using hclaim
  have m := (accumulateFees_moves h₁ (.inr hfees)).trans (adjustBalance_moves h)
  exact Trades.preserves ⟨_, m.deals, ⟨fun a => by simp, fun a => by simp, fun account => by simp⟩⟩ hd

/-- A new median feed -/
theorem feed_preserves {feed : PriceFeed} (hd : d.Consistent) (hb : d.bitasset mia = some b) (hmedian : feed.IsMedianFor mia)
    (hquote : ¬feed.settlementPrice.isNull → feed.settlementPrice.quote.assetId = b.options.shortBackingAsset) :
    Preserves d (d.modifyBitasset mia fun b => { b with currentFeed := feed }) :=
  modifyBitasset_preserves hd hb rfl rfl rfl ⟨hmedian, hquote⟩

theorem applyAssetPublishFeed_preserves {o : AssetPublishFeed} (h : d.applyAssetPublishFeed fuel o = .ok d') (hd : d.Consistent)
    (hmedian : o.feed.IsMedianFor o.assetId) (hb : d.bitasset o.assetId = some b)
    (hquote : ¬o.feed.settlementPrice.isNull → o.feed.settlementPrice.quote.assetId = b.options.shortBackingAsset) :
    Preserves d d' := by
  have hfeed := feed_preserves hd hb hmedian hquote
  simp only [applyAssetPublishFeed, bind_eq_ok, getBitasset_eq_ok] at h
  obtain ⟨old, -, h⟩ := h
  split at h
  · cases pure_eq_ok.mp h
    exact hfeed
  · simp only [bind_eq_ok, getBitasset_eq_ok, pure_eq_ok] at h
    obtain ⟨bad, hbad, d₁, h₁, ⟨called, d₂⟩, h₂, rfl⟩ := h
    have hrevived : Preserves d d₁ := by
      refine hfeed.trans ?_
      split at h₁
      · simp only [bind_eq_ok] at h₁
        obtain ⟨dyn, -, revive, -, h₁⟩ := h₁
        split at h₁
        · exact reviveBitasset_preserves h₁ hfeed.consistent
        · cases h₁
          exact .refl hfeed.consistent
      · cases h₁
        exact .refl hfeed.consistent
    exact hrevived.trans (checkCallOrders_preserves h₂ hrevived.consistent)

/-! ### Fees -/

theorem prepareFee_eq_ok {account : AccountId} {fee : Asset} {paid : PaidFee} (h : d.prepareFee account fee = .ok paid) :
    paid.fee = fee ∧ (fee.assetId = 0 → paid.core = fee.amount) := by
  unfold prepareFee at h
  split at h
  · simp only [bind_eq_ok, fcAssert_eq_ok] at h
    obtain ⟨payer, -, -, -, feeAsset, -, dyn, -, -, -, h⟩ := h
    split at h
    · cases h
      exact ⟨rfl, fun _ => rfl⟩
    · rename_i hcore
      split at h
      · cases h
      · simp only [bind_eq_ok, fcAssert_eq_ok] at h
        obtain ⟨-, -, -, -, h⟩ := h
        cases h
        exact ⟨rfl, fun hzero => absurd hzero hcore⟩
  · exact (throw_ne_ok.mp h).elim

variable {paid : PaidFee}

/-- The fee is with the asset's fees and the pool, or with the fees that are not yet distributed. -/
theorem takeFee_moves {payer : AccountId} (h : d.takeFee payer paid = .ok d') (hcore : paid.fee.assetId = 0 → paid.core = paid.fee.amount) :
    Moves d d' (put .total paid.fee.of) := by
  simp only [takeFee, bind_eq_ok] at h
  obtain ⟨d₁, h₁, h⟩ := h
  have m := payFee_moves h
  split at h₁
  · rename_i hzero
    cases h₁
    rwa [hcore hzero, Asset.of_mk hzero] at m
  · obtain ⟨d₂, h₂, h₁⟩ := bind_eq_ok.mp h₁
    refine (((accumulateFees_moves h₂ (.inl paid.fee_nonneg)).trans (fundFeePool_moves h₁)).trans m).congr ?_
    have hneg : Asset.of ⟨-paid.core, 0⟩ = -Asset.of ⟨paid.core, 0⟩ := Asset.neg_of (x := ⟨paid.core, 0⟩)
    rw [hneg, put_neg]
    abel

/-- The pool has paid what a fee of another asset is worth. -/
theorem convertDeferredFee_moves (h : d.convertDeferredFee paid = .ok d') :
    Moves d d' (put .total (Asset.of ⟨if paid.fee.assetId = 0 then 0 else -paid.core, 0⟩)) := by
  unfold convertDeferredFee at h
  split at h
  · rename_i hzero
    cases h
    have hnone : Asset.of ⟨0, 0⟩ = 0 := funext fun _ => Asset.of_zero
    rw [if_pos hzero, hnone, put_zero]
    exact .refl
  · rename_i hzero
    rw [if_neg hzero]
    exact fundFeePool_moves h

/-! ### Balances and supplies -/

theorem getBalance_le_balancesOf {owner : AccountId} (hd : d.Solvent) : d.getBalance owner mia ≤ d.balancesOf mia := by
  have hnonneg : ∀ x ∈ d.balances.map fun b => Asset.of ⟨b.balance, b.assetType⟩ mia, 0 ≤ x := by
    intro x hx
    obtain ⟨b, hb, rfl⟩ := List.mem_map.mp hx
    exact Asset.of_nonneg (hd.balances b hb)
  unfold getBalance
  cases hfind : d.balances.find? (AccountBalance.isOf owner mia) with
  | none => exact List.sum_nonneg hnonneg
  | some b =>
    have hof := List.find?_some hfind
    simp only [AccountBalance.isOf, Bool.decide_and, Bool.and_eq_true, decide_eq_true_eq] at hof
    have hle := List.single_le_sum hnonneg _ (List.mem_map_of_mem (List.mem_of_find?_eq_some hfind))
    rwa [Asset.of, if_pos hof.2] at hle

/-- Nobody has more of a market-issued asset than there is, as long as all of it is worth its supply. -/
theorem getBalance_le_supply {owner : AccountId} (hd : d.Consistent) (hb : d.bitasset mia = some b) (hworth : d.worth mia = 0) :
    d.getBalance owner mia ≤ d.currentSupply mia := by
  have hne : mia ≠ 0 := by
    rintro rfl
    rw [hd.core] at hb
    cases hb
  have hbalances : d.getBalance owner mia ≤ d.balancesOf mia := getBalance_le_balancesOf hd.solvent
  have hfees : 0 ≤ d.accumulatedFees mia := by
    unfold accumulatedFees
    cases hdyn : d.dynamicData[mia]? with
    | none => exact le_refl 0
    | some x => exact hd.solvent.fees x (List.mem_of_getElem? hdyn)
  have hholds : 0 ≤ (d.limitOrders.map (LimitOrder.holds · mia)).sum := by
    refine List.sum_nonneg fun x hx => ?_
    obtain ⟨o, ho, rfl⟩ := List.mem_map.mp hx
    have hsale := Asset.of_nonneg (x := o.amountForSale) (a := mia) (hd.forSale o ho).le
    have hfee := Asset.of_nonneg (x := ⟨o.deferredFee, 0⟩) (a := mia) o.deferredFee_nonneg
    have hpaid := Asset.of_nonneg (a := mia) o.deferredPaidFee_nonneg
    exact add_nonneg (add_nonneg hsale hfee) hpaid
  have hcollateral : 0 ≤ d.collateral mia := by
    refine List.sum_nonneg fun x hx => ?_
    obtain ⟨c, hc, rfl⟩ := List.mem_map.mp hx
    exact Asset.of_nonneg (hd.secured c hc).collateral.le
  have hrequested : 0 ≤ d.requested mia := by
    refine List.sum_nonneg fun x hx => ?_
    obtain ⟨r, hr, rfl⟩ := List.mem_map.mp hx
    exact Asset.of_nonneg (hd.requests_nonneg r hr)
  have hbidden : 0 ≤ d.bidden mia := by
    refine List.sum_nonneg fun x hx => ?_
    obtain ⟨y, hy, rfl⟩ := List.mem_map.mp hx
    exact Asset.of_nonneg (hd.bidden y hy).collateral
  have hfunds : 0 ≤ d.funds mia := by
    refine List.sum_nonneg fun x hx => ?_
    obtain ⟨y, hy, rfl⟩ := List.mem_map.mp hx
    cases y with
    | none => exact le_refl 0
    | some y =>
      obtain ⟨a, ha⟩ := List.mem_iff_getElem?.mp hy
      have hy' : d.bitasset a = some y := by rw [bitasset, ha, Option.join_some]
      refine Asset.of_nonneg ?_
      by_cases hsettled : y.hasSettlement
      · exact (hd.settled a y hy' hsettled).fund_nonneg
      · exact (hd.live a y hy' hsettled).fund.ge
  have hnone : Asset.of ⟨d.feePools + d.pendingFees, 0⟩ mia = 0 := if_neg hne.symm
  simp only [worth, Shift.worth, amount, total, liquid, hnone, add_zero] at hworth
  omega

/-! ### Operations -/

theorem evaluateAssetSettle_eq_ok {o : AssetSettle} (h : d.evaluateAssetSettle o = .ok ()) :
    ∃ b, d.bitasset o.amount.assetId = some b ∧ o.amount.amount ≤ d.getBalance o.account o.amount.assetId := by
  simp only [evaluateAssetSettle, bind_eq_ok, fcAssert_eq_ok, getBitasset_eq_ok] at h
  obtain ⟨-, -, b, hb, -, -, h⟩ := h
  refine ⟨b, hb, ?_⟩
  split at h
  · simp only [bind_eq_ok, fcAssert_eq_ok] at h
    obtain ⟨-, -, -, -, hbalance⟩ := h
    exact hbalance
  · simp only [bind_eq_ok, fcAssert_eq_ok] at h
    obtain ⟨-, -, -, -, hbalance⟩ := h
    exact hbalance

/-- An operation other than the creation of a limit order -/
theorem doApply_preserves {op : Operation} {d₁ : Database} {F : Shift} (heval : d.doEvaluate op = .ok ()) (haccepted : op.Accepted)
    (m : Moves d d₁ F) (h : d₁.doApply fuel op paid = .ok d') (hd : d.Consistent) (hd₁ : d₁.Consistent)
    (hsupply : ∀ a, d₁.currentSupply a = d.currentSupply a) (hworth : ∀ mia b, d.bitasset mia = some b → d.worth mia = 0)
    (hop : ∀ o, op ≠ .limitOrderCreate o) : Preserves d₁ d' := by
  have hsame := (m.deals (t := none)).bitasset
  cases op with
  | limitOrderCreate o => exact absurd rfl (hop o)
  | limitOrderCancel o => exact applyLimitOrderCancel_preserves h hd₁
  | callOrderUpdate o =>
    simp only [doEvaluate, evaluateCallOrderUpdate, bind_eq_ok, fcAssert_eq_ok, getBitasset_eq_ok] at heval
    obtain ⟨-, -, b, hb, -, hlive, -, hbacking, -⟩ := heval
    exact applyCallOrderUpdate_preserves h hd₁ (hsame _ ▸ hb) hlive hbacking
  | bidCollateral o =>
    simp only [doEvaluate, evaluateBidCollateral, bind_eq_ok, fcAssert_eq_ok, getBitasset_eq_ok] at heval
    obtain ⟨-, -, b, hb, -, -, -, hbacking, -⟩ := heval
    exact applyBidCollateral_preserves h hd₁ haccepted (hsame _ ▸ hb) hbacking
  | assetSettle o =>
    obtain ⟨b, hb, hbalance⟩ := evaluateAssetSettle_eq_ok heval
    refine applyAssetSettle_preserves h hd₁ haccepted fun b' _ _ => ?_
    rw [hsupply]
    exact hbalance.trans (getBalance_le_supply hd hb (hworth _ b hb))
  | assetGlobalSettle o =>
    simp only [doEvaluate, evaluateAssetGlobalSettle, getDynamicData, bind_eq_ok, fcAssert_eq_ok, getBitasset_eq_ok,
      lookup_eq_ok] at heval
    obtain ⟨-, -, b, -, -, -, -, -, dyn, hdyn, -, hpos, -⟩ := heval
    obtain ⟨b', hsettles⟩ := globallySettleAsset_settles h hd₁.toSound
    refine hsettles.preserves hd₁ ?_
    rw [hsupply, currentSupply, hdyn]
    exact hpos
  | assetClaimFees o => exact applyAssetClaimFees_preserves h hd₁
  | assetPublishFeed o =>
    simp only [doEvaluate, evaluateAssetPublishFeed, bind_eq_ok, fcAssert_eq_ok, getBitasset_eq_ok] at heval
    obtain ⟨-, -, b, hb, -, -, hquote⟩ := heval
    exact applyAssetPublishFeed_preserves h hd₁ haccepted (hsame _ ▸ hb) hquote

/-- The parts of an operation: its fee is prepared and paid, it is applied, and the payer pays. -/
theorem applyOperation_eq_ok {op : Operation} (h : d.applyOperation fuel op = .ok d') :
    ∃ paid d₁ d₂, op.Accepted ∧ d.prepareFee op.feePayer op.fee = .ok paid ∧ d.parameters.currentFees op ≤ paid.core ∧
      d.doEvaluate op = .ok () ∧ d.convertAndPayFee op paid = .ok d₁ ∧ d₁.doApply fuel op paid = .ok d₂ ∧
      d₂.adjustBalance op.feePayer paid.fee.neg = .ok d' := by
  simp only [applyOperation, bind_eq_ok, fcAssert_eq_ok] at h
  obtain ⟨-, haccepted, paid, hpaid, -, hfee, ⟨⟩, heval, d₁, h₁, d₂, h₂, h⟩ := h
  exact ⟨paid, d₁, d₂, haccepted, hpaid, hfee, heval, h₁, h₂, h⟩

theorem applyOperation_preserves {op : Operation} (h : d.applyOperation fuel op = .ok d') (hd : d.Consistent)
    (hworth : ∀ mia b, d.bitasset mia = some b → d.worth mia = 0) (hop : ∀ o, op ≠ .limitOrderCreate o) : Preserves d d' := by
  obtain ⟨paid, d₁, d₂, haccepted, hpaid, -, heval, h₁, h₂, h⟩ := applyOperation_eq_ok h
  obtain ⟨hfee, hcore⟩ := prepareFee_eq_ok hpaid
  have hcore' : paid.fee.assetId = 0 → paid.core = paid.fee.amount := hfee ▸ hcore
  have m : Moves d d₁ (put .total paid.fee.of) := by
    cases op with
    | limitOrderCreate o => exact absurd rfl (hop o)
    | _ => exact takeFee_moves h₁ hcore'
  have hd₁ : d₁.Consistent := hd.deals (t := none) m.deals fun a => by simp
  have hsupply : ∀ a, d₁.currentSupply a = d.currentSupply a := fun a => by simpa [put_ne, amount] using m.amounts .supply a
  have hpreserves := doApply_preserves heval haccepted m h₂ hd hd₁ hsupply hworth hop
  have m' := adjustBalance_moves h
  have hd' : d'.Consistent := hpreserves.consistent.deals (t := none) m'.deals fun a => by simp
  refine ⟨hd', ⟨fun a => ?_, fun account => ?_⟩, ?_, fun a => ?_⟩
  · rw [worth_of_amounts m'.amounts, hpreserves.keeps.worth, worth_of_amounts m.amounts]
    simp
  · rw [miscount_of_amounts m'.amounts, hpreserves.keeps.counted, miscount_of_amounts m.amounts]
    simp
  · rw [m'.limitOrders, ← m.limitOrders]
    exact hpreserves.limits
  · rw [(m'.deals (t := none)).bitasset, hpreserves.options, (m.deals (t := none)).bitasset]

/-- A new order and its fee, and what becomes of it -/
theorem applyOperation_creates {o : LimitOrderCreate} (h : d.applyOperation fuel (.limitOrderCreate o) = .ok d') (hd : d.Consistent) :
    ∃ paid t d₁ d₂ d₃ gone δ ε, Moves d d₁ (put .total δ) ∧ Creates d₁ d₂ o paid t ∧ d₂.Consistent ∧ t ∈ d₂.limitOrders ∧
      d₂.applyOrder fuel t = .ok (gone, d₃) ∧ Moves d₃ d' (put .total ε) ∧ o.price.Valid ∧
      δ + (Asset.of ⟨paid.core, 0⟩ + t.deferredPaidFee.of) + ε = 0 := by
  obtain ⟨paid, d₁, d₃, haccepted, hpaid, -, -, h₁, h₂, h⟩ := applyOperation_eq_ok h
  obtain ⟨hfee, hcore⟩ := prepareFee_eq_ok hpaid
  have m := convertDeferredFee_moves h₁
  have hd₁ : d₁.Consistent := hd.deals (t := none) m.deals fun a => by simp
  obtain ⟨t, d₂, gone, hcreates, happly⟩ := applyLimitOrderCreate_creates h₂ hd₁.toSound
  have ht : t ∈ d₂.limitOrders := by
    rw [hcreates.same]
    exact List.mem_append_right _ List.mem_cons_self
  refine ⟨paid, t, d₁, d₂, d₃, gone, _, _, m, hcreates, hcreates.consistent hd₁, ht, happly, adjustBalance_moves h, haccepted, ?_⟩
  have hnone : Asset.of ⟨0, 0⟩ = 0 := funext fun _ => Asset.of_zero
  have hneg : Asset.of ⟨-paid.core, 0⟩ = -Asset.of ⟨paid.core, 0⟩ := Asset.neg_of (x := ⟨paid.core, 0⟩)
  rw [hcreates.paidFee, Asset.neg_of]
  by_cases hzero : paid.fee.assetId = 0
  · rw [if_pos hzero, if_pos hzero, hcore (hfee ▸ hzero), ← hfee, Asset.of_mk hzero, hnone]
    abel
  · rw [if_neg hzero, if_neg hzero, hneg]
    abel

theorem applyLimitOrderCreate_keeps {o : LimitOrderCreate} (h : d.applyOperation fuel (.limitOrderCreate o) = .ok d') (hd : d.Consistent) :
    d'.Consistent ∧ Keeps d d' ∧ ∀ a, d'.bitasset a = d.bitasset a := by
  obtain ⟨paid, t, d₁, d₂, d₃, gone, δ, ε, m, hcreates, hd₂, ht, happly, m', -, hsum⟩ := applyOperation_creates h hd
  obtain ⟨H, hH, hfair⟩ := applyOrder_trades happly hd₂.toSound ht
  have hall : Changes d d' _ := ((m.amounts.trans hcreates.changes).trans hH.amounts).trans m'.amounts
  have hfair' : (put .total δ + (put .total (Asset.of ⟨paid.core, 0⟩) + put .total t.deferredPaidFee.of) + H + put .total ε).Fair := by
    rw [add_right_comm, ← put_add, ← put_add, ← put_add, hsum, put_zero, zero_add]
    exact hfair
  have hd₃ : d₃.Consistent := hd₂.deals hH hfair.uncovered
  refine ⟨hd₃.deals (t := none) m'.deals fun a => by simp, keeps_of_amounts hall hfair'.worth hfair'.counted, fun a => ?_⟩
  rw [(m'.deals (t := none)).bitasset, hH.bitasset, ← (m.deals (t := none)).bitasset, hcreates.same]
  rfl

end

end Database

end Khc.Market
