import Khc.Market.Loops
import Khc.Market.Target

/-! The rounds of the loops over the margin calls: what a round takes from the call order, and when it takes nothing. -/

namespace Khc.Market

open Lib
open Chain (Asset Price AccountId AssetId)

namespace Database

section
variable {d d' : Database} {order : LimitOrder} {pays receives : Asset} {p : Price} {cull maker gone : Bool} {a : AssetId}

/-! ### Fills -/

theorem maybeCullSmallOrder_gone (h : d.maybeCullSmallOrder order = .ok (gone, d')) : gone = true ↔ ¬order.Worthwhile := by
  rcases maybeCullSmallOrder_cases h with ⟨rfl, -, hworth⟩ | ⟨rfl, -, hworth⟩ <;> simpa using hworth

/-- A limit order that is filled for nothing goes only if it is culled. -/
theorem fillLimitOrder_nothing (h : d.fillLimitOrder order pays receives cull p maker = .ok (gone, d')) (hsale : 0 < order.forSale)
    (hpays : pays.amount = 0) : gone = true ↔ cull = true ∧ ¬order.Worthwhile := by
  have hpart : pays ≠ order.amountForSale := by
    rintro rfl
    exact hsale.ne' hpays
  have hsold : (soldOff order pays).Worthwhile ↔ order.Worthwhile := by
    show _ ≤ (order.forSale - pays.amount) * _ ↔ _
    rw [hpays, sub_zero]
    rfl
  obtain ⟨-, d₁, -, ⟨hall, -⟩ | ⟨-, rfl, rfl, -⟩ | ⟨-, rfl, hcull⟩⟩ := fillLimitOrder_cases h
  · exact absurd hall hpart
  · simp
  · rw [maybeCullSmallOrder_gone hcull, hsold]
    simp

/-- A fill takes the limit order out of the book or leaves it there. -/
theorem fillLimitOrder_length (h : d.fillLimitOrder order pays receives cull p maker = .ok (gone, d'))
    (hfind : d.findLimitOrder order.id = some order) (hpays : pays.amount ≤ order.forSale) :
    d'.debt a = d.debt a ∧ d'.limitOrders.length + gone.toNat = d.limitOrders.length := by
  obtain ⟨-, hcalls, hcases⟩ := fillLimitOrder_deals (t := some order.id) h hfind hpays fun _ => rfl
  refine ⟨by rw [debt, hcalls, debt], ?_⟩
  rcases hcases with ⟨rfl, hlimits⟩ | ⟨rfl, hlimits⟩
  · have hmem := List.mem_of_find?_eq_some hfind
    rw [hlimits, List.length_eraseP_of_mem hmem (by simp)]
    exact Nat.succ_pred_eq_of_pos (List.length_pos_of_mem hmem)
  · rw [hlimits, length_updateFirst, Bool.toNat_false, add_zero]

theorem fillCallOrder_debt {c : CallOrder} (h : d.fillCallOrder c pays receives p maker = .ok (gone, d')) (hd : d.Sound)
    (hc : c ∈ d.callOrders) (hreceives : receives.amount ≤ c.debt) :
    d'.debt c.debtType = d.debt c.debtType - receives.amount ∧ d'.limitOrders = d.limitOrders := by
  obtain ⟨⟨freed, hdeals⟩, hlimits, -⟩ := fillCallOrder_deals (t := none) h hd hc hreceives
  have hdebt := hdeals.amounts .debt c.debtType
  simp only [fillCallOrder, bind_eq_ok, fcAssert_eq_ok] at h
  obtain ⟨-, hasset, -⟩ := h
  have hall : receives.of c.debtType = receives.amount := if_pos hasset.symm
  rw [← hall]
  exact ⟨by simpa [put_ne, amount, sub_eq_add_neg] using hdebt, hlimits⟩

/-- What is left of a call order fits where the order did. -/
theorem fillCallOrder_fits {c : CallOrder} (h : d.fillCallOrder c pays receives p maker = .ok (gone, d'))
    (hfits : ∀ c ∈ d.callOrders, c.Fits) (hc : c.Fits) (hpays : 0 ≤ pays.amount) (hreceives : 0 ≤ receives.amount) :
    ∀ c ∈ d'.callOrders, c.Fits := by
  simp only [fillCallOrder, bind_eq_ok, fcAssert_eq_ok, safe_eq_ok, pure_eq_ok, Prod.mk.injEq] at h
  obtain ⟨-, -, -, -, -, -, mia, -, debt, ⟨-, rfl⟩, collateral, ⟨-, rfl⟩, d₁, h₁, d₂, h₂, d₃, h₃, d₄, h₄, d₅, h₅, -, rfl⟩ := h
  have hlater := ((Moves.ite h₃ fun _ => adjustBalance_moves).trans (Moves.ite h₄ fun _ => adjustCoreInOrders_moves)).trans
    (adjustCoreInOrders_moves h₅)
  have hkept : (d₅.pushAppliedOperation (.fillOrder (.call c.id) c.borrower pays receives ⟨0, pays.assetId⟩ p maker)).callOrders =
      d₁.callOrders := by
    rw [pushAppliedOperation, hlater.callOrders, changeSupply_same h₂]
  rw [hkept]
  split at h₁
  · obtain rfl := Except.ok.inj h₁
    exact fun c' hc' => hfits c' (List.mem_of_mem_eraseP hc')
  · obtain ⟨callPrice, -, h₁⟩ := bind_eq_ok.mp h₁
    obtain rfl := Except.ok.inj h₁
    intro c' hc'
    rcases mem_updateFirst hc' with hc' | ⟨-, -, rfl⟩
    · exact hfits c' hc'
    · exact ⟨by have := hc.debt; dsimp only; omega, by have := hc.collateral; dsimp only; omega, hc.target⟩

/-- The fill of a call order that fits halts. -/
theorem halts_fillCallOrder {c : CallOrder} (hc : c.Fits)
    (hratio : ∀ b, d.bitasset receives.assetId = some b → b.currentFeed.maintenanceCollateralRatio < 2 ^ 16) (hpays : 0 ≤ pays.amount)
    (hreceives : 0 ≤ receives.amount) (hreceives' : receives.amount ≤ c.debt) : Halts (d.fillCallOrder c pays receives p maker) := by
  have hdebt := hc.debt
  have hcoll := hc.collateral
  unfold fillCallOrder
  simp only [never_bind, halts_fcAssert, halts_getBitasset, halts_safe, fcAssert_eq_ok, getBitasset_eq_ok, safe_eq_ok, true_and, ne_eq,
    reduceCtorEq, not_false_eq_true]
  rintro - - - - - henough b hb debt ⟨-, rfl⟩ collateral ⟨-, rfl⟩
  refine ⟨never_ite.mpr ⟨fun _ => never_ok, fun _ => never_bind.mpr ⟨?_, fun _ _ => never_ok⟩⟩, by simp⟩
  exact halts_callPrice (by dsimp only; omega) (by dsimp only; omega) (by dsimp only; omega) (by dsimp only; omega) (hratio b hb)

end

/-! ### Rounds -/

/-- An order is taken away, or less of the asset is owed. -/
def Progress (mia : AssetId) (d d' : Database) : Prop := d'.debt mia < d.debt mia ∨ d'.limitOrders.length < d.limitOrders.length

/-- A round of the loop over the margin calls that a new order meets, after which the loop goes on -/
inductive CallRound (taker : Nat) (sell receive : AssetId) (m : CallMarket) (call : CallOrder) : Database → Database → Prop
  | intro {d d' : Database} {rest : List CallOrder} {bid : LimitOrder} {fuel result : Nat}
      (hfirst : d.callsFrom (.min receive sell) = call :: rest)
      (hcalled : ¬(call.debtType ≠ sell ∨ call.callPrice.gt m.feedPrice.inv)) (hbid : d.findLimitOrder taker = some bid)
      (h : d.matchCall fuel bid call m.callMatchPrice m.feedPrice m.maintenanceCollateralRatio = .ok (result, d'))
      (hgoes : ¬(result = 1 ∨ result = 3)) : CallRound taker sell receive m call d d'

/-- A round of the loop that a new feed sets off, after which the loop goes on, with the limit orders that are left for it -/
inductive FeedRound (mia : AssetId) (enable : Bool) (b : BitassetData) (call : CallOrder) (limit : LimitOrder) :
    List LimitOrder × Database → List LimitOrder × Database → Prop
  | intro {d d₁ d' : Database} {l : LimitOrder} {limits : List LimitOrder} {rest : List CallOrder} {fuel : Nat} {toCover : Int}
      {all orderReceives callReceives : Asset} {filled filled' : Bool}
      (hswan : d.checkForBlackswan mia enable = .ok (false, d))
      (hfirst : d.callsOf b.options.shortBackingAsset mia = call :: rest) (hlimit : d.findLimitOrder l.id = some limit)
      (hcalled : ¬b.currentFeed.settlementPrice.gt call.callPrice.inv) (hall : mul call.getDebt limit.sellPrice = .ok all)
      (hassets : all.assetId = call.collateralType) (hcover : call.getMaxDebtToCover limit.sellPrice b.currentFeed.settlementPrice
        fuel b.currentFeed.maintenanceCollateralRatio = .ok toCover)
      (htrade : marginTrade limit ⟨toCover, call.debtType⟩ = .ok (orderReceives, callReceives))
      (h₁ : d.fillCallOrder call orderReceives callReceives limit.sellPrice false = .ok (filled, d₁))
      (h₂ : d₁.fillLimitOrder limit callReceives orderReceives true limit.sellPrice true = .ok (filled', d')) :
      FeedRound mia enable b call limit (l :: limits, d) (if filled' then limits else l :: limits, d')

/-- The margin calls are of a market of the asset, with a ratio that fits into `uint16_t`. -/
structure CallMarket.Fed (m : CallMarket) (sell : AssetId) : Prop where
  valid : m.callMatchPrice.Valid
  base : m.feedPrice.base.assetId = sell
  ratio : m.maintenanceCollateralRatio < 2 ^ 16

section
variable {d d' : Database} {taker : Nat} {sell receive mia : AssetId} {m : CallMarket} {call : CallOrder} {t bid limit : LimitOrder}
  {p : Price} {cull enable : Bool} {b : BitassetData}

theorem callMarket_fed (h : d.callMarket t = .ok (some m)) (hd : d.Sound) : m.Fed t.sellAssetId := by
  have hvalid := (callMarket_meets h hd).valid
  obtain ⟨b, mssp, hb, -, hnull, -, -, rfl⟩ := callMarket_eq_ok h
  exact ⟨hvalid, ((hd.feeds _ b hb).median.valid hnull).2.1, (hd.feeds _ b hb).median.ratio_lt⟩

/-- The call order gets something if and only if it is called for something. -/
theorem callTrade_receives {usdToBuy orderReceives callReceives : Asset}
    (h : callTrade bid usdToBuy p = .ok (some (orderReceives, callReceives, cull))) (hp : p.Valid) (hsale : 0 < bid.forSale)
    (hbuy : 0 ≤ usdToBuy.amount) :
    0 ≤ orderReceives.amount ∧ 0 ≤ callReceives.amount ∧ (usdToBuy.amount = 0 → callReceives.amount = 0 ∧ cull = false) ∧
      (0 < usdToBuy.amount → 0 < callReceives.amount) := by
  unfold callTrade at h
  split at h
  · obtain ⟨receives, hreceives, h⟩ := bind_eq_ok.mp h
    split at h
    · cases pure_eq_ok.mp h
    · rename_i hsome
      obtain ⟨receives', hreceives', h⟩ := bind_eq_ok.mp h
      cases pure_eq_ok.mp h
      have hnonneg := mul_nonneg hreceives
      have hpos := roundUp_pos hreceives' (by omega) hp.base_pos hp.quote_pos
      exact ⟨hnonneg, hpos.le, by omega, fun _ => hpos⟩
  · obtain ⟨receives, hreceives, h⟩ := bind_eq_ok.mp h
    cases pure_eq_ok.mp h
    exact ⟨multiplyAndRoundUp_nonneg hreceives, hbuy, fun hnone => ⟨hnone, rfl⟩, id⟩

/-- A round takes nothing from a call order that is at its target, and something from any other one. -/
theorem CallRound.spends (h : CallRound taker sell receive m call d d') (hd : d.Sound) (hm : m.Fed sell) :
    Trades (some taker) d d' ∧ ((∀ c ∈ d.callOrders, c.Fits) → ∀ c ∈ d'.callOrders, c.Fits) ∧
      ((call.Reached m.callMatchPrice m.feedPrice m.maintenanceCollateralRatio ∧ d'.debt sell = d.debt sell ∧
          d'.limitOrders.length = d.limitOrders.length) ∨
        (¬call.Reached m.callMatchPrice m.feedPrice m.maintenanceCollateralRatio ∧ d'.debt sell < d.debt sell)) := by
  obtain ⟨hfirst, hcalled, hbid, h, hgoes⟩ := h
  rename_i rest bid fuel result
  obtain ⟨hsell, hcalled⟩ := not_or.mp hcalled
  rw [not_not] at hsell
  have hid := id_of_findLimitOrder hbid
  have hask : call ∈ d.callOrders :=
    (List.perm_insertionSort _ _).mem_iff.mp (List.mem_of_mem_filter (hfirst ▸ List.mem_cons_self))
  have hgone : ¬(result = 1 ∧ d' = d ∧ ∃ x, mul bid.amountForSale m.callMatchPrice = .ok x ∧ x.amount = 0) :=
    fun hone => hgoes (.inl hone.1)
  have htrades := ((matchCall_trades h hd (hid.symm ▸ hbid) hask hm.valid.assets).resolve_left hgone).1
  refine ⟨hid ▸ htrades, ?_⟩
  simp only [matchCall, bind_eq_ok, fcAssert_eq_ok] at h
  obtain ⟨-, hbidSell, -, hbidReceive, -, ⟨hsale, hdebt, hcoll⟩, usdToBuy, hmax, trade, htrade, h⟩ := h
  have hfeed : call.inCollateral m.feedPrice = m.feedPrice.inv := by
    refine if_pos ?_
    rw [hm.base, ← hsell, ← hbidSell, ← hbidReceive]
    exact bid.valid.assets
  have hcovered := CallOrder.getMaxDebtToCover_cases hmax hm.valid hdebt hcoll (hfeed ▸ hcalled)
  cases trade with
  | none =>
    cases pure_eq_ok.mp h
    exact absurd (.inl rfl) hgoes
  | some trade =>
    obtain ⟨orderReceives, callReceives, cull⟩ := trade
    obtain ⟨hle, hle'⟩ := callTrade_le htrade hm.valid.assets hsale
    have hbuy := CallOrder.getMaxDebtToCover_nonneg hmax hm.valid hdebt hcoll
    obtain ⟨hreceives, hreceived, hnothing, hsomething⟩ := callTrade_receives htrade hm.valid hsale hbuy
    simp only [bind_eq_ok, pure_eq_ok] at h
    obtain ⟨⟨taker', d₁⟩, h₁, ⟨maker, d₂⟩, h₂, h⟩ := h
    cases h
    cases taker' with
    | true => exact absurd (by cases maker <;> simp [matchResult]) hgoes
    | false =>
      have hbid' : d.findLimitOrder bid.id = some bid := hid.symm ▸ hbid
      obtain ⟨hdeals, hcalls, -⟩ := fillLimitOrder_deals (t := some bid.id) h₁ hbid' hle fun _ => rfl
      obtain ⟨hdebt₁, hlength₁⟩ := fillLimitOrder_length (a := call.debtType) h₁ hbid' hle
      have hmost : callReceives.amount ≤ call.debt := hle'.trans (CallOrder.getMaxDebtToCover_le hmax hdebt.le)
      obtain ⟨hdebt₂, hlimits₂⟩ := fillCallOrder_debt h₂ (hdeals.sound hd) (hcalls ▸ hask) hmost
      replace hdebt₂ : d₂.debt sell = d.debt sell - callReceives.amount := hsell ▸ hdebt₂.trans (congrArg (· - _) hdebt₁)
      refine ⟨fun hfits => ?_, hcovered.imp (fun hcovered => ⟨hcovered.1, ?_, ?_⟩) fun hcovered => ⟨hcovered.1, ?_⟩⟩
      · exact fillCallOrder_fits h₂ (hcalls.symm ▸ hfits) (hfits call hask) hreceives hreceived
      · rw [hdebt₂, (hnothing hcovered.2).1, sub_zero]
      · rw [hlimits₂, ← hlength₁, Bool.toNat_false, add_zero]
      · have := hsomething hcovered.2
        show d₂.debt sell < d.debt sell
        omega

/-- The call order gets something if and only if it is called for something and the limit order is worth something. -/
theorem marginTrade_receives {usdToBuy orderReceives callReceives : Asset}
    (h : marginTrade limit usdToBuy = .ok (orderReceives, callReceives)) (hsale : 0 < limit.forSale) (hbuy : 0 ≤ usdToBuy.amount) :
    0 ≤ orderReceives.amount ∧ 0 ≤ callReceives.amount ∧ (usdToBuy.amount = 0 → callReceives.amount = 0) ∧
      (0 < usdToBuy.amount → limit.Worthwhile → 0 < callReceives.amount) := by
  unfold marginTrade at h
  split at h
  · obtain ⟨receives, hreceives, h⟩ := bind_eq_ok.mp h
    obtain ⟨receives', hreceives', h⟩ := bind_eq_ok.mp h
    cases pure_eq_ok.mp h
    have hnonneg := mul_nonneg hreceives
    refine ⟨hnonneg, multiplyAndRoundUp_nonneg hreceives', by omega, fun _ hworth => ?_⟩
    have hsome := mt (amountToReceive_eq_zero hreceives).mp (not_not.mpr hworth)
    exact roundUp_pos hreceives' (by omega) limit.valid.base_pos limit.valid.quote_pos
  · obtain ⟨receives, hreceives, h⟩ := bind_eq_ok.mp h
    cases pure_eq_ok.mp h
    exact ⟨multiplyAndRoundUp_nonneg hreceives, hbuy, id, fun hpos _ => hpos⟩

/-- A round takes nothing from a call order that is at its target, unless it culls the limit order. -/
theorem FeedRound.spends {x y : List LimitOrder × Database} (h : FeedRound mia enable b call limit x y) (hd : x.2.Sound)
    (hb : x.2.bitasset mia = some b) (hnull : ¬b.currentFeed.settlementPrice.isNull) :
    Trades none x.2 y.2 ∧ ((∀ c ∈ x.2.callOrders, c.Fits) → ∀ c ∈ y.2.callOrders, c.Fits) ∧
      ((call.Reached limit.sellPrice b.currentFeed.settlementPrice b.currentFeed.maintenanceCollateralRatio ∧ limit.Worthwhile ∧
          y.2.debt mia = x.2.debt mia ∧ y.2.limitOrders.length = x.2.limitOrders.length) ∨
        (¬(call.Reached limit.sellPrice b.currentFeed.settlementPrice b.currentFeed.maintenanceCollateralRatio ∧ limit.Worthwhile) ∧
          Progress mia x.2 y.2 ∧ y.1.length + y.2.debt mia < x.1.length + x.2.debt mia)) := by
  obtain ⟨hswan, hfirst, hlimit, hcalled, hall, hassets, hcover, htrade, h₁, h₂⟩ := h
  rename_i d d₁ d' l limits rest fuel toCover all orderReceives callReceives filled filled'
  dsimp only at *
  have hlimit' : d.findLimitOrder limit.id = some limit := (id_of_findLimitOrder hlimit).symm ▸ hlimit
  have hsale := hd.forSale limit (List.mem_of_find?_eq_some hlimit)
  have hcall := mem_callOrders_of_callsOf (hfirst ▸ List.mem_cons_self : call ∈ d.callsOf _ _)
  obtain ⟨hdebt, hcoll, hpriced, -⟩ := hd.secured call hcall
  obtain ⟨hmedian, hquote⟩ := hd.feeds mia b hb
  obtain ⟨hvalid, hbase, -⟩ := hmedian.valid hnull
  have hne : mia ≠ b.options.shortBackingAsset := hbase ▸ hquote hnull ▸ hvalid.assets
  have hsell : call.debtType = mia := by
    have hmem := (callsOf_perm hd hb hne.symm).mem_iff.mp (hfirst ▸ List.mem_cons_self)
    simpa using (List.mem_filter.mp hmem).2
  have hback : call.collateralType = b.options.shortBackingAsset := hd.assets hcall (hsell ▸ hb)
  have hfeed : call.inCollateral b.currentFeed.settlementPrice = b.currentFeed.settlementPrice.inv :=
    if_pos (by rwa [hbase, hback])
  have hcovered := CallOrder.getMaxDebtToCover_cases hcover limit.valid hdebt hcoll
    (hfeed ▸ mt (Price.gt_inv_iff hpriced.valid hvalid (hback.trans (hquote hnull).symm) (hsell.trans hbase.symm)).mp hcalled)
  have hbuy := CallOrder.getMaxDebtToCover_nonneg hcover limit.valid hdebt hcoll
  have hmost := CallOrder.getMaxDebtToCover_le hcover hdebt.le
  obtain ⟨hle, hle'⟩ := marginTrade_le htrade hsale
  obtain ⟨hreceives, hreceived, hnothing, hsomething⟩ := marginTrade_receives htrade hsale hbuy
  have htrades := marginFills_trades (t := none) hd hcall hlimit' htrade hmost h₁ h₂
  obtain ⟨hdebt₁, hlimits₁⟩ := fillCallOrder_debt h₁ hd hcall (hle'.trans hmost)
  have hlimit₁ : d₁.findLimitOrder limit.id = some limit := by rwa [findLimitOrder, hlimits₁]
  obtain ⟨hdebt₂, hlength₂⟩ := fillLimitOrder_length (a := call.debtType) h₂ hlimit₁ hle
  obtain ⟨-, hcalls₂, -⟩ := fillLimitOrder_deals (t := some limit.id) h₂ hlimit₁ hle fun _ => rfl
  have hdebt' : d'.debt mia = d.debt mia - callReceives.amount := hsell ▸ hdebt₂.trans hdebt₁
  rw [hlimits₁] at hlength₂
  have hshorter : (if filled' then limits else l :: limits).length + filled'.toNat = (l :: limits).length := by
    cases filled' <;> simp
  refine ⟨htrades, fun hfits => hcalls₂ ▸ fillCallOrder_fits h₁ hfits (hfits call hcall) hreceives hreceived, ?_⟩
  by_cases hnone : callReceives.amount = 0
  · have hculled := fillLimitOrder_nothing h₂ hsale hnone
    by_cases hworth : limit.Worthwhile
    · have hfilled : filled' = false := by simpa [hworth] using hculled
      refine .inl ⟨(hcovered.resolve_right fun hcovered => ?_).1, hworth, by omega, by simpa [hfilled] using hlength₂⟩
      exact (hsomething hcovered.2 hworth).ne' hnone
    · have hfilled : filled' = true := by simpa [hworth] using hculled
      rw [hfilled, Bool.toNat_true] at hlength₂ hshorter
      rw [hfilled]
      exact .inr ⟨fun hreached => hworth hreached.2, .inr (by omega), by omega⟩
  · refine .inr ⟨fun hreached => ?_, .inl (by omega), by omega⟩
    rcases hcovered with ⟨-, hzero⟩ | ⟨hnot, -⟩
    · exact hnone (hnothing hzero)
    · exact hnot hreached.1

end

end Database

end Khc.Market
