import Khc.Market.Blocks
import Khc.Market.Rounds

/-! The loops of the market over many orders: margin calls after a new feed, expired limit orders and settlement
    requests. Each round keeps what holds in every state. -/

namespace Khc.Market

open Lib
open Chain (Asset Price AccountId AssetId)

namespace Database

section
variable {t : Option Nat} {fuel : Nat} {d d' : Database} {mia : AssetId} {b : BitassetData} {enable called called' : Bool}
  {limits : List LimitOrder}

/-! ### Margin calls -/

theorem mem_callOrders_of_callsOf {c : CallOrder} {backing : AssetId} (h : c ∈ d.callsOf backing mia) : c ∈ d.callOrders :=
  (List.perm_insertionSort _ _).mem_iff.mp (List.mem_of_mem_filter (List.mem_of_mem_filter h))

/-- A margin call at the price of a limit order of the book -/
theorem marginFills_trades {call : CallOrder} {limit : LimitOrder} {d₁ : Database} {toCover : Int}
    {orderReceives callReceives : Asset} {p : Price} {m m' filled filled' : Bool} (hd : d.Sound)
    (hcall : call ∈ d.callOrders) (hlimit : d.findLimitOrder limit.id = some limit)
    (htrade : marginTrade limit ⟨toCover, call.debtType⟩ = .ok (orderReceives, callReceives)) (hcover : toCover ≤ call.debt)
    (h₁ : d.fillCallOrder call orderReceives callReceives p m = .ok (filled, d₁))
    (h₂ : d₁.fillLimitOrder limit callReceives orderReceives true p m' = .ok (filled', d')) : Trades t d d' := by
  obtain ⟨hsale, hdebt⟩ := marginTrade_le htrade (hd.forSale limit (List.mem_of_find?_eq_some hlimit))
  obtain ⟨⟨freed, f₁⟩, hlimits, -⟩ := fillCallOrder_deals (t := t) h₁ hd hcall (hdebt.trans hcover)
  obtain ⟨f₂, -⟩ := fillLimitOrder_deals (t := t) h₂ (by rwa [findLimitOrder, hlimits]) hsale (by simp)
  exact (f₁.trans f₂).trades ⟨fun a => by simp, fun a => by simp, fun account => by simp⟩

theorem checkCallOrdersLoop_preserves (h : checkCallOrdersLoop mia enable b fuel limits called d = .ok (called', d'))
    (hd : d.Consistent) (hb : d.bitasset mia = some b) : Preserves d d' := by
  induction fuel generalizing d limits called with
  | zero => exact (throw_ne_ok.mp h).elim
  | succ fuel ih =>
    simp only [checkCallOrdersLoop, bind_eq_ok] at h
    obtain ⟨⟨swan, d₁⟩, hswan, h⟩ := h
    obtain ⟨hkept, hsame⟩ := checkForBlackswan_preserves hswan hd
    cases swan with
    | true =>
      cases pure_eq_ok.mp h
      exact hkept
    | false =>
      obtain rfl := hsame rfl
      simp only [Bool.false_eq_true, if_false] at h
      split at h
      · cases pure_eq_ok.mp h
        exact .refl hd
      · cases pure_eq_ok.mp h
        exact .refl hd
      · rename_i call calls l rest hcalls
        simp only [bind_eq_ok, getLimitOrder_eq_ok] at h
        obtain ⟨limit, hlimit, h⟩ := h
        split at h
        · cases pure_eq_ok.mp h
          exact .refl hd
        · simp only [bind_eq_ok, fcAssert_eq_ok] at h
          obtain ⟨all, -, -, -, h⟩ := h
          split at h
          · simp only [bind_eq_ok, fcAssert_eq_ok, pure_eq_ok, Prod.mk.injEq] at h
            obtain ⟨-, -, d₂, hsettle, -, rfl⟩ := h
            obtain ⟨b', hsettles⟩ := globallySettleAsset_settles hsettle hd.toSound
            obtain rfl : b = b' := Option.some.inj (hb.symm.trans hsettles.bitasset)
            exact hsettles.preserves hd (supply_pos hd hb hsettles.unsettled hsettles.backing hcalls)
          · simp only [bind_eq_ok, fcAssert_eq_ok] at h
            obtain ⟨toCover, hmax, -, -, ⟨orderReceives, callReceives⟩, htrade, ⟨filled, d₂⟩, h₁, ⟨filled', d₃⟩, h₂, h⟩ := h
            have hcall := mem_callOrders_of_callsOf (hcalls ▸ List.mem_cons_self : call ∈ d₁.callsOf _ _)
            have htrades : Trades none d₁ d₃ := marginFills_trades hd.toSound hcall
              ((id_of_findLimitOrder hlimit).symm ▸ hlimit) htrade
              (CallOrder.getMaxDebtToCover_le hmax (hd.secured call hcall).debt.le) h₁ h₂
            have hpreserves := htrades.preserves hd
            refine hpreserves.trans (ih h hpreserves.consistent ?_)
            obtain ⟨F, hF, -⟩ := htrades
            rwa [hF.bitasset]

/-- What a new feed sets off -/
theorem checkCallOrders_preserves (h : d.checkCallOrders fuel mia enable = .ok (called, d')) (hd : d.Consistent) :
    Preserves d d' := by
  unfold checkCallOrders at h
  split at h
  · cases pure_eq_ok.mp h
    exact .refl hd
  · rename_i b hb
    obtain ⟨⟨swan, d₁⟩, hswan, hrest⟩ := bind_eq_ok.mp h
    clear h
    obtain ⟨hkept, hsame⟩ := checkForBlackswan_preserves hswan hd
    cases swan with
    | true =>
      cases pure_eq_ok.mp hrest
      exact hkept
    | false =>
      obtain rfl := hsame rfl
      simp only [Bool.false_eq_true, if_false, bind_eq_ok, getBitasset_eq_ok] at hrest
      obtain ⟨b', hb', hrest⟩ := hrest
      split at hrest
      · cases pure_eq_ok.mp hrest
        exact .refl hd
      · split at hrest
        · cases pure_eq_ok.mp hrest
          exact .refl hd
        · obtain ⟨minPrice, -, hrest⟩ := bind_eq_ok.mp hrest
          split at hrest
          · cases pure_eq_ok.mp hrest
            exact .refl hd
          · exact checkCallOrdersLoop_preserves hrest hd hb'

/-! ### Expired limit orders -/

/-- Orders that are cancelled one after the other -/
theorem cancelOrders_trades {l : List LimitOrder} (h : l.foldlM (fun d o => d.cancelLimitOrder o true) d = .ok d')
    (hd : d.Sound) (hl : ∀ o ∈ l, o ∈ d.limitOrders) (hnodup : (l.map LimitOrder.id).Nodup) : Trades t d d' := by
  induction l generalizing d with
  | nil =>
    obtain rfl := Except.ok.inj h
    exact .refl
  | cons o os ih =>
    rw [List.foldlM_cons, bind_eq_ok] at h
    obtain ⟨d₁, h₁, h⟩ := h
    rw [List.map_cons, List.nodup_cons] at hnodup
    obtain ⟨hdeals, hlimits, -⟩ := cancelLimitOrder_deals (t := t) h₁ (hd.limits.find?_of_mem (hl o List.mem_cons_self))
    refine (hdeals.trades .zero).trans (ih h (hdeals.sound hd) (fun o' ho' => ?_) hnodup.2)
    rw [hlimits, eraseP_key_eq_filter hd.limits.nodup, List.mem_filter]
    refine ⟨hl o' (List.mem_cons_of_mem _ ho'), ?_⟩
    simpa using fun heq => hnodup.1 (List.mem_map.mpr ⟨o', ho', heq⟩)

theorem cancelExpiredOrders_trades (h : d.cancelExpiredOrders = .ok d') (hd : d.Sound) : Trades t d d' := by
  have hperm : d.expiredOrders.Perm (d.limitOrders.filter fun o => o.expiration ≤ d.headBlockTime) :=
    List.perm_insertionSort _ _
  refine cancelOrders_trades h hd (fun o ho => List.mem_of_mem_filter (hperm.mem_iff.mp ho)) ?_
  exact (hperm.map _).nodup_iff.mpr (hd.limits.nodup.sublist (List.filter_sublist.map _))

/-! ### Settlement requests -/

theorem scale_valid [RationalDistance] {p r : Price} {q : ℚ} (h : scale p q = .ok r) : r.Valid := by
  simp only [scale, bind_eq_ok, fcAssert_eq_ok] at h
  obtain ⟨-, hvalid, -, -, h⟩ := h
  split at h
  · cases pure_eq_ok.mp h
    exact hvalid
  · simp only [bind_eq_ok, fcAssert_eq_ok, pure_eq_ok] at h
    obtain ⟨-, -, np, -, -, hnp, rfl⟩ := h
    exact hnp

theorem nextAsset_fillPrice {l l' : SettleLoop} (h : d.nextAsset l = some l') : l'.fillPrice = l.fillPrice := by
  unfold nextAsset at h
  split at h
  · cases h
  · cases h
    rfl

theorem SettleLoop.bounded_same (l : SettleLoop) (b : BitassetData) (supply : Int) :
    (l.bounded b supply).fillPrice = l.fillPrice ∧ (l.bounded b supply).currentAsset = l.currentAsset := by
  unfold SettleLoop.bounded
  split <;> exact ⟨rfl, rfl⟩

/-- The requests of another asset, if there are any -/
theorem next_preserves {l : SettleLoop} (h : (match d.nextAsset l with
      | some l => settleRequests fuel l d
      | none => return d) = .ok d') (hd : d.Consistent) (hprice : l.fillPrice.base.assetId ≠ 0 → l.fillPrice.Valid)
    (ih : ∀ l, settleRequests fuel l d = .ok d' → (l.fillPrice.base.assetId ≠ 0 → l.fillPrice.Valid) → Preserves d d') :
    Preserves d d' := by
  split at h
  · rename_i l' hl'
    exact ih l' h (nextAsset_fillPrice hl' ▸ hprice)
  · cases pure_eq_ok.mp h
    exact .refl hd

theorem settleRequest_trades {backing : AssetId} {request : Nat} {price : Price} {maxVolume settled settled' : Int}
    {finished finished' : Bool} (h : settleRequest mia backing request price maxVolume fuel settled finished d =
      .ok (settled', finished', d')) (hd : d.Sound) (hprice : price.base.assetId ≠ price.quote.assetId) :
    Trades t d d' := by
  induction fuel generalizing d settled finished with
  | zero => exact (throw_ne_ok.mp h).elim
  | succ fuel ih =>
    rw [settleRequest] at h
    split at h
    · cases h
      exact .refl
    · rename_i order horder
      have hid : order.id = request := by simpa using List.find?_some horder
      split at h
      · rename_i hless
        split at h
        · exact (throw_ne_ok.mp h).elim
        · rename_i call calls hcalls
          split at h
          · simp only [bind_eq_ok, pure_eq_ok, Prod.mk.injEq] at h
            obtain ⟨d₁, h₁, -, -, rfl⟩ := h
            exact (cancelSettleOrder_trades h₁ (hid.symm ▸ horder)).1
          · simp only [bind_eq_ok] at h
            obtain ⟨⟨newSettled, d₁⟩, h₁, h⟩ := h
            have hcall : call ∈ d.callOrders :=
              (List.perm_insertionSort _ _).mem_iff.mp (List.mem_of_mem_filter (hcalls ▸ List.mem_cons_self))
            obtain ⟨htrades, -⟩ := matchSettlement_trades (t := t) h₁ hd hcall (hid.symm ▸ horder) hprice
              (sub_pos.mpr hless)
            split at h
            · cases pure_eq_ok.mp h
              exact htrades
            · simp only [bind_eq_ok] at h
              obtain ⟨_, -, h⟩ := h
              exact htrades.trans (ih h (htrades.sound hd))
      · cases h
        exact .refl

/-- The loop over the settlement requests. The price is that of the asset that is settled, once there is one. -/
theorem settleRequests_preserves {l : SettleLoop} (h : settleRequests fuel l d = .ok d') (hd : d.Consistent)
    (hprice : l.fillPrice.base.assetId ≠ 0 → l.fillPrice.Valid) : Preserves d d' := by
  induction fuel generalizing d l with
  | zero => exact (throw_ne_ok.mp h).elim
  | succ fuel ih =>
    rw [settleRequests] at h
    split at h
    · cases h
      exact .refl hd
    · rename_i order horder
      have hfind : d.findSettlement order.id = some order := by
        refine hd.requests.find?_of_mem ?_
        exact (List.perm_insertionSort _ _).mem_iff.mp (List.mem_of_find?_eq_some horder)
      simp only [bind_eq_ok, getBitasset_eq_ok] at h
      obtain ⟨b, hb, h⟩ := h
      have hcancel : ∀ d₁, d.cancelSettleOrder order = .ok d₁ → Preserves d d₁ :=
        fun d₁ h₁ => (cancelSettleOrder_trades h₁ hfind).1.preserves hd
      split at h
      · simp only [bind_eq_ok] at h
        obtain ⟨d₁, h₁, h⟩ := h
        exact (hcancel d₁ h₁).trans (ih h (hcancel d₁ h₁).consistent hprice)
      · split at h
        · exact next_preserves h hd hprice fun l h hprice => ih h hd hprice
        · split at h
          · simp only [bind_eq_ok] at h
            obtain ⟨d₁, h₁, h⟩ := h
            exact (hcancel d₁ h₁).trans (ih h (hcancel d₁ h₁).consistent hprice)
          · simp only [bind_eq_ok] at h
            obtain ⟨dyn, -, h⟩ := h
            obtain ⟨hfill, hasset⟩ := SettleLoop.bounded_same { l with currentAsset := order.settlementAssetId } b dyn.currentSupply
            generalize SettleLoop.bounded { l with currentAsset := order.settlementAssetId } b dyn.currentSupply = l' at *
            replace hfill : l'.fillPrice = l.fillPrice := hfill
            replace hasset : l'.currentAsset = order.settlementAssetId := hasset
            split at h
            · exact next_preserves h hd (hfill ▸ hprice) fun l h hprice => ih h hd hprice
            · simp only [bind_eq_ok] at h
              obtain ⟨fillPrice, hfillPrice, ⟨settled, finished, d₁⟩, h₁, h⟩ := h
              have hvalid : fillPrice.Valid := by
                split at hfillPrice
                · simp only [forceSettlementPrice, bind_eq_ok, fcAssert_eq_ok] at hfillPrice
                  obtain ⟨-, -, hscale⟩ := hfillPrice
                  exact scale_valid hscale
                · rename_i hsame
                  cases hfillPrice
                  rw [hasset, ne_eq, not_not] at hsame
                  refine hfill ▸ hprice fun hzero => ?_
                  -- the core asset is not market issued
                  rw [← hsame, hfill, hzero, hd.core] at hb
                  cases hb
              have hrequest : Trades none d d₁ := settleRequest_trades h₁ hd.toSound hvalid.assets
              have hb₁ : d₁.bitasset l'.currentAsset = some b := by
                obtain ⟨F, hF, -⟩ := hrequest
                rw [hF.bitasset, hasset, hb]
              have hd₁ := hrequest.consistent hd
              have hvolume : Preserves d₁ (d₁.modifyBitasset l'.currentAsset fun b => { b with forceSettledVolume := settled }) :=
                modifyBitasset_preserves hd₁ hb₁ rfl rfl rfl { hd₁.feeds _ b hb₁ with }
              exact ((hrequest.preserves hd).trans hvolume).trans (ih h hvolume.consistent fun _ => hvalid)

theorem time_preserves {headBlockTime : Nat} (hd : d.Consistent) : Preserves d { d with headBlockTime } where
  consistent := {
    solvent := ⟨hd.solvent.balances, hd.solvent.fees⟩
    limits := hd.limits
    forSale := hd.forSale
    calls := hd.calls
    secured := fun c hc => { hd.secured c hc with }
    requests := hd.requests
    requests_nonneg := hd.requests_nonneg
    bids := hd.bids
    bidden := fun b hb => { hd.bidden b hb with }
    feeds := hd.feeds
    core := hd.core
    live := fun a b hb hlive => { hd.live a b hb hlive with }
    settled := fun a b hb hsettled => { hd.settled a b hb hsettled with } }
  keeps := ⟨fun _ => rfl, fun _ => rfl⟩
  limits := Std.Refl.refl _
  options _ := rfl

/-- What a block expires -/
theorem clearExpiredOrders_preserves {headBlockTime : Nat} (h : d.clearExpiredOrders fuel headBlockTime = .ok d')
    (hd : d.Consistent) : Preserves d d' := by
  simp only [clearExpiredOrders, bind_eq_ok] at h
  obtain ⟨d₁, h₁, h⟩ := h
  have htime : Preserves d { d with headBlockTime } := time_preserves hd
  have hexpired := (cancelExpiredOrders_trades h₁ htime.consistent.toSound).preserves htime.consistent
  refine (htime.trans hexpired).trans ?_
  unfold processSettlements at h
  split at h
  · cases h
    exact .refl hexpired.consistent
  · exact settleRequests_preserves h hexpired.consistent fun hzero => absurd rfl hzero

end

end Database

end Khc.Market
