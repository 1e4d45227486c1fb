import Khc.Market.MaxDebt
import Khc.Market.Matching
import Khc.Market.Outcomes

/-! What a match comes to: no party pays more than it has, what one pays the other receives, and the orders that the
    result says are filled are gone. -/

namespace Khc.Market

open Lib
open Chain (Asset Price AccountId AssetId)

namespace Database

/-! ### Amounts of a trade -/

section
variable {usd core bid : LimitOrder} {usdToBuy : Asset} {p : Price} {cull : Bool}

/-- Neither order pays more than it has for sale. -/
theorem limitTrade_le {usdReceives coreReceives : Asset}
    (h : limitTrade usd core p = .ok (some (usdReceives, coreReceives, cull))) (hp : p.base.assetId ≠ p.quote.assetId)
    (husd : 0 < usd.forSale) (hcore : 0 < core.forSale) :
    coreReceives.amount ≤ usd.forSale ∧ usdReceives.amount ≤ core.forSale := by
  have hcore' : (core.forSale.toNat : Int) = core.forSale := Int.toNat_of_nonneg hcore.le
  have husd' : (usd.forSale.toNat : Int) = usd.forSale := Int.toNat_of_nonneg husd.le
  simp only [limitTrade, bind_eq_ok, fcAssert_eq_ok] at h
  obtain ⟨coreBuys, hbuys, -, hasset, h⟩ := h
  split at h
  · rename_i hle
    obtain ⟨receives, hreceives, h⟩ := bind_eq_ok.mp h
    split at h
    · cases pure_eq_ok.mp h
    · obtain ⟨receives', hreceives', h⟩ := bind_eq_ok.mp h
      cases pure_eq_ok.mp h
      have hback := (mul_roundUp_le hp hreceives hreceives').2
      have hworth := (mul_le_of_le_mul hp hbuys hreceives hasset.symm hle).2
      exact ⟨hback.trans husd'.le, hworth.trans hcore'.le⟩
  · obtain ⟨receives, hreceives, h⟩ := bind_eq_ok.mp h
    cases pure_eq_ok.mp h
    have hback := (mul_roundUp_le hp hbuys hreceives).2
    exact ⟨by omega, hback.trans hcore'.le⟩

/-- The limit order does not pay more than it has for sale, and no more of the call is covered than can be. -/
theorem callTrade_le {orderReceives callReceives : Asset}
    (h : callTrade bid usdToBuy p = .ok (some (orderReceives, callReceives, cull)))
    (hp : p.base.assetId ≠ p.quote.assetId) (hbid : 0 < bid.forSale) :
    callReceives.amount ≤ bid.forSale ∧ callReceives.amount ≤ usdToBuy.amount := by
  have hbid' : (bid.forSale.toNat : Int) = bid.forSale := Int.toNat_of_nonneg hbid.le
  unfold callTrade at h
  split at h
  · obtain ⟨receives, hreceives, h⟩ := bind_eq_ok.mp h
    split at h
    · cases pure_eq_ok.mp h
    · obtain ⟨receives', hreceives', h⟩ := bind_eq_ok.mp h
      cases pure_eq_ok.mp h
      have hback : callReceives.amount ≤ bid.forSale.toNat := (mul_roundUp_le hp hreceives hreceives').2
      omega
  · obtain ⟨receives, hreceives, h⟩ := bind_eq_ok.mp h
    cases pure_eq_ok.mp h
    omega

theorem marginTrade_le {orderReceives callReceives : Asset}
    (h : marginTrade bid usdToBuy = .ok (orderReceives, callReceives)) (hbid : 0 < bid.forSale) :
    callReceives.amount ≤ bid.forSale ∧ callReceives.amount ≤ usdToBuy.amount := by
  have hbid' : (bid.forSale.toNat : Int) = bid.forSale := Int.toNat_of_nonneg hbid.le
  unfold marginTrade at h
  split at h
  · obtain ⟨receives, hreceives, h⟩ := bind_eq_ok.mp h
    obtain ⟨receives', hreceives', h⟩ := bind_eq_ok.mp h
    cases pure_eq_ok.mp h
    have hback : callReceives.amount ≤ bid.forSale.toNat := (mul_roundUp_le bid.valid.assets hreceives hreceives').2
    omega
  · obtain ⟨receives, hreceives, h⟩ := bind_eq_ok.mp h
    cases pure_eq_ok.mp h
    omega

end

/-! ### Trades -/

/-- Dealings that keep what all holdings are worth, how far supplies are covered by debts, and what accounts have in
    orders -/
def Trades (taker : Option Nat) (d d' : Database) : Prop := ∃ F : Shift, Deals taker d d' F ∧ F.Fair

section
variable {t : Option Nat} {d d' d'' : Database} {F : Shift}

theorem Deals.trades (h : Deals t d d' F) (hF : F.Fair) : Trades t d d' := ⟨F, h, hF⟩

namespace Trades

theorem refl : Trades t d d := Deals.refl.trades .zero

theorem trans (h : Trades t d d') (h' : Trades t d' d'') : Trades t d d'' := by
  obtain ⟨F, hF, hfair⟩ := h
  obtain ⟨G, hG, hfair'⟩ := h'
  exact (hF.trans hG).trades (hfair.add hfair')

theorem keeps (h : Trades t d d') : Keeps d d' := by
  obtain ⟨F, hF, hfair⟩ := h
  exact keeps_of_amounts hF.amounts hfair.worth hfair.counted

theorem sound (h : Trades t d d') (hd : d.Sound) : d'.Sound := by
  obtain ⟨F, hF, -⟩ := h
  exact hF.sound hd

end Trades

end

/-! ### Matches of limit orders -/

section
variable {d d' : Database} {usd core : LimitOrder} {p : Price} {result : Nat}

/-- An order that is taken out is gone. -/
theorem findLimitOrder_gone {l : List LimitOrder} {id : Nat} (hl : (l.map LimitOrder.id).Nodup)
    (h : d.limitOrders = l.eraseP (·.id = id)) : d.findLimitOrder id = none := by
  rw [findLimitOrder, h, List.find?_eq_none]
  intro o ho
  simpa using notMem_eraseP_key hl o ho

theorem Deals.findLimitOrder_none {t : Option Nat} {F : Shift} {id : Nat} (h : Deals t d d' F)
    (hid : d.findLimitOrder id = none) : d'.findLimitOrder id = none := by
  simp only [findLimitOrder, List.find?_eq_none, decide_eq_true_eq] at hid ⊢
  intro o' ho'
  obtain ⟨o, ho, hrest⟩ := exists_of_sublistForall₂ h.limits ho'
  exact hrest.id_eq ▸ hid o ho

/-- Another order is found as before. -/
theorem findLimitOrder_of_filled {order : LimitOrder} {pays : Asset} {id : Nat} {gone : Bool}
    (h : (gone = true ∧ d'.limitOrders = d.limitOrders.eraseP (·.id = order.id)) ∨ (gone = false ∧
      d'.limitOrders = updateFirst (·.id = order.id) (fun _ => soldOff order pays) d.limitOrders)) (hid : id ≠ order.id) :
    d'.findLimitOrder id = d.findLimitOrder id := by
  rcases h with ⟨-, h⟩ | ⟨-, h⟩
  · rw [findLimitOrder, h]
    exact find?_eraseP_key_ne hid
  · rw [findLimitOrder, h]
    exact find?_updateFirst_key_ne hid fun _ _ => rfl

theorem limitTrade_none (h : limitTrade usd core p = .ok none) :
    ∃ x, mul usd.amountForSale p = .ok x ∧ x.amount = 0 := by
  simp only [limitTrade, bind_eq_ok, fcAssert_eq_ok] at h
  obtain ⟨coreBuys, -, -, -, h⟩ := h
  split at h
  · obtain ⟨receives, hreceives, h⟩ := bind_eq_ok.mp h
    split at h
    · rename_i hzero
      exact ⟨receives, hreceives, hzero⟩
    · obtain ⟨_, -, h⟩ := bind_eq_ok.mp h
      cases pure_eq_ok.mp h
  · obtain ⟨_, -, h⟩ := bind_eq_ok.mp h
    cases pure_eq_ok.mp h

/-- What two limit orders exchange keeps the worth of all holdings, and an order that is filled is gone. -/
theorem limitFills_trades {usdReceives coreReceives : Asset} {cull taker maker : Bool} {d₁ : Database} (hd : d.Sound)
    (husd : d.findLimitOrder usd.id = some usd) (hcore : d.findLimitOrder core.id = some core)
    (hassets : usd.receiveAssetId = core.sellAssetId)
    (h₁ : d.fillLimitOrder usd coreReceives usdReceives cull p false = .ok (taker, d₁))
    (h₂ : d₁.fillLimitOrder core usdReceives coreReceives true p true = .ok (maker, d'))
    (husd' : coreReceives.amount ≤ usd.forSale) (hcore' : usdReceives.amount ≤ core.forSale) :
    Trades (some usd.id) d d' ∧ d'.callOrders = d.callOrders ∧ (taker = true → d'.findLimitOrder usd.id = none) ∧
      (maker = true → d'.findLimitOrder core.id = none) := by
  have hne : core.id ≠ usd.id := by
    intro heq
    rw [heq, husd] at hcore
    cases hcore
    exact usd.valid.assets hassets.symm
  obtain ⟨f₁, hcalls, hfilled⟩ := fillLimitOrder_deals (t := some usd.id) h₁ husd husd' fun _ => rfl
  have hcore₁ := (findLimitOrder_of_filled hfilled hne).trans hcore
  obtain ⟨f₂, hcalls', hfilled'⟩ := fillLimitOrder_deals (t := some usd.id) h₂ hcore₁ hcore' (by simp)
  refine ⟨(f₁.trans f₂).trades ⟨fun a => by simp, fun a => by simp, fun account => by simp⟩, hcalls'.trans hcalls,
    fun htaker => ?_, fun hmaker => ?_⟩
  · rcases hfilled with ⟨-, hgone⟩ | ⟨hfalse, -⟩
    · exact f₂.findLimitOrder_none (findLimitOrder_gone hd.limits.nodup hgone)
    · exact absurd (htaker.symm.trans hfalse) (by decide)
  · rcases hfilled' with ⟨-, hgone⟩ | ⟨hfalse, -⟩
    · exact findLimitOrder_gone (f₁.sound hd).limits.nodup hgone
    · exact absurd (hmaker.symm.trans hfalse) (by decide)

/-- Either the taker would get nothing for all it sells and nothing happens, or the two trade. -/
theorem matchLimit_trades (h : d.matchLimit usd core p = .ok (result, d')) (hd : d.Sound)
    (husd : d.findLimitOrder usd.id = some usd) (hcore : d.findLimitOrder core.id = some core)
    (hp : p.base.assetId ≠ p.quote.assetId) :
    (result = 1 ∧ d' = d ∧ ∃ x, mul usd.amountForSale p = .ok x ∧ x.amount = 0) ∨
      (Trades (some usd.id) d d' ∧ d'.callOrders = d.callOrders ∧ (result ≠ 2 → d'.findLimitOrder usd.id = none) ∧
        (result = 2 → d'.findLimitOrder core.id = none)) := by
  simp only [matchLimit, bind_eq_ok, fcAssert_eq_ok] at h
  obtain ⟨-, hassets, -, hassets', -, ⟨hsale, hsale'⟩, trade, htrade, h⟩ := h
  cases trade with
  | none =>
    cases pure_eq_ok.mp h
    exact .inl ⟨rfl, rfl, limitTrade_none htrade⟩
  | some trade =>
    obtain ⟨usdReceives, coreReceives, cull⟩ := trade
    obtain ⟨husd', hcore'⟩ := limitTrade_le htrade hp hsale hsale'
    simp only [bind_eq_ok, fcAssert_eq_ok, pure_eq_ok] at h
    obtain ⟨⟨taker, d₁⟩, h₁, ⟨maker, d₂⟩, h₂, -, hresult, h⟩ := h
    cases h
    obtain ⟨htrades, hcalls, htaker, hmaker⟩ := limitFills_trades hd husd hcore hassets h₁ h₂ husd' hcore'
    refine .inr ⟨htrades, hcalls, fun hresult' => htaker ?_, fun hresult' => hmaker ?_⟩
    · cases taker with
      | false => cases maker <;> contradiction
      | true => rfl
    · cases maker with
      | false => cases taker <;> cases hresult'
      | true => rfl

/-! ### Matches with call orders -/

theorem callTrade_none {bid : LimitOrder} {usdToBuy : Asset} (h : callTrade bid usdToBuy p = .ok none) :
    ∃ x, mul bid.amountForSale p = .ok x ∧ x.amount = 0 := by
  unfold callTrade at h
  split at h
  · obtain ⟨receives, hreceives, h⟩ := bind_eq_ok.mp h
    split at h
    · rename_i hzero
      exact ⟨receives, hreceives, hzero⟩
    · obtain ⟨_, -, h⟩ := bind_eq_ok.mp h
      cases pure_eq_ok.mp h
  · obtain ⟨_, -, h⟩ := bind_eq_ok.mp h
    cases pure_eq_ok.mp h

/-- What a limit order and a call order exchange keeps the worth of all holdings and the cover of the supply. -/
theorem fills_trades {bid : LimitOrder} {ask : CallOrder} {callReceives orderReceives : Asset} {cull m m' taker maker : Bool}
    {d₁ : Database} {t : Option Nat} (hd : d.Sound) (hbid : d.findLimitOrder bid.id = some bid) (hask : ask ∈ d.callOrders)
    (h₁ : d.fillLimitOrder bid callReceives orderReceives cull p m = .ok (taker, d₁))
    (h₂ : d₁.fillCallOrder ask orderReceives callReceives p m' = .ok (maker, d'))
    (hsale : callReceives.amount ≤ bid.forSale) (hdebt : callReceives.amount ≤ ask.debt)
    (ht : cull = false → t = some bid.id) : Trades t d d' ∧ (taker = true → d'.findLimitOrder bid.id = none) := by
  obtain ⟨f₁, hcalls, hfilled⟩ := fillLimitOrder_deals (t := t) h₁ hbid hsale ht
  obtain ⟨⟨freed, f₂⟩, hlimits, -⟩ := fillCallOrder_deals (t := t) h₂ (f₁.sound hd) (hcalls ▸ hask) hdebt
  refine ⟨(f₁.trans f₂).trades ⟨fun a => by simp, fun a => by simp, fun account => by simp⟩, fun htaker => ?_⟩
  · rcases hfilled with ⟨-, hgone⟩ | ⟨hfalse, -⟩
    · rw [findLimitOrder, hlimits]
      exact findLimitOrder_gone hd.limits.nodup hgone
    · rw [htaker] at hfalse
      cases hfalse

/-- Either the limit order would get nothing for all it sells and nothing happens, or the two trade. -/
theorem matchCall_trades {bid : LimitOrder} {ask : CallOrder} {fuel mcr : Nat} {feedPrice : Price}
    (h : d.matchCall fuel bid ask p feedPrice mcr = .ok (result, d')) (hd : d.Sound)
    (hbid : d.findLimitOrder bid.id = some bid) (hask : ask ∈ d.callOrders) (hp : p.base.assetId ≠ p.quote.assetId) :
    (result = 1 ∧ d' = d ∧ ∃ x, mul bid.amountForSale p = .ok x ∧ x.amount = 0) ∨
      (Trades (some bid.id) d d' ∧ (result = 1 ∨ result = 3 → d'.findLimitOrder bid.id = none)) := by
  simp only [matchCall, bind_eq_ok, fcAssert_eq_ok] at h
  obtain ⟨-, -, -, -, -, ⟨hsale, hdebt, -⟩, usdToBuy, hmax, trade, htrade, h⟩ := h
  cases trade with
  | none =>
    cases pure_eq_ok.mp h
    exact .inl ⟨rfl, rfl, callTrade_none htrade⟩
  | some trade =>
    obtain ⟨orderReceives, callReceives, cull⟩ := trade
    obtain ⟨hbid', hcovered⟩ := callTrade_le htrade hp hsale
    simp only [bind_eq_ok, pure_eq_ok] at h
    obtain ⟨⟨taker, d₁⟩, h₁, ⟨maker, d₂⟩, h₂, h⟩ := h
    cases h
    have hcovered' : callReceives.amount ≤ ask.debt := hcovered.trans (CallOrder.getMaxDebtToCover_le hmax hdebt.le)
    obtain ⟨htrades, hgone⟩ := fills_trades hd hbid hask h₁ h₂ hbid' hcovered' fun _ => rfl
    refine .inr ⟨htrades, fun hresult => hgone ?_⟩
    cases taker with
    | true => rfl
    | false => cases maker <;> rcases hresult with hresult | hresult <;> cases hresult

/-! ### Matches with settlement requests -/

/-- Rounding does not raise what the call order receives. -/
theorem settleTrade_le {call : CallOrder} {settle : ForceSettlement} {callPays callReceives pays receives : Asset}
    {cull : Bool} (h : settleTrade call settle callPays callReceives p = .ok (pays, receives, cull))
    (hp : p.base.assetId ≠ p.quote.assetId) (hpays : mul callReceives p = .ok callPays) (hpos : 0 ≤ callReceives.amount) :
    receives.amount ≤ callReceives.amount := by
  unfold settleTrade at h
  split at h
  · cases pure_eq_ok.mp h
    exact le_refl _
  · split at h
    · obtain ⟨_, -, h⟩ := bind_eq_ok.mp h
      cases pure_eq_ok.mp h
      exact le_refl _
    · obtain ⟨roundedUp, hround, h⟩ := bind_eq_ok.mp h
      cases pure_eq_ok.mp h
      have hback := (mul_roundUp_le hp hpays hround).2
      omega

theorem cancelSettleOrder_trades {r : ForceSettlement} {t : Option Nat} (h : d.cancelSettleOrder r = .ok d')
    (hfind : d.findSettlement r.id = some r) : Trades t d d' ∧ d'.limitOrders = d.limitOrders := by
  obtain ⟨hdeals, hlimits, -⟩ := cancelSettleOrder_deals (t := t) h hfind
  exact ⟨hdeals.trades ⟨fun a => by simp, fun a => by simp, fun account => by simp⟩, hlimits⟩

/-- A call order and a settlement request trade, or the request is cancelled, or nothing happens. -/
theorem matchSettlement_trades {call : CallOrder} {settle : ForceSettlement} {max received : Asset} {fillPrice : Price}
    {t : Option Nat} (h : d.matchSettlement call settle p max fillPrice = .ok (received, d')) (hd : d.Sound)
    (hcall : call ∈ d.callOrders) (hsettle : d.findSettlement settle.id = some settle)
    (hp : p.base.assetId ≠ p.quote.assetId) (hmax : 0 < max.amount) : Trades t d d' ∧ d'.limitOrders = d.limitOrders := by
  simp only [matchSettlement, bind_eq_ok, fcAssert_eq_ok] at h
  obtain ⟨-, -, -, ⟨hdebt, -, hbalance⟩, -, -, callPays, hpays, h⟩ := h
  split at h
  · obtain ⟨d₁, h₁, h⟩ := bind_eq_ok.mp h
    cases pure_eq_ok.mp h
    split at h₁
    · exact cancelSettleOrder_trades h₁ hsettle
    · cases h₁
      exact ⟨Trades.refl, rfl⟩
  · simp only [bind_eq_ok, pure_eq_ok] at h
    obtain ⟨⟨pays, receives, cull⟩, htrade, ⟨filled, d₁⟩, h₁, ⟨filled', d₂⟩, h₂, d₃, h₃, h⟩ := h
    cases h
    have hle := settleTrade_le htrade hp hpays (le_min (le_min hbalance.le hmax.le) hdebt.le)
    obtain ⟨⟨freed, f₁⟩, hlimits, hrequests, -⟩ := fillCallOrder_deals (t := t) h₁ hd hcall (hle.trans (min_le_right _ _))
    have hsettle₁ : d₁.findSettlement settle.id = some settle := by rwa [findSettlement, hrequests]
    obtain ⟨f₂, hlimits', -⟩ := fillSettleOrder_deals (t := t) h₂ hsettle₁
      (hle.trans ((min_le_left _ _).trans (min_le_left _ _)))
    have htrades : Trades t d d₂ := (f₁.trans f₂).trades ⟨fun a => by simp, fun a => by simp, fun account => by simp⟩
    split at h₃
    · split at h₃
      · rename_i s hs
        obtain ⟨hcancel, hlimits''⟩ := cancelSettleOrder_trades (t := t) h₃ (by
          have : s.id = settle.id := by simpa using List.find?_some hs
          rwa [this])
        exact ⟨htrades.trans hcancel, hlimits''.trans (hlimits'.trans hlimits)⟩
      · exact (throw_ne_ok.mp h₃).elim
    · cases h₃
      exact ⟨htrades, hlimits'.trans hlimits⟩

end

end Database

end Khc.Market
