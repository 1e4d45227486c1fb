import Khc.Market.Settlement

/-! The matching of orders (`db_market.cpp`): limit orders with limit orders, with call orders and call orders with
    settlement requests; what a new limit order sets off, and what a new feed sets off. The loops that end only when a
    match makes them end are given the number of rounds they may take. -/

namespace Khc.Market

open Lib
open Chain (Asset Price AssetId)

/-- The bits that a match returns: whether the taker and whether the maker was filled -/
def matchResult (taker maker : Bool) : Nat := (if taker then 1 else 0) + (if maker then 2 else 0)

namespace Database
variable (d : Database)

/-! ### Two limit orders -/

/-- What the taker and the maker receive, and whether the taker is culled; none if the taker would pay something for
    nothing -/
def limitTrade (usd core : LimitOrder) (matchPrice : Price) : Eval (Option (Asset × Asset × Bool)) := do
  let coreBuys ← mul core.amountForSale matchPrice
  fcAssert (coreBuys.assetId = usd.sellAssetId) .assetMismatch
  if usd.forSale ≤ coreBuys.amount then
    let usdReceives ← mul usd.amountForSale matchPrice -- round down, in favor of bigger order
    if usdReceives.amount = 0 then return none
    return some (usdReceives, ← multiplyAndRoundUp usdReceives matchPrice, true)
  else
    return some (← multiplyAndRoundUp coreBuys matchPrice, coreBuys, false)

/-- `database::match` of a taker and a maker -/
def matchLimit (usd core : LimitOrder) (matchPrice : Price) : Eval (Nat × Database) := do
  fcAssert (usd.receiveAssetId = core.sellAssetId) .assetMismatch
  fcAssert (usd.sellAssetId = core.receiveAssetId) .assetMismatch
  fcAssert (usd.forSale > 0 ∧ core.forSale > 0) .nothingForSale
  match ← limitTrade usd core matchPrice with
  | none => return (1, d)
  | some (usdReceives, coreReceives, cullTaker) =>
    let (taker, d) ← d.fillLimitOrder usd coreReceives usdReceives cullTaker matchPrice false
    let (maker, d) ← d.fillLimitOrder core usdReceives coreReceives true matchPrice true
    fcAssert (matchResult taker maker ≠ 0) .noOrderFilled
    return (matchResult taker maker, d)

/-! ### A limit order and a call order -/

/-- What the limit order and the call order receive, and whether the limit order is culled; none if the limit order
    would pay something for nothing -/
def callTrade (bid : LimitOrder) (usdToBuy : Asset) (matchPrice : Price) : Eval (Option (Asset × Asset × Bool)) := do
  if usdToBuy.amount > bid.forSale then
    let orderReceives ← mul bid.amountForSale matchPrice -- round down, in favor of call order
    if orderReceives.amount = 0 then return none
    return some (orderReceives, ← multiplyAndRoundUp orderReceives matchPrice, true)
  else
    return some (← multiplyAndRoundUp usdToBuy matchPrice, usdToBuy, false)

/-- `database::match` of a taker and a call order -/
def matchCall (fuel : Nat) (bid : LimitOrder) (ask : CallOrder) (matchPrice feedPrice : Price)
    (maintenanceCollateralRatio : Nat) : Eval (Nat × Database) := do
  fcAssert (bid.sellAssetId = ask.debtType) .assetMismatch
  fcAssert (bid.receiveAssetId = ask.collateralType) .assetMismatch
  fcAssert (bid.forSale > 0 ∧ ask.debt > 0 ∧ ask.collateral > 0) .nothingForSale
  let usdToBuy ← ask.getMaxDebtToCover matchPrice feedPrice fuel maintenanceCollateralRatio
  match ← callTrade bid ⟨usdToBuy, ask.debtType⟩ matchPrice with
  | none => return (1, d)
  | some (orderReceives, callReceives, cullTaker) =>
    let (taker, d) ← d.fillLimitOrder bid callReceives orderReceives cullTaker matchPrice false
    let (maker, d) ← d.fillCallOrder ask orderReceives callReceives matchPrice true
    return (matchResult taker maker, d)

/-! ### A new limit order -/

/-- What `apply_order` needs to know of the margin calls that a new order can meet -/
structure CallMarket where
  callMatchPrice : Price
  feedPrice : Price
  maintenanceCollateralRatio : Nat
  deriving DecidableEq, Repr

/-- The margin calls that the order accepts the price of -/
def callMarket (o : LimitOrder) : Eval (Option CallMarket) := do
  match d.bitasset o.sellAssetId with
  | none => return none
  | some abd =>
    if abd.options.shortBackingAsset = o.receiveAssetId ∧ ¬abd.isPredictionMarket ∧ ¬abd.hasSettlement ∧
        ¬abd.currentFeed.settlementPrice.isNull then
      let callMatchPrice := (← abd.currentFeed.maxShortSqueezePrice).inv
      if o.sellPrice.inv.le callMatchPrice then
        return some ⟨callMatchPrice, abd.currentFeed.settlementPrice, abd.currentFeed.maintenanceCollateralRatio⟩
      else return none
    else return none

/-- Whether an order of the same side is the one before the order in the book -/
def behindAnother (o : LimitOrder) : Bool :=
  match (d.limitsByPrice.filter fun o' => o'.precedes o).getLast? with
  | some o' => o'.sellAssetId = o.sellAssetId ∧ o'.receiveAssetId = o.receiveAssetId
  | none => false

/-- The loops over the opposite limit orders. The iterator is advanced before a match, which takes no other order of
    that side away: the orders are those that were in the range at the start. The loop ends early at the first order
    that `more` does not hold of; whether the new order is finished, and the orders that are left. -/
def matchLimits (taker : Nat) (more : LimitOrder → Bool) :
    List LimitOrder → Database → Eval (Bool × List LimitOrder × Database)
  | [], d => .ok (false, [], d)
  | o :: os, d =>
    if more o then do
      let usd ← d.getLimitOrder taker
      let core ← d.getLimitOrder o.id
      let (result, d) ← d.matchLimit usd core core.sellPrice
      -- "match returns 2 when only the old order was fully filled"
      if result = 2 then matchLimits taker more os d else return (true, os, d)
    else .ok (false, o :: os, d)

/-- The loop over the margin calls, "always check call order with least call_price" -/
def matchCalls (taker : Nat) (sell receive : AssetId) (m : CallMarket) : Nat → Database → Eval (Bool × Database)
  | 0, _ => throw .outOfFuel
  | fuel + 1, d =>
    match d.callsFrom (.min receive sell) with
    | [] => .ok (false, d)
    | call :: _ =>
      if call.debtType ≠ sell ∨ call.callPrice.gt m.feedPrice.inv then .ok (false, d)
      else do
        let bid ← d.getLimitOrder taker
        let (result, d) ← d.matchCall fuel bid call m.callMatchPrice m.feedPrice m.maintenanceCollateralRatio
        -- "match returns 1 or 3 when the new order was fully filled"
        if result = 1 ∨ result = 3 then return (true, d) else matchCalls taker sell receive m fuel d

/-- The loops of `apply_order`, one after the other -/
def matchAll (fuel taker : Nat) (o : LimitOrder) (m : Option CallMarket) (makers : List LimitOrder) :
    Eval (Bool × Database) := do
  match m with
  | none =>
    let (finished, _, d) ← matchLimits taker (fun _ => true) makers d
    return (finished, d)
  | some m =>
    -- "check limit orders first, match the ones with better price in comparison to call orders"
    let (finished, makers, d) ← matchLimits taker (fun o => o.sellPrice.gt m.callMatchPrice) makers d
    if finished then return (true, d)
    let (finished, d) ← matchCalls taker o.sellAssetId o.receiveAssetId m fuel d
    if finished then return (true, d)
    let (finished, _, d) ← matchLimits taker (fun _ => true) makers d
    return (finished, d)

/-- `database::apply_order`; whether the new order is gone -/
def applyOrder (fuel : Nat) (newOrder : LimitOrder) : Eval (Bool × Database) := do
  -- "We only need to check if the new order will match with others if it is at the front of the book"
  if d.behindAnother newOrder then return (false, d)
  let maxPrice := newOrder.sellPrice.inv
  let makers := d.limitsBetween (.max maxPrice.base.assetId maxPrice.quote.assetId) maxPrice
  let m ← d.callMarket newOrder
  let (_, d) ← d.matchAll fuel newOrder.id newOrder m makers
  match d.findLimitOrder newOrder.id with
  | none => return (true, d)
  | some updated => d.maybeCullSmallOrder updated

/-! ### A new feed -/

/-- What a limit order and the call order that it is matched with by a new feed receive, at the limit order's price -/
def marginTrade (limit : LimitOrder) (usdToBuy : Asset) : Eval (Asset × Asset) := do
  if usdToBuy.amount > limit.forSale then
    let orderReceives ← mul limit.amountForSale limit.sellPrice -- round down, in favor of call order
    return (orderReceives, ← multiplyAndRoundUp orderReceives limit.sellPrice)
  else return (← multiplyAndRoundUp usdToBuy limit.sellPrice, usdToBuy) -- round up, in favor of limit order

/-- The loop of `check_call_orders`; whether a margin call was executed -/
def checkCallOrdersLoop (mia : AssetId) (enableBlackSwan : Bool) (bitasset : BitassetData) :
    Nat → List LimitOrder → Bool → Database → Eval (Bool × Database)
  | 0, _, _, _ => throw .outOfFuel
  | fuel + 1, limits, marginCalled, d => do
    let (swan, d) ← d.checkForBlackswan mia enableBlackSwan
    if swan then return (marginCalled, d)
    let feed := bitasset.currentFeed
    match d.callsOf bitasset.options.shortBackingAsset mia, limits with
    | [], _ => return (marginCalled, d)
    | _, [] => return (marginCalled, d)
    | call :: _, l :: rest =>
      let limit ← d.getLimitOrder l.id
      let matchPrice := limit.sellPrice
      -- "Feed protected (don't call if CR>MCR)"
      if feed.settlementPrice.gt call.callPrice.inv then return (marginCalled, d)
      let all ← mul call.getDebt matchPrice
      fcAssert (all.assetId = call.collateralType) .assetMismatch
      if all.amount > call.collateral then
        fcAssert enableBlackSwan .blackSwan
        return (true, ← d.globallySettleAsset mia feed.settlementPrice)
      else
        let toCover ← call.getMaxDebtToCover matchPrice feed.settlementPrice fuel feed.maintenanceCollateralRatio
        let usdToBuy : Asset := ⟨toCover, call.debtType⟩
        fcAssert (usdToBuy.assetId = limit.sellAssetId) .assetMismatch
        let (orderReceives, callReceives) ← marginTrade limit usdToBuy
        let (_, d) ← d.fillCallOrder call orderReceives callReceives matchPrice false
        let (reallyFilled, d) ← d.fillLimitOrder limit callReceives orderReceives true matchPrice true
        checkCallOrdersLoop mia enableBlackSwan bitasset fuel (if reallyFilled then rest else l :: rest) true d

/-- `database::check_call_orders`; whether a margin call was executed -/
def checkCallOrders (fuel : Nat) (mia : AssetId) (enableBlackSwan : Bool) : Eval (Bool × Database) := do
  match d.bitasset mia with
  | none => return (false, d)
  | some _ =>
    let (swan, d) ← d.checkForBlackswan mia enableBlackSwan
    if swan then return (false, d)
    let bitasset ← d.getBitasset mia
    if bitasset.isPredictionMarket then return (false, d)
    if bitasset.currentFeed.settlementPrice.isNull then return (false, d)
    let minPrice ← bitasset.currentFeed.maxShortSqueezePrice
    let limits := d.limitsBetween (.max mia bitasset.options.shortBackingAsset) minPrice
    if limits = [] then return (false, d)
    checkCallOrdersLoop mia enableBlackSwan bitasset fuel limits false d

/-! ### A call order and a settlement request -/

/-- What the call order pays and receives for a settlement request, and whether the request is culled -/
def settleTrade (call : CallOrder) (settle : ForceSettlement) (callPays callReceives : Asset) (matchPrice : Price) :
    Eval (Asset × Asset × Bool) := do
  if callPays.amount = 0 then return (⟨1, callPays.assetId⟩, callReceives, false)
  else if callReceives.amount = call.debt then
    return (← multiplyAndRoundUp callReceives matchPrice, callReceives, false) -- round up here, in favor of settle order
  else
    let roundedUp ← multiplyAndRoundUp callPays matchPrice
    return (callPays, roundedUp, callReceives = settle.balance ∧ roundedUp ≠ settle.balance)

/-- `database::match` of a call order and a settlement request; what the call order receives -/
def matchSettlement (call : CallOrder) (settle : ForceSettlement) (matchPrice : Price) (maxSettlement : Asset)
    (fillPrice : Price) : Eval (Asset × Database) := do
  fcAssert (call.debtType = settle.balance.assetId) .assetMismatch
  fcAssert (call.debt > 0 ∧ call.collateral > 0 ∧ settle.balance.amount > 0) .nothingForSale
  fcAssert (maxSettlement.assetId = settle.balance.assetId) .assetMismatch
  let callReceives : Asset := ⟨min (min settle.balance.amount maxSettlement.amount) call.debt, call.debtType⟩
  let callPays ← mul callReceives matchPrice -- round down here, in favor of call order, for first check
  if callPays.amount = 0 ∧ callReceives.amount ≠ call.debt then
    -- neither order will be completely filled, or the settle order is smaller
    let d ← (if callReceives = settle.balance then d.cancelSettleOrder settle else .ok d)
    return (⟨0, settle.balance.assetId⟩, d)
  else
    let (callPays, callReceives, cullSettleOrder) ← settleTrade call settle callPays callReceives matchPrice
    let (_, d) ← d.fillCallOrder call callPays callReceives fillPrice true
    let (_, d) ← d.fillSettleOrder settle callReceives callPays fillPrice false
    let d ← (if cullSettleOrder then
        match d.findSettlement settle.id with
        | some s => d.cancelSettleOrder s
        | none => throw .undefinedBehavior
      else .ok d)
    return (callReceives, d)

end Database

end Khc.Market
