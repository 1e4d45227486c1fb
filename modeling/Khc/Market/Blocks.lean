import Khc.Market.Evaluators
import Khc.Lib.Run

/-! What a block does to the market besides its operations (`db_update.cpp`, `db_maint.cpp`), and the steps of the
    market. -/

namespace Khc.Market

open Lib
open Chain (Asset Price AssetId graphene100Percent)

namespace Database
variable (d : Database)

/-! ### Expired limit orders -/

/-- The orders that `clear_expired_orders` cancels, in the order of `by_expiration` -/
def expiredOrders : List LimitOrder :=
  (d.limitOrders.filter fun o => o.expiration ≤ d.headBlockTime).insertionSort fun a b => ¬b.expiresBefore a

/-- "Cancel expired limit orders" -/
def cancelExpiredOrders : Eval Database := d.expiredOrders.foldlM (fun d o => d.cancelLimitOrder o true) d

/-! ### Force settlements -/

/-- The variables of `clear_expired_orders` that are kept from one settlement request to the next -/
structure SettleLoop where
  currentAsset : AssetId
  maxVolume : Asset
  fillPrice : Price
  finished : Bool

/-- `max_settlement_volume`, which is calculated when the asset changes -/
def SettleLoop.bounded (l : SettleLoop) (mia : BitassetData) (currentSupply : Int) : SettleLoop :=
  if l.maxVolume.assetId ≠ l.currentAsset then
    { l with maxVolume := ⟨mia.maxForceSettlementVolume currentSupply, l.currentAsset⟩ }
  else l

/-- The price at which an asset is settled by force -/
def forceSettlementPrice (mia : BitassetData) : Eval Price := do
  let percent := graphene100Percent - mia.options.forceSettlementOffsetPercent
  fcAssert (percent ≠ 0) .badRational
  scale mia.currentFeed.settlementPrice (graphene100Percent / percent)

/-- "Match against the least collateralized short until the settlement is finished or we reach max settlements": the
    volume that is settled then, and whether the asset is finished -/
def settleRequest (mia : AssetId) (backing : AssetId) (request : Nat) (price : Price) (maxVolume : Int) :
    Nat → Int → Bool → Database → Eval (Int × Bool × Database)
  | 0, _, _, _ => throw .outOfFuel
  | fuel + 1, settled, finished, d =>
    match d.findSettlement request with
    | none => .ok (settled, finished, d)
    | some order =>
      if settled < maxVolume then
        match d.callsCollateralizedFrom (.min backing mia) with
        | [] => throw .undefinedBehavior
        | call :: _ =>
          if order.balance.amount = 0 then do
            return (settled, finished, ← d.cancelSettleOrder order)
          else do
            let (newSettled, d) ← d.matchSettlement call order price ⟨maxVolume - settled, mia⟩ price
            if newSettled.amount = 0 then
              return (settled, finished || (d.findSettlement request).isSome, d)
            else
              let settled ← safe (settled + newSettled.amount)
              settleRequest mia backing request price maxVolume fuel settled finished d
      else .ok (settled, finished, d)

/-- `next_asset` -/
def nextAsset (l : SettleLoop) : Option SettleLoop :=
  match d.settlementsByExpiration.find? fun s => l.currentAsset < s.settlementAssetId with
  | none => none
  | some s => some { l with currentAsset := s.settlementAssetId, finished := false }

/-- The loop of `clear_expired_orders` over the settlement requests, "we either consume the current order and remove it,
    or we move to the next asset". After hard fork 342 the settlement price is the settlement fill price. -/
def settleRequests : Nat → SettleLoop → Database → Eval Database
  | 0, _, _ => throw .outOfFuel
  | fuel + 1, l, d =>
    match d.settlementsByExpiration.find? fun s => l.currentAsset ≤ s.settlementAssetId with
    | none => .ok d
    | some order => do
      let l := { l with currentAsset := order.settlementAssetId }
      let mia ← d.getBitasset l.currentAsset
      if mia.hasSettlement then settleRequests fuel l (← d.cancelSettleOrder order)
      else if order.settlementDate > d.headBlockTime then
        match d.nextAsset l with
        | some l => settleRequests fuel l d
        | none => return d
      else if mia.currentFeed.settlementPrice.isNull then settleRequests fuel l (← d.cancelSettleOrder order)
      else
        let currentSupply := (← d.getDynamicData l.currentAsset).currentSupply
        let l := l.bounded mia currentSupply
        if mia.forceSettledVolume ≥ l.maxVolume.amount ∨ l.finished then
          match d.nextAsset l with
          | some l => settleRequests fuel l d
          | none => return d
        else
          let fillPrice ← (if l.fillPrice.base.assetId ≠ l.currentAsset then forceSettlementPrice mia else .ok l.fillPrice)
          let (settled, finished, d) ← settleRequest l.currentAsset mia.options.shortBackingAsset order.id fillPrice
            l.maxVolume.amount fuel mia.forceSettledVolume l.finished d
          let d := d.modifyBitasset l.currentAsset fun b => { b with forceSettledVolume := settled }
          settleRequests fuel { l with fillPrice, finished } d

/-- "Process expired force settlement orders" -/
def processSettlements (fuel : Nat) : Eval Database :=
  match d.settlementsByExpiration with
  | [] => .ok d
  | s :: _ => settleRequests fuel ⟨s.settlementAssetId, ⟨0, 0⟩, Price.default, false⟩ d

/-- `database::clear_expired_orders` of a block of the given time -/
def clearExpiredOrders (fuel headBlockTime : Nat) : Eval Database := do
  let d ← { d with headBlockTime }.cancelExpiredOrders
  d.processSettlements fuel

/-! ### Feeds and maintenance -/

/-- `database::update_expired_feeds` for one asset, whose median feed becomes the given one -/
def updateExpiredFeed (fuel : Nat) (mia : AssetId) (feed : PriceFeed) : Eval Database := do
  let b ← d.getBitasset mia
  fcAssert (feed.IsMedianFor mia) .invalidOperation
  fcAssert (¬feed.settlementPrice.isNull → feed.settlementPrice.quote.assetId = b.options.shortBackingAsset) .assetMismatch
  let d := d.modifyBitasset mia fun b => { b with currentFeed := feed }
  let _ ← d.getAsset feed.settlementPrice.base.assetId
  return (← d.checkCallOrders fuel feed.settlementPrice.base.assetId true).2

/-- `database::process_bitassets` for one asset -/
def processBitasset (mia : AssetId) : Eval Database := do
  match d.bitasset mia with
  | none => return d
  | some _ =>
    let d := d.modifyBitasset mia fun b => { b with forceSettledVolume := 0 }
    let bad ← d.getBitasset mia
    if bad.hasSettlement then d.processBids bad else return d

/-- `database::process_bitassets` -/
def processBitassets : Eval Database := (List.range d.bitassets.length).foldlM (fun d mia => d.processBitasset mia) d

/-! ### Steps -/

/-- What happens to the market -/
inductive Event
  | operation (op : Operation)
  | clearExpiredOrders (headBlockTime : Nat)
  | updateExpiredFeed (mia : AssetId) (feed : PriceFeed)
  | processBitassets
  deriving DecidableEq, Repr

def handle (fuel : Nat) : Event → Eval Database
  | .operation op => d.applyOperation fuel op
  | .clearExpiredOrders headBlockTime => d.clearExpiredOrders fuel headBlockTime
  | .updateExpiredFeed mia feed => d.updateExpiredFeed fuel mia feed
  | .processBitassets => d.processBitassets

/-- A step of the market, with the number of rounds that its loops may take. A failed step leaves the state as it was,
    and is none. -/
def step (d : Database) (e : Nat × Event) : Option Database := (d.handle e.1 e.2).toOption

end Database

end Khc.Market
