import Khc.Market.Fills

/-! Global settlement, the black swan that triggers it, and the revival of a settled asset by a feed or by collateral
    bids (`db_market.cpp`, `db_update.cpp`, `db_maint.cpp`). -/

namespace Khc.Market

open Lib
open Chain (Asset Price AssetId)

namespace Database
variable (d : Database)

/-! ### Global settlement -/

/-- The call orders of a market, from `lower_bound( price::min )` to `upper_bound( price::max )` -/
def callsOf (backing mia : AssetId) : List CallOrder :=
  (d.callsFrom (.min backing mia)).filter fun c => ¬(Price.max backing mia).lt c.callPrice

/-- What a call order pays for its debt in a global settlement -/
def settlementPays (c : CallOrder) (settlementPrice : Price) : Eval Asset := do
  let pays ← multiplyAndRoundUp c.getDebt settlementPrice
  fcAssert (pays.assetId = c.collateralType) .assetMismatch
  return if pays.amount > c.collateral then c.getCollateral else pays

/-- "cancel all call orders and accumulate it into collateral_gathered" -/
def settleCalls (backing : AssetId) (settlementPrice : Price) : List CallOrder → Int → Database → Eval (Int × Database)
  | [], gathered, d => .ok (gathered, d)
  | c :: cs, gathered, d => do
    let pays ← settlementPays c settlementPrice
    fcAssert (pays.assetId = backing) .assetMismatch
    let gathered ← safe (gathered + pays.amount)
    let (filled, d) ← d.fillCallOrder c pays c.getDebt settlementPrice true
    fcAssert filled .noOrderFilled
    settleCalls backing settlementPrice cs gathered d

/-- `database::globally_settle_asset` -/
def globallySettleAsset (mia : AssetId) (settlementPrice : Price) : Eval Database := do
  let bitasset ← d.getBitasset mia
  fcAssert (¬bitasset.hasSettlement) .settlement
  let backing := bitasset.options.shortBackingAsset
  let originalMiaSupply := (← d.getDynamicData mia).currentSupply
  let (gathered, d) ← settleCalls backing settlementPrice (d.callsOf backing mia) 0 d
  let price ← mkPrice ⟨originalMiaSupply, mia⟩ ⟨gathered, backing⟩
  let d := d.modifyBitasset mia fun b => { b with settlementPrice := price, settlementFund := gathered }
  -- "the current supply will be reported as 0, but that is a lie"
  d.modifyDynamicData mia fun x => .ok { x with currentSupply := originalMiaSupply }

/-- `database::check_for_blackswan` -/
def checkForBlackswan (mia : AssetId) (enableBlackSwan : Bool) : Eval (Bool × Database) := do
  match d.bitasset mia with
  | none => return (false, d)
  | some bitasset =>
    if bitasset.hasSettlement then return (true, d)
    let settlePrice := bitasset.currentFeed.settlementPrice
    if settlePrice.isNull then return (false, d)
    let backing := bitasset.options.shortBackingAsset
    match d.callsOf backing mia with
    | [] => return (false, d)
    | call :: _ =>
      let mssp ← bitasset.currentFeed.maxShortSqueezePrice
      let highest ← (match d.limitsBetween (.max mia backing) (.min mia backing) with
        | [] => .ok mssp
        | limit :: _ => do
          fcAssert (mssp.base.assetId = limit.sellPrice.base.assetId) .assetMismatch
          .ok (if limit.sellPrice.lt mssp then mssp else limit.sellPrice))
      let leastCollateral := call.collateralization
      if leastCollateral.inv.lt highest then return (false, d)
      else
        fcAssert enableBlackSwan .blackSwan
        -- "global settle at feed price if possible"
        let price := if leastCollateral.inv.le settlePrice then settlePrice else leastCollateral.inv
        return (true, ← d.globallySettleAsset mia price)

/-! ### Revival -/

/-- `database::cancel_bid` -/
def cancelBid (bid : CollateralBid) (createVirtualOp : Bool) : Eval Database := do
  let d ← d.adjustBalance bid.bidder bid.invSwanPrice.base
  let d := if createVirtualOp then d.pushAppliedOperation
      (.bidCollateral bid.bidder bid.invSwanPrice.base ⟨0, bid.invSwanPrice.quote.assetId⟩) else d
  return d.removeBid bid.id

/-- `database::execute_bid`. The virtual operation gets its two amounts the wrong way round, as in the source. -/
def executeBid (bid : CollateralBid) (debtCovered collateralFromFund : Int) (currentFeed : PriceFeed) :
    Eval Database := do
  let collateral ← safe (bid.invSwanPrice.base.amount + collateralFromFund)
  let debt : Asset := ⟨debtCovered, bid.invSwanPrice.quote.assetId⟩
  let collateral : Asset := ⟨collateral, bid.invSwanPrice.base.assetId⟩
  let callPrice ← callPrice debt collateral currentFeed.maintenanceCollateralRatio
  let d ← d.createCallOrder ⟨d.nextCallOrder, bid.bidder, collateral.amount, debtCovered, callPrice, none⟩
  let d ← d.adjustCoreInOrders bid.bidder collateral
  return (d.pushAppliedOperation (.executeBid bid.bidder collateral debt)).removeBid bid.id

/-- The bids on an asset that are not above `price::max` -/
def bidsBelowMax (backing mia : AssetId) : List CollateralBid :=
  (d.bidsOn mia).filter fun b => ¬b.invSwanPrice.gt (Price.max backing mia)

/-- `database::_cancel_bids_and_revive_mpa` -/
def cancelBidsAndReviveMpa (mia : AssetId) : Eval Database := do
  let bad ← d.getBitasset mia
  fcAssert bad.hasSettlement .settlement
  fcAssert (¬bad.isPredictionMarket) .predictionMarket
  let d ← (d.bidsBelowMax bad.options.shortBackingAsset mia).foldlM (fun d bid => d.cancelBid bid true) d
  return d.modifyBitasset mia fun b => { b with settlementPrice := Price.default, settlementFund := 0 }

/-- `database::revive_bitasset` -/
def reviveBitasset (mia : AssetId) : Eval Database := do
  let bad ← d.getBitasset mia
  fcAssert bad.hasSettlement .settlement
  let currentSupply := (← d.getDynamicData mia).currentSupply
  fcAssert (¬bad.isPredictionMarket) .predictionMarket
  fcAssert (¬bad.currentFeed.settlementPrice.isNull) .noFeed
  let d ← (if currentSupply > 0 then do
      let issuer := (← d.getAsset mia).issuer
      let invSwanPrice ← mkPrice ⟨0, bad.options.shortBackingAsset⟩ ⟨currentSupply, mia⟩
      let (pseudoBid, d) ← d.createBid issuer invSwanPrice
      d.executeBid pseudoBid currentSupply bad.settlementFund bad.currentFeed
    else do
      fcAssert (bad.settlementFund = 0) .fundNotUsedUp
      .ok d)
  d.cancelBidsAndReviveMpa mia

/-- The first loop of `process_bids`: the bids that cover the supply, best first, and what they cover -/
def coveringBids (bad : BitassetData) (currentSupply : Int) : List CollateralBid → Int → Eval (List CollateralBid × Int)
  | [], covered => .ok ([], covered)
  | bid :: bids, covered =>
    if covered < currentSupply then do
      let fromFund ← mul bid.invSwanPrice.quote bad.settlementPrice
      fcAssert (fromFund.assetId = bid.invSwanPrice.base.assetId) .assetMismatch
      let total ← safe (fromFund.amount + bid.invSwanPrice.base.amount)
      let callPrice ← callPrice bid.invSwanPrice.quote ⟨total, fromFund.assetId⟩ bad.currentFeed.maintenanceCollateralRatio
      if callPrice.inv.lt bad.currentFeed.settlementPrice then
        let covered' ← safe (covered + bid.invSwanPrice.quote.amount)
        let (rest, all) ← coveringBids bad currentSupply bids covered'
        return (bid :: rest, all)
      else return ([], covered)
    else .ok ([], covered)

/-- The second loop of `process_bids`: the bids are executed; what is left to cover and of the fund -/
def executeBids (bad : BitassetData) : List CollateralBid → Int → Int → Database → Eval (Int × Int × Database)
  | [], toCover, remainingFund, d => .ok (toCover, remainingFund, d)
  | bid :: bids, toCover, remainingFund, d => do
    let fromFund ← mul bid.invSwanPrice.quote bad.settlementPrice
    let last := bid.invSwanPrice.quote.amount ≥ toCover
    let debt := if last then toCover else bid.invSwanPrice.quote.amount
    let collateral := if last then remainingFund else fromFund.amount
    let toCover ← safe (toCover - debt)
    let remainingFund ← safe (remainingFund - collateral)
    let d ← d.executeBid bid debt collateral bad.currentFeed
    executeBids bad bids toCover remainingFund d

/-- `database::process_bids` -/
def processBids (bad : BitassetData) : Eval Database := do
  if bad.isPredictionMarket then return d
  if bad.currentFeed.settlementPrice.isNull then return d
  let toRevive := (← mul ⟨0, bad.options.shortBackingAsset⟩ bad.settlementPrice).assetId
  let currentSupply := (← d.getDynamicData toRevive).currentSupply
  let (bids, covered) ← coveringBids bad currentSupply (d.bidsBelowMax bad.options.shortBackingAsset toRevive) 0
  if covered < currentSupply then return d
  let (toCover, remainingFund, d) ← executeBids bad bids currentSupply bad.settlementFund d
  fcAssert (remainingFund = 0) .fundNotUsedUp
  fcAssert (toCover = 0) .fundNotUsedUp
  d.cancelBidsAndReviveMpa toRevive

end Database

end Khc.Market
