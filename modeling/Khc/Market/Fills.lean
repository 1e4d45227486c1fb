import Khc.Market.Database

/-! Orders that are cancelled, culled and filled (`db_market.cpp`). All hard forks are active. -/

namespace Khc.Market

open Lib
open Chain (Asset Price AccountId AssetId hasFlag graphene100Percent)

/-- `charge_market_fee` -/
def chargeMarketFee : Chain.Flag := 0x01

namespace Database
variable (d : Database)

/-! ### Limit orders that go -/

/-- The core fee for a cancellation, which the deferred fee caps -/
def coreCancelFee (order : LimitOrder) (createVirtualOp : Bool) : Int :=
  if createVirtualOp ∧ order.deferredFee > 0 then
    min (d.parameters.currentFees (.limitOrderCancel ⟨⟨0, 0⟩, order.seller, order.id⟩)) order.deferredFee
  else 0

/-- The part of the originally paid fee that goes with it, rounded up -/
def paidCancelFee (order : LimitOrder) (coreCancelFee : Int) : Int :=
  (order.deferredPaidFee.amount * coreCancelFee + order.deferredFee - 1) / order.deferredFee

/-- `database::cancel_limit_order`. After hard fork 604 the cancellation fee is never skipped. -/
def cancelLimitOrder (order : LimitOrder) (createVirtualOp : Bool) : Eval Database := do
  let coreFee := d.coreCancelFee order createVirtualOp
  let paid := order.deferredPaidFee
  let paidFee : Asset := ⟨if coreFee > 0 then paidCancelFee order coreFee else 0, paid.assetId⟩
  let d ← (if coreFee > 0 then d.payFee order.seller coreFee else .ok d)
  let d ← (if coreFee > 0 ∧ paid.amount ≠ 0 then d.accumulateFees paidFee else .ok d)
  -- refund funds in order
  let d ← d.adjustCoreInOrders order.seller order.amountForSale.neg
  let d ← d.adjustBalance order.seller order.amountForSale
  -- refund fee
  let d ← (if paid.amount = 0 then d.adjustBalance order.seller ⟨order.deferredFee - coreFee, 0⟩
    else do
      let d ← d.adjustBalance order.seller ⟨paid.amount - paidFee.amount, paid.assetId⟩
      d.fundFeePool paid.assetId (order.deferredFee - coreFee))
  let fee : Asset := if coreFee > 0 then (if paid.amount = 0 then ⟨coreFee, 0⟩ else paidFee) else ⟨0, 0⟩
  let d := if createVirtualOp then d.pushAppliedOperation (.limitOrderCancel order.id order.seller fee) else d
  return d.removeLimitOrder order.id

/-- `maybe_cull_small_order` -/
def maybeCullSmallOrder (order : LimitOrder) : Eval (Bool × Database) := do
  if (← order.amountToReceive).amount = 0 then return (true, ← d.cancelLimitOrder order true)
  else return (false, d)

/-! ### Market fees -/

/-- `database::calculate_market_fee` -/
def calculateMarketFee (tradeAsset : AssetObject) (tradeAmount : Asset) : Asset :=
  if ¬hasFlag tradeAsset.options.flags chargeMarketFee then ⟨0, tradeAmount.assetId⟩
  else if tradeAsset.options.marketFeePercent = 0 then ⟨0, tradeAmount.assetId⟩
  else
    let percentFee : Int := (tradeAmount.amount.toNat * tradeAsset.options.marketFeePercent / graphene100Percent : Nat)
    ⟨if percentFee > tradeAsset.options.maxMarketFee then tradeAsset.options.maxMarketFee else percentFee,
      tradeAmount.assetId⟩

/-- `database::pay_market_fees` -/
def payMarketFees (recvAsset : AssetObject) (receives : Asset) : Eval (Asset × Database) := do
  let issuerFees := calculateMarketFee recvAsset receives
  return (issuerFees, ← (if issuerFees.amount > 0 then d.accumulateFees issuerFees else .ok d))

/-- `database::pay_order` -/
def payOrder (receiver : AccountId) (receives pays : Asset) : Eval Database := do
  let d ← d.adjustCoreInOrders receiver pays.neg
  d.adjustBalance receiver receives

/-! ### Fills -/

/-- A limit order after a part of it is sold; its deferred fees are paid. -/
def soldOff (order : LimitOrder) (pays : Asset) : LimitOrder :=
  { order with
    forSale := order.forSale - pays.amount
    deferredFee := 0
    deferredPaidFee := ⟨0, order.deferredPaidFee.assetId⟩
    deferredFee_nonneg := zero_nonneg
    deferredPaidFee_nonneg := zero_nonneg }

/-- `database::fill_limit_order`; whether the order is gone -/
def fillLimitOrder (order : LimitOrder) (pays receives : Asset) (cullIfSmall : Bool) (fillPrice : Price)
    (isMaker : Bool) : Eval (Bool × Database) := do
  fcAssert (order.sellAssetId = pays.assetId) .assetMismatch
  fcAssert (pays.assetId ≠ receives.assetId) .assetMismatch
  let _ ← d.getAccount order.seller
  let recvAsset ← d.getAsset receives.assetId
  let (issuerFees, d) ← d.payMarketFees recvAsset receives
  let d ← d.payOrder order.seller ⟨receives.amount - issuerFees.amount, receives.assetId⟩ pays
  let d := d.pushAppliedOperation (.fillOrder (.limit order.id) order.seller pays receives issuerFees fillPrice isMaker)
  let d ← (if order.deferredFee > 0 then d.payFee order.seller order.deferredFee else .ok d)
  let d ← (if order.deferredPaidFee.amount > 0 then d.accumulateFees order.deferredPaidFee else .ok d)
  if pays = order.amountForSale then return (true, d.removeLimitOrder order.id)
  else
    let d := d.setLimitOrder (soldOff order pays)
    if cullIfSmall then d.maybeCullSmallOrder (soldOff order pays) else return (false, d)

/-- `database::fill_call_order`; whether the order is gone -/
def fillCallOrder (order : CallOrder) (pays receives : Asset) (fillPrice : Price) (isMaker : Bool) :
    Eval (Bool × Database) := do
  fcAssert (order.debtType = receives.assetId) .assetMismatch
  fcAssert (order.collateralType = pays.assetId) .assetMismatch
  fcAssert (order.collateral ≥ pays.amount) .notEnoughCollateral
  let mia ← d.getBitasset receives.assetId
  let debt ← safe (order.debt - receives.amount)
  let collateral ← safe (order.collateral - pays.amount)
  let filled := debt = 0
  let d ← (if filled then .ok (d.removeCallOrder order.id)
    else do
      let callPrice ← callPrice ⟨debt, order.debtType⟩ ⟨collateral, order.collateralType⟩
        mia.currentFeed.maintenanceCollateralRatio
      .ok (d.setCallOrder { order with debt, collateral, callPrice }))
  let d ← d.changeSupply receives.neg
  let d ← (if filled then d.adjustBalance order.borrower ⟨collateral, order.collateralType⟩ else .ok d)
  let d ← (if filled then d.adjustCoreInOrders order.borrower ⟨-collateral, order.collateralType⟩ else .ok d)
  let d ← d.adjustCoreInOrders order.borrower pays.neg
  return (filled, d.pushAppliedOperation
    (.fillOrder (.call order.id) order.borrower pays receives ⟨0, pays.assetId⟩ fillPrice isMaker))

/-- `database::cancel_settle_order` -/
def cancelSettleOrder (order : ForceSettlement) : Eval Database := do
  let d ← d.adjustBalance order.owner order.balance
  return (d.pushAppliedOperation (.assetSettleCancel order.id order.owner order.balance)).removeSettlement order.id

/-- `database::fill_settle_order`; whether the order is gone -/
def fillSettleOrder (settle : ForceSettlement) (pays receives : Asset) (fillPrice : Price) (isMaker : Bool) :
    Eval (Bool × Database) := do
  let recvAsset ← d.getAsset receives.assetId
  let (issuerFees, d) ← d.payMarketFees recvAsset receives
  fcAssert (pays.assetId = settle.balance.assetId) .assetMismatch
  let filled := ¬pays.amount < settle.balance.amount
  let d := if filled then d
    else d.setSettlement { settle with balance := ⟨settle.balance.amount - pays.amount, settle.balance.assetId⟩ }
  let d ← d.adjustBalance settle.owner ⟨receives.amount - issuerFees.amount, receives.assetId⟩
  let d := d.pushAppliedOperation
    (.fillOrder (.settlement settle.id) settle.owner pays receives issuerFees fillPrice isMaker)
  return (filled, if filled then d.removeSettlement settle.id else d)

end Database

end Khc.Market
