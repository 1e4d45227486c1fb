import Khc.Market.Matching
import Khc.Market.Products

/-! The operations of the market: their own checks, the handling of their fees, and what they do (`evaluator.cpp`,
    `market_evaluator.cpp`, `asset_evaluator.cpp`, `protocol/market.cpp`, `protocol/asset_ops.cpp`). -/

namespace Khc.Market

open Lib
open Chain (Asset Price AccountId AssetId AccountObject AssetOptions hasFlag)

/-! ### Checks of the data alone -/

/-- `get_price()` -/
def LimitOrderCreate.price (o : LimitOrderCreate) : Price := ⟨o.amountToSell, o.minToReceive⟩

/-- The `validate()` of an operation, but for the fee -/
def Operation.Accepted : Operation → Prop
  | limitOrderCreate o => o.price.Valid
  | limitOrderCancel _ => True
  | callOrderUpdate o => o.deltaCollateral.assetId ≠ o.deltaDebt.assetId ∧
      (o.deltaCollateral.amount ≠ 0 ∨ o.deltaDebt.amount ≠ 0)
  | bidCollateral o => o.debtCovered.amount = 0 ∨ (o.debtCovered.amount > 0 ∧ o.additionalCollateral.amount > 0)
  | assetSettle o => o.amount.amount ≥ 0
  | assetGlobalSettle o => o.assetToSettle = o.settlePrice.base.assetId
  | assetClaimFees o => o.amountToClaim.amount > 0
  | assetPublishFeed o => o.feed.IsMedianFor o.assetId

instance : (op : Operation) → Decidable op.Accepted
  | .limitOrderCreate o => inferInstanceAs (Decidable o.price.Valid)
  | .limitOrderCancel _ => .isTrue trivial
  | .callOrderUpdate _ => inferInstanceAs (Decidable (_ ∧ _))
  | .bidCollateral _ => inferInstanceAs (Decidable (_ ∨ _))
  | .assetSettle o => inferInstanceAs (Decidable (o.amount.amount ≥ 0))
  | .assetGlobalSettle o => inferInstanceAs (Decidable (o.assetToSettle = o.settlePrice.base.assetId))
  | .assetClaimFees o => inferInstanceAs (Decidable (o.amountToClaim.amount > 0))
  | .assetPublishFeed o => inferInstanceAs (Decidable (o.feed.IsMedianFor o.assetId))

/-! ### Fees -/

/-- The fee of an operation and what it is worth in the core asset (`fee_from_account`, `core_fee_paid`) -/
structure PaidFee where
  fee : Asset
  core : Int
  fee_nonneg : 0 ≤ fee.amount
  core_nonneg : 0 ≤ core

/-- `is_authorized_asset` -/
def isAuthorizedAsset (acct : AccountObject) (asset : AssetId) (options : AssetOptions) : Bool :=
  if ¬hasFlag options.flags Chain.whiteList ∧ acct.allowedAssets = none then true
  else if acct.allowedAssets.any (asset ∉ ·) then false
  else if acct.blacklistingAccounts.any (· ∈ options.blacklistAuthorities) then false
  else if options.whitelistAuthorities = [] then true
  else acct.whitelistingAccounts.any (· ∈ options.whitelistAuthorities)

namespace Database
variable (d : Database)

/-- `generic_evaluator::prepare_fee` -/
def prepareFee (account : AccountId) (fee : Asset) : Eval PaidFee :=
  if hfee : 0 ≤ fee.amount then do
    let payer ← d.getAccount account
    let _ ← d.getStatistics account
    let feeAsset ← d.getAsset fee.assetId
    let dyn ← d.getDynamicData fee.assetId
    fcAssert (isAuthorizedAsset payer fee.assetId feeAsset.options) .unauthorized
    if fee.assetId = 0 then .ok ⟨fee, fee.amount, hfee, hfee⟩
    else
      match h : mul fee feeAsset.options.coreExchangeRate with
      | .error e => .error e
      | .ok fromPool => do
        fcAssert (fromPool.assetId = 0) .fee
        fcAssert (fromPool.amount ≤ dyn.feePool) .fee
        .ok ⟨fee, fromPool.amount, hfee, mul_nonneg h⟩
  else throw .fee

/-- `generic_evaluator::convert_fee` and `pay_fee` -/
def takeFee (payer : AccountId) (paid : PaidFee) : Eval Database := do
  let d ← (if paid.fee.assetId = 0 then .ok d
    else do
      let d ← d.accumulateFees paid.fee
      d.fundFeePool paid.fee.assetId (-paid.core))
  d.payFee payer paid.core

/-- `limit_order_create_evaluator::convert_fee`; its `pay_fee` keeps the fee for the order. -/
def convertDeferredFee (paid : PaidFee) : Eval Database :=
  if paid.fee.assetId = 0 then .ok d else d.fundFeePool paid.fee.assetId (-paid.core)

/-! ### Limit orders -/

/-- `limit_order_create_evaluator::do_evaluate` -/
def evaluateLimitOrderCreate (o : LimitOrderCreate) : Eval Unit := do
  fcAssert (o.expiration ≥ d.headBlockTime) .expired
  let seller ← d.getAccount o.seller
  let sellAsset ← d.getAsset o.amountToSell.assetId
  let receiveAsset ← d.getAsset o.minToReceive.assetId
  fcAssert (sellAsset.options.whitelistMarkets ≠ [] → o.minToReceive.assetId ∈ sellAsset.options.whitelistMarkets)
    .unauthorized
  fcAssert (o.minToReceive.assetId ∉ sellAsset.options.blacklistMarkets) .unauthorized
  fcAssert (isAuthorizedAsset seller o.amountToSell.assetId sellAsset.options) .unauthorized
  fcAssert (isAuthorizedAsset seller o.minToReceive.assetId receiveAsset.options) .unauthorized
  fcAssert (d.getBalance o.seller o.amountToSell.assetId ≥ o.amountToSell.amount) .insufficientBalance

/-- The order that an operation makes -/
def newLimitOrder (o : LimitOrderCreate) (paid : PaidFee) (valid : o.price.Valid) : LimitOrder where
  id := d.nextLimitOrder
  expiration := o.expiration
  seller := o.seller
  forSale := o.amountToSell.amount
  sellPrice := o.price
  deferredFee := paid.core
  deferredPaidFee := if paid.fee.assetId = 0 then ⟨0, 0⟩ else paid.fee
  valid
  deferredFee_nonneg := paid.core_nonneg
  deferredPaidFee_nonneg := by split <;> simp [paid.fee_nonneg]

/-- `create< limit_order_object >` -/
def createLimitOrder (o : LimitOrder) : Database :=
  { d with limitOrders := d.limitOrders ++ [o], nextLimitOrder := d.nextLimitOrder + 1 }

/-- `limit_order_create_evaluator::do_apply` -/
def applyLimitOrderCreate (fuel : Nat) (o : LimitOrderCreate) (paid : PaidFee) : Eval Database :=
  if valid : o.price.Valid then do
    let d ← d.adjustCoreInOrders o.seller o.amountToSell
    let d ← d.adjustBalance o.seller o.amountToSell.neg
    let newOrder := d.newLimitOrder o paid valid
    let (filled, d) ← (d.createLimitOrder newOrder).applyOrder fuel newOrder
    fcAssert (o.fillOrKill → filled) .fillOrKill
    return d
  else throw .invalidOperation

/-- `limit_order_cancel_evaluator::do_evaluate` -/
def evaluateLimitOrderCancel (o : LimitOrderCancel) : Eval Unit := do
  let order ← d.getLimitOrder o.order
  fcAssert (order.seller = o.feePayingAccount) .notOwner

/-- `limit_order_cancel_evaluator::do_apply` -/
def applyLimitOrderCancel (o : LimitOrderCancel) : Eval Database := do
  d.cancelLimitOrder (← d.getLimitOrder o.order) false

/-! ### Call orders -/

/-- `call_order_update_evaluator::do_evaluate` -/
def evaluateCallOrderUpdate (o : CallOrderUpdate) : Eval Unit := do
  let _ ← d.getAccount o.fundingAccount
  let bitasset ← d.getBitasset o.deltaDebt.assetId
  fcAssert (¬bitasset.hasSettlement) .settlement
  fcAssert (o.deltaCollateral.assetId = bitasset.options.shortBackingAsset) .assetMismatch
  if bitasset.isPredictionMarket then fcAssert (o.deltaCollateral.amount = o.deltaDebt.amount) .predictionMarket
  else fcAssert (¬bitasset.currentFeed.settlementPrice.isNull) .noFeed
  fcAssert (o.deltaCollateral.amount > 0 →
    d.getBalance o.fundingAccount bitasset.options.shortBackingAsset ≥ o.deltaCollateral.amount) .insufficientBalance

/-- A call order after an update -/
def updatedCallOrder (call : CallOrder) (o : CallOrderUpdate) (maintenanceCollateralRatio : Nat) : Eval CallOrder := do
  let collateral ← safe (call.collateral + o.deltaCollateral.amount)
  let debt ← safe (call.debt + o.deltaDebt.amount)
  let callPrice ← (if debt > 0 then
      callPrice ⟨debt, call.debtType⟩ ⟨collateral, call.collateralType⟩ maintenanceCollateralRatio
    else .ok call.callPrice)
  return { call with collateral, debt, callPrice, targetCollateralRatio := o.targetCollateralRatio }

/-- The new or the updated call order, and the one before the update -/
def placeCallOrder (o : CallOrderUpdate) (bitasset : BitassetData) : Eval (CallOrder × Option CallOrder × Database) := do
  let mcr := bitasset.currentFeed.maintenanceCollateralRatio
  match d.callOrders.find? fun c => c.borrower = o.fundingAccount ∧ c.debtType = o.deltaDebt.assetId with
  | none =>
    fcAssert (o.deltaCollateral.amount > 0) .callOrderUpdate
    fcAssert (o.deltaDebt.amount > 0) .callOrderUpdate
    let callPrice ← callPrice o.deltaDebt o.deltaCollateral mcr
    let call : CallOrder := ⟨d.nextCallOrder, o.fundingAccount, o.deltaCollateral.amount, o.deltaDebt.amount, callPrice,
      o.targetCollateralRatio⟩
    return (call, none, ← d.createCallOrder call)
  | some old =>
    let call ← updatedCallOrder old o mcr
    return (call, some old, d.setCallOrder call)

/-- "always allow call order to be updated if collateral ratio is increased and debt is not increased" -/
def allowedUncalled (call : CallOrder) (old : Option CallOrder) (settlementPrice : Price) : Prop :=
  (∃ o ∈ old, call.debt ≤ o.debt ∧ call.collateralization.gt o.collateralization) ∨
    call.callPrice.inv.lt settlementPrice

instance (call : CallOrder) (old : Option CallOrder) (p : Price) : Decidable (allowedUncalled call old p) :=
  match old with
  | none => decidable_of_iff (call.callPrice.inv.lt p = true) (by simp [allowedUncalled])
  | some o => decidable_of_iff ((call.debt ≤ o.debt ∧ call.collateralization.gt o.collateralization = true) ∨
      call.callPrice.inv.lt p = true) (by simp [allowedUncalled])

/-- The checks of a call order after its update: "see if the order needs to be margin called now, but don't allow black
    swans" -/
def checkUpdatedCall (fuel : Nat) (mia : AssetId) (call : CallOrder) (old : Option CallOrder) : Eval Database := do
  let bitasset ← d.getBitasset mia
  let (called, d) ← d.checkCallOrders fuel mia false
  if called then
    fcAssert (d.findCallOrder call.id = none) .callOrderUpdate
    return d
  else
    match d.findCallOrder call.id with
    | none => throw .callOrderUpdate
    | some call =>
      fcAssert (allowedUncalled call old bitasset.currentFeed.settlementPrice) .callOrderUpdate
      return d

/-- `call_order_update_evaluator::do_apply` -/
def applyCallOrderUpdate (fuel : Nat) (o : CallOrderUpdate) : Eval Database := do
  let bitasset ← d.getBitasset o.deltaDebt.assetId
  let d ← (if o.deltaDebt.amount ≠ 0 then do
      let d ← d.adjustBalance o.fundingAccount o.deltaDebt
      let d ← d.changeSupply o.deltaDebt
      fcAssert ((← d.getDynamicData o.deltaDebt.assetId).currentSupply ≥ 0) .callOrderUpdate
      .ok d
    else .ok d)
  let d ← (if o.deltaCollateral.amount ≠ 0 then do
      let d ← d.adjustBalance o.fundingAccount o.deltaCollateral.neg
      d.adjustCoreInOrders o.fundingAccount o.deltaCollateral
    else .ok d)
  let (call, old, d) ← d.placeCallOrder o bitasset
  if call.debt = 0 then
    fcAssert (call.collateral = 0) .callOrderUpdate
    return d.removeCallOrder call.id
  else
    fcAssert (call.collateral > 0 ∧ call.debt > 0) .callOrderUpdate
    if bitasset.isPredictionMarket then return d
    else d.checkUpdatedCall fuel o.deltaDebt.assetId call old

/-! ### Collateral bids -/

/-- The bid of an account on an asset, in the index `by_account` -/
def findBid (bidder : AccountId) (asset : AssetId) : Option CollateralBid :=
  d.bids.find? fun b => b.debtType = asset ∧ b.bidder = bidder

/-- `bid_collateral_evaluator::do_evaluate` -/
def evaluateBidCollateral (o : BidCollateral) : Eval Unit := do
  let _ ← d.getAccount o.bidder
  let bitasset ← d.getBitasset o.debtCovered.assetId
  fcAssert bitasset.hasSettlement .settlement
  fcAssert (o.additionalCollateral.assetId = bitasset.options.shortBackingAsset) .assetMismatch
  fcAssert (¬bitasset.isPredictionMarket) .predictionMarket
  fcAssert (o.additionalCollateral.amount > 0 →
    d.getBalance o.bidder bitasset.options.shortBackingAsset ≥ o.additionalCollateral.amount) .insufficientBalance
  fcAssert (d.findBid o.bidder o.debtCovered.assetId = none → o.debtCovered.amount > 0) .noBid

/-- `bid_collateral_evaluator::do_apply` -/
def applyBidCollateral (o : BidCollateral) : Eval Database := do
  let d ← (match d.findBid o.bidder o.debtCovered.assetId with
    | some bid => d.cancelBid bid false
    | none => .ok d)
  if o.debtCovered.amount = 0 then return d
  let d ← d.adjustBalance o.bidder o.additionalCollateral.neg
  let price ← mkPrice o.additionalCollateral o.debtCovered
  return (← d.createBid o.bidder price).2

/-! ### Settlements -/

/-- `asset_settle_evaluator::do_evaluate` -/
def evaluateAssetSettle (o : AssetSettle) : Eval Unit := do
  let asset ← d.getAsset o.amount.assetId
  let bitasset ← d.getBitasset o.amount.assetId
  fcAssert (¬hasFlag asset.options.flags Chain.disableForceSettle ∨ bitasset.hasSettlement) .settlement
  if bitasset.isPredictionMarket then fcAssert bitasset.hasSettlement .settlement
  else fcAssert (¬(bitasset.currentFeed.settlementPrice.isNull ∧ ¬bitasset.hasSettlement)) .noFeed
  let _ ← d.getAccount o.account
  fcAssert (d.getBalance o.account o.amount.assetId ≥ o.amount.amount) .insufficientBalance

/-- What a holder gets from the settlement fund and what it pays for that -/
def settledAmount (bitasset : BitassetData) (amount : Asset) (currentSupply : Int) : Eval (Asset × Asset) := do
  let settled ← mul amount bitasset.settlementPrice -- round down, in favor of global settlement fund
  if amount.amount = currentSupply then
    fcAssert (bitasset.settlementFund = 0 → bitasset.isPredictionMarket) .settleAmountTooSmall
    return (⟨bitasset.settlementFund, settled.assetId⟩, amount)
  else
    fcAssert (settled.amount ≤ bitasset.settlementFund) .fundTooSmall
    fcAssert (settled.amount = 0 → bitasset.isPredictionMarket) .settleAmountTooSmall
    return (settled, ← (if settled.amount ≠ 0 then multiplyAndRoundUp settled bitasset.settlementPrice else .ok amount))

/-- `asset_settle_evaluator::do_apply` for an asset that has a settlement -/
def settleFromFund (o : AssetSettle) (bitasset : BitassetData) : Eval Database := do
  let currentSupply := (← d.getDynamicData o.amount.assetId).currentSupply
  let (settled, pays) ← settledAmount bitasset o.amount currentSupply
  let d ← d.adjustBalance o.account pays.neg
  let d ← (if settled.amount > 0 then
      (d.modifyBitasset o.amount.assetId fun b => { b with settlementFund := b.settlementFund - settled.amount }).adjustBalance
        o.account settled
    else .ok d)
  d.changeSupply ⟨-pays.amount, o.amount.assetId⟩

/-- `asset_settle_evaluator::do_apply` -/
def applyAssetSettle (o : AssetSettle) : Eval Database := do
  let bitasset ← d.getBitasset o.amount.assetId
  if bitasset.hasSettlement then d.settleFromFund o bitasset
  else
    let d ← d.adjustBalance o.account o.amount.neg
    let settlement : ForceSettlement := ⟨d.nextSettlement, o.account, o.amount,
      d.headBlockTime + bitasset.options.forceSettlementDelaySec⟩
    return { d with settlements := d.settlements ++ [settlement], nextSettlement := d.nextSettlement + 1 }

/-- `asset_global_settle_evaluator::do_evaluate` -/
def evaluateAssetGlobalSettle (o : AssetGlobalSettle) : Eval Unit := do
  let asset ← d.getAsset o.assetToSettle
  let bitasset ← d.getBitasset o.assetToSettle
  fcAssert (hasFlag asset.options.issuerPermissions Chain.globalSettle) .unauthorized
  fcAssert (asset.issuer = o.issuer) .notOwner
  fcAssert ((← d.getDynamicData o.assetToSettle).currentSupply > 0) .settlement
  fcAssert (¬bitasset.hasSettlement) .settlement
  match d.callsCollateralizedFrom (.min bitasset.options.shortBackingAsset o.assetToSettle) with
  | [] => throw .undefinedBehavior
  | least :: _ =>
    let pays ← mul least.getDebt o.settlePrice
    fcAssert (pays.assetId = least.collateralType) .assetMismatch
    fcAssert (pays.amount ≤ least.collateral) .notEnoughCollateral

/-- `asset_global_settle_evaluator::do_apply` -/
def applyAssetGlobalSettle (o : AssetGlobalSettle) : Eval Database := d.globallySettleAsset o.assetToSettle o.settlePrice

/-! ### Fees and feeds -/

/-- `asset_claim_fees_evaluator::do_evaluate` -/
def evaluateAssetClaimFees (o : AssetClaimFees) : Eval Unit := do
  fcAssert ((← d.getAsset o.amountToClaim.assetId).issuer = o.issuer) .notOwner

/-- `asset_claim_fees_evaluator::do_apply` -/
def applyAssetClaimFees (o : AssetClaimFees) : Eval Database := do
  fcAssert (o.amountToClaim.amount ≤ (← d.getDynamicData o.amountToClaim.assetId).accumulatedFees) .claimTooLarge
  let d ← d.accumulateFees o.amountToClaim.neg
  d.adjustBalance o.issuer o.amountToClaim

/-- `asset_publish_feeds_evaluator::do_evaluate`. Who may publish is left open. -/
def evaluateAssetPublishFeed (o : AssetPublishFeed) : Eval Unit := do
  let _ ← d.getAsset o.assetId
  let bitasset ← d.getBitasset o.assetId
  fcAssert (bitasset.isPredictionMarket → ¬bitasset.hasSettlement) .settlement
  fcAssert (¬o.feed.settlementPrice.isNull → o.feed.settlementPrice.quote.assetId = bitasset.options.shortBackingAsset)
    .assetMismatch

/-- Whether the fund of a settled asset is worth enough at the new feed to bring the asset back -/
def canRevive (bad : BitassetData) (mia : AssetId) (currentSupply : Int) : Eval Bool := do
  if bad.currentFeed.settlementPrice.isNull then return false
  if currentSupply = 0 then return true
  let callPrice ← callPrice ⟨currentSupply, mia⟩ ⟨bad.settlementFund, bad.options.shortBackingAsset⟩
    bad.currentFeed.maintenanceCollateralRatio
  return callPrice.inv.lt bad.currentFeed.settlementPrice

/-- `asset_publish_feeds_evaluator::do_apply` -/
def applyAssetPublishFeed (fuel : Nat) (o : AssetPublishFeed) : Eval Database := do
  let old ← d.getBitasset o.assetId
  let d := d.modifyBitasset o.assetId fun b => { b with currentFeed := o.feed }
  if old.currentFeed.same o.feed then return d
  let bad ← d.getBitasset o.assetId
  let d ← (if bad.hasSettlement then do
      let currentSupply := (← d.getDynamicData o.assetId).currentSupply
      if ← canRevive bad o.assetId currentSupply then d.reviveBitasset o.assetId else .ok d
    else .ok d)
  return (← d.checkCallOrders fuel o.assetId true).2

/-! ### Operations -/

/-- `do_evaluate` -/
def doEvaluate : Operation → Eval Unit
  | .limitOrderCreate o => d.evaluateLimitOrderCreate o
  | .limitOrderCancel o => d.evaluateLimitOrderCancel o
  | .callOrderUpdate o => d.evaluateCallOrderUpdate o
  | .bidCollateral o => d.evaluateBidCollateral o
  | .assetSettle o => d.evaluateAssetSettle o
  | .assetGlobalSettle o => d.evaluateAssetGlobalSettle o
  | .assetClaimFees o => d.evaluateAssetClaimFees o
  | .assetPublishFeed o => d.evaluateAssetPublishFeed o

/-- `convert_fee` and `pay_fee` -/
def convertAndPayFee (op : Operation) (paid : PaidFee) : Eval Database :=
  match op with
  | .limitOrderCreate _ => d.convertDeferredFee paid
  | _ => d.takeFee op.feePayer paid

/-- `do_apply` -/
def doApply (fuel : Nat) (op : Operation) (paid : PaidFee) : Eval Database :=
  match op with
  | .limitOrderCreate o => d.applyLimitOrderCreate fuel o paid
  | .limitOrderCancel o => d.applyLimitOrderCancel o
  | .callOrderUpdate o => d.applyCallOrderUpdate fuel o
  | .bidCollateral o => d.applyBidCollateral o
  | .assetSettle o => d.applyAssetSettle o
  | .assetGlobalSettle o => d.applyAssetGlobalSettle o
  | .assetClaimFees o => d.applyAssetClaimFees o
  | .assetPublishFeed o => d.applyAssetPublishFeed fuel o

/-- `validate`, `evaluator::evaluate` and `evaluator::apply` of an operation -/
def applyOperation (fuel : Nat) (op : Operation) : Eval Database := do
  fcAssert op.Accepted .invalidOperation
  let paid ← d.prepareFee op.feePayer op.fee
  fcAssert (paid.core ≥ d.parameters.currentFees op) .fee
  d.doEvaluate op
  let d ← d.convertAndPayFee op paid
  let d ← d.doApply fuel op paid
  d.adjustBalance op.feePayer paid.fee.neg

end Database

end Khc.Market
