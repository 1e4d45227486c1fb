import Khc.Chain.Objects
import Mathlib.Algebra.BigOperators.Group.Finset.Basic

/-! The operations on projects and their tokens, and the checks that need no chain state
    (`protocol/asset_ops.cpp`, `protocol/financing.cpp`, `protocol/transfer.cpp`). -/

namespace Khc.Chain

structure AssetCreateOperation where
  fee : Asset
  issuer : AccountId
  symbol : String
  precision : Nat
  commonOptions : AssetOptions
  bitassetOpts : Option BitassetOptions := none
  projectAssetOpts : Option ProjectAssetOptions := none
  power : Option Int := none
  isPredictionMarket : Bool := false

def AssetCreateOperation.validate (o : AssetCreateOperation) : Eval Unit := do
  fcAssert (o.fee.amount ≥ 0) .feeNegative
  fcAssert (isValidSymbol o.symbol) .invalidSymbol
  o.commonOptions.validate
  if hasFlag o.commonOptions.issuerPermissions (disableForceSettle ||| globalSettle) then
    fcAssert o.bitassetOpts.isSome .bitassetFlagOnUserIssuedAsset
  if o.isPredictionMarket then
    fcAssert o.bitassetOpts.isSome .predictionMarketWithoutBitasset
    fcAssert (hasFlag o.commonOptions.issuerPermissions globalSettle) .predictionMarketWithoutBitasset
  match o.bitassetOpts with
  | some opts => opts.validate
  | none => pure ()
  match o.projectAssetOpts with
  | some opts => opts.validate
  | none => pure ()
  let dummy ← (Asset.mk 1 0).mul o.commonOptions.coreExchangeRate
  fcAssert (dummy.assetId = 1) .coreExchangeRateAsset
  fcAssert (o.precision ≤ 12) .precisionTooLarge

structure AssetUpdateOperation where
  fee : Asset
  issuer : AccountId
  assetToUpdate : AssetId
  newIssuer : Option AccountId
  newOptions : AssetOptions

def AssetUpdateOperation.validate (o : AssetUpdateOperation) : Eval Unit := do
  fcAssert (o.fee.amount ≥ 0) .feeNegative
  fcAssert (∀ i ∈ o.newIssuer, o.issuer ≠ i) .sameAccount
  o.newOptions.validate
  let dummy ← (Asset.mk 1 o.assetToUpdate).mul o.newOptions.coreExchangeRate
  fcAssert (dummy.assetId = 0) .coreExchangeRateAsset

structure AssetUpdateIssuerOperation where
  fee : Asset
  issuer : AccountId
  assetToUpdate : AssetId
  newIssuer : AccountId

def AssetUpdateIssuerOperation.validate (o : AssetUpdateIssuerOperation) : Eval Unit := do
  fcAssert (o.fee.amount ≥ 0) .feeNegative
  fcAssert (o.issuer ≠ o.newIssuer) .sameAccount

structure AssetIssueOperation where
  fee : Asset
  issuer : AccountId
  assetToIssue : Asset
  issueToAccount : AccountId

def AssetIssueOperation.validate (o : AssetIssueOperation) : Eval Unit := do
  fcAssert (o.fee.amount ≥ 0) .feeNegative
  fcAssert (o.assetToIssue.amount ≤ maxShareSupply) .amountTooLarge
  fcAssert (o.assetToIssue.amount > 0) .amountNotPositive
  fcAssert (o.assetToIssue.assetId ≠ 0) .cantInvestCore

structure AssetReserveOperation where
  fee : Asset
  payer : AccountId
  amountToReserve : Asset

def AssetReserveOperation.validate (o : AssetReserveOperation) : Eval Unit := do
  fcAssert (o.fee.amount ≥ 0) .feeNegative
  fcAssert (o.amountToReserve.amount ≤ maxShareSupply) .amountTooLarge
  fcAssert (o.amountToReserve.amount > 0) .amountNotPositive

structure TransferOperation where
  fee : Asset
  sender : AccountId
  receiver : AccountId
  amount : Asset

def TransferOperation.validate (o : TransferOperation) : Eval Unit := do
  fcAssert (o.fee.amount ≥ 0) .feeNegative
  fcAssert (o.sender ≠ o.receiver) .sameAccount
  fcAssert (o.amount.amount > 0) .amountNotPositive

structure AssetInvestmentOperation where
  fee : Asset
  accountId : AccountId
  investmentAssetId : AssetId
  amount : Asset

def AssetInvestmentOperation.validate (o : AssetInvestmentOperation) : Eval Unit := do
  fcAssert (o.fee.amount ≥ 0) .feeNegative
  fcAssert (o.amount.amount > 0) .amountNotPositive

structure IssueAssetToInvestorsOperation where
  fee : Asset
  issue : AccountId
  investmentAssetId : AssetId

structure RefundInvestmentOperation where
  fee : Asset
  accountId : AccountId
  investmentAssetId : AssetId

structure ClaimBitassetInvestmentOperation where
  fee : Asset
  accountId : AccountId
  assetId : AssetId

structure ClaimAssetInvestmentOperation where
  fee : Asset
  accountId : AccountId
  assetId : AssetId

inductive Operation
  | transfer (o : TransferOperation)
  | assetCreate (o : AssetCreateOperation)
  | assetUpdate (o : AssetUpdateOperation)
  | assetUpdateIssuer (o : AssetUpdateIssuerOperation)
  | assetIssue (o : AssetIssueOperation)
  | assetReserve (o : AssetReserveOperation)
  | assetInvestment (o : AssetInvestmentOperation)
  | issueAssetToInvestors (o : IssueAssetToInvestorsOperation)
  | refundInvestment (o : RefundInvestmentOperation)
  | claimBitassetInvestment (o : ClaimBitassetInvestmentOperation)
  | claimAssetInvestment (o : ClaimAssetInvestmentOperation)

namespace Operation

def fee : Operation → Asset
  | transfer o => o.fee
  | assetCreate o => o.fee
  | assetUpdate o => o.fee
  | assetUpdateIssuer o => o.fee
  | assetIssue o => o.fee
  | assetReserve o => o.fee
  | assetInvestment o => o.fee
  | issueAssetToInvestors o => o.fee
  | refundInvestment o => o.fee
  | claimBitassetInvestment o => o.fee
  | claimAssetInvestment o => o.fee

def feePayer : Operation → AccountId
  | transfer o => o.sender
  | assetCreate o => o.issuer
  | assetUpdate o => o.issuer
  | assetUpdateIssuer o => o.issuer
  | assetIssue o => o.issuer
  | assetReserve o => o.payer
  | assetInvestment o => o.accountId
  | issueAssetToInvestors o => o.issue
  | refundInvestment o => o.accountId
  | claimBitassetInvestment o => o.accountId
  | claimAssetInvestment o => o.accountId

/-- The four operations of a project other than an investment check their fee alone. -/
def validate : Operation → Eval Unit
  | transfer o => o.validate
  | assetCreate o => o.validate
  | assetUpdate o => o.validate
  | assetUpdateIssuer o => o.validate
  | assetIssue o => o.validate
  | assetReserve o => o.validate
  | assetInvestment o => o.validate
  | issueAssetToInvestors o => fcAssert (o.fee.amount ≥ 0) .feeNegative
  | refundInvestment o => fcAssert (o.fee.amount ≥ 0) .feeNegative
  | claimBitassetInvestment o => fcAssert (o.fee.amount ≥ 0) .feeNegative
  | claimAssetInvestment o => fcAssert (o.fee.amount ≥ 0) .feeNegative

end Operation

end Khc.Chain

/-! The part of the chain state that the project operations use, the accessors and updates of `database`
    (`db_getter.cpp`, `db_balance.cpp`, `is_authorized_asset.cpp`) and the handling of an operation's fee
    (`evaluator.hpp`, `evaluator.cpp`). -/

namespace Khc.Chain

/-- Of `chain_parameters`; `chain_parameters::validate` keeps the block interval positive. -/
structure ChainParameters where
  blockInterval : Nat
  blockInterval_pos : 0 < blockInterval
  maximumAssetWhitelistAuthorities : Nat
  /-- `current_fees->calculate_fee(op).amount` -/
  currentFees : Operation → Int

/-- Balances that were never adjusted are 0, as `get_balance` reads them. -/
structure Database where
  headBlockNumber : Nat
  headBlockTime : Nat
  parameters : ChainParameters
  accounts : List AccountObject
  assets : List AssetObject
  balances : AccountId → AssetId → Int
  investments : List AssetInvestment
  lockedPower : List AccountLockedPower

namespace Database
variable (d : Database)

def getAccount (id : AccountId) : Eval AccountObject :=
  match d.accounts[id]? with
  | some a => .ok a
  | none => .error .objectNotFound

def getAsset (id : AssetId) : Eval AssetObject :=
  match d.assets[id]? with
  | some a => .ok a
  | none => .error .objectNotFound

/-- `by_symbol.find` -/
def findSymbol (symbol : String) : Option AssetId := d.assets.findIdx? (·.symbol = symbol)

/-- `database::get_asset_id` -/
def getAssetId (symbol : String) : Eval AssetId :=
  match d.findSymbol symbol with
  | some id => .ok id
  | none => .error .symbolNotFound

/-- The investment records of an account, in the order of the index. -/
def investmentsByAccount (account : AccountId) : List AssetInvestment :=
  d.investments.filter (·.investmentAccountId = account)

/-- The investment records of an asset, in the order of the index. -/
def investmentsByAsset (asset : AssetId) : List AssetInvestment :=
  d.investments.filter (·.investmentAssetId = asset)

/-- `is_authorized_asset` -/
def isAuthorizedAsset (acct : AccountObject) (asset : AssetId) (a : AssetObject) : Bool :=
  if ¬hasFlag a.options.flags whiteList ∧ acct.allowedAssets = none then true
  else if acct.allowedAssets.any (asset ∉ ·) then false
  else if acct.blacklistingAccounts.any (· ∈ a.options.blacklistAuthorities) then false
  else if d.headBlockTime > hardfork415Time ∧ a.options.whitelistAuthorities = [] then true
  else acct.whitelistingAccounts.any (· ∈ a.options.whitelistAuthorities)

/-! ### Updates -/

def modifyAsset (id : AssetId) (f : AssetObject → AssetObject) : Database :=
  { d with assets := d.assets.modify id f }

def modifyDynamic (id : AssetId) (f : AssetDynamicData → AssetDynamicData) : Database :=
  d.modifyAsset id fun a => { a with dynamicData := f a.dynamicData }

def modifyInvestment (id : Nat) (f : AssetInvestment → AssetInvestment) : Database :=
  { d with investments := d.investments.map fun r => if r.id = id then f r else r }

def createInvestment (r : AssetInvestment) : Database := { d with investments := d.investments ++ [r] }

/-- The balance of an account after a change. -/
def credit (account : AccountId) (delta : Asset) : Database :=
  { d with balances := fun x a => d.balances x a + if x = account ∧ a = delta.assetId then delta.amount else 0 }

/-- `database::adjust_balance` -/
def adjustBalance (account : AccountId) (delta : Asset) : Eval Database := do
  if delta.amount = 0 then return d
  if delta.amount < 0 then fcAssert (d.balances account delta.assetId ≥ -delta.amount) .insufficientBalance
  let _ ← safe (d.balances account delta.assetId + delta.amount)
  return d.credit account delta

/-! ### Fees -/

/-- `generic_evaluator::prepare_fee`: the fee in the core asset. -/
def prepareFee (account : AccountId) (fee : Asset) : Eval Int := do
  fcAssert (fee.amount ≥ 0) .feeNegative
  let feePayingAccount ← d.getAccount account
  let feeAsset ← d.getAsset fee.assetId
  if d.headBlockTime > hardfork419Time then
    fcAssert (d.isAuthorizedAsset feePayingAccount fee.assetId feeAsset) .feeAssetUnauthorized
  if fee.assetId = 0 then return fee.amount
  let feeFromPool ← fee.mul feeAsset.options.coreExchangeRate
  fcAssert (feeFromPool.assetId = 0) .feeNotConvertible
  fcAssert (feeFromPool.amount ≤ feeAsset.dynamicData.feePool) .feePoolTooSmall
  return feeFromPool.amount

/-- The fee asset after it has taken a fee and paid for it from its pool. -/
def takeFee (fee : Asset) (coreFeePaid : Int) : Database :=
  d.modifyDynamic fee.assetId fun dyn =>
    { dyn with accumulatedFees := dyn.accumulatedFees + fee.amount, feePool := dyn.feePool - coreFeePaid }

/-- `generic_evaluator::convert_fee` -/
def convertFee (fee : Asset) (coreFeePaid : Int) : Eval Database := do
  if fee.assetId = 0 then return d
  let feeAsset ← d.getAsset fee.assetId
  let _ ← safe (feeAsset.dynamicData.accumulatedFees + fee.amount)
  let _ ← safe (feeAsset.dynamicData.feePool - coreFeePaid)
  return d.takeFee fee coreFeePaid

/-- `evaluator::evaluate` and `evaluator::apply` of one operation, given its `do_evaluate` and `do_apply`. The
    core fee itself goes to the statistics of the payer (`pay_fee`), which nothing here reads. -/
def startEvaluate {α : Type} (op : Operation) (doEvaluate : Eval α) (doApply : Database → Int → α → Eval Database) :
    Eval Database := do
  let coreFeePaid ← d.prepareFee op.feePayer op.fee
  fcAssert (coreFeePaid ≥ d.parameters.currentFees op) .insufficientFeePaid
  let e ← doEvaluate
  let d₁ ← d.convertFee op.fee coreFeePaid
  let d₂ ← doApply d₁ coreFeePaid e
  d₂.adjustBalance op.feePayer op.fee.neg

end Database

end Khc.Chain
