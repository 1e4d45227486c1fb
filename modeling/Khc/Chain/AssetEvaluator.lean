import Khc.Chain.Database

/-! Evaluators of the general asset operations (`asset_evaluator.cpp`, `transfer_evaluator.cpp`) and the power
    that a project requires (`khc/util.cpp`). -/

namespace Khc.Chain

/-! ### Required power -/

/-- `khc::convert_to_khd_amount` -/
def convertToKhdAmount (maxSupply : Int) (coreExchangeRate khdPrice : Price) : Eval Int := do
  fcAssert (¬khdPrice.isNull) .khdPriceNotSet
  let coreAmount ← (Asset.mk maxSupply coreExchangeRate.quote.assetId).mul coreExchangeRate
  let khdAmount ← coreAmount.mul khdPrice
  return khdAmount.amount

/-- `khc::power_required_for_finacing`; the market value is a product with a price, so it is not negative. -/
def powerRequiredForFinacing (marketValue : Int) : Eval Int := do
  let khdPrecision ← Asset.scaledPrecision khdPrecisionDigits
  let convertRatio := khcPowerConvertKhdRatio * khdPrecision
  let units := marketValue / convertRatio + if marketValue % convertRatio ≠ 0 then 1 else 0
  let powerPrecision ← Asset.scaledPrecision khcPowerPrecisionDigits
  let requiredPower := toU128 (units * powerPrecision)
  fcAssert (requiredPower < maxShareSupply) .requiredPowerTooLarge
  return requiredPower

/-! ### asset_create -/

namespace AssetCreate

/-- `asset_indx.find(KHD_ASSET_SYMBOL)` -/
def findKhd (d : Database) : Eval AssetObject :=
  match d.findSymbol khdAssetSymbol with
  | some id => d.getAsset id
  | none => .error .khdMissing

/-- The power that the operation locks covers what the project requires. -/
def evaluatePower (op : AssetCreateOperation) (requiredPower : Int) : Eval Unit :=
  match op.power with
  | some power => fcAssert (requiredPower ≤ power) .powerNotEnough
  | none => .error .undefinedBehavior

/-- The checks on the project of a new asset, and the state it starts in. -/
def evaluateProject (d : Database) (op : AssetCreateOperation) (opts : ProjectAssetOptions) : Eval ProjectState := do
  let khd ← findKhd d
  let khdBitasset ← khd.getBitassetData
  let finacingAmount ← convertToKhdAmount op.commonOptions.maxSupply op.commonOptions.coreExchangeRate
    khdBitasset.settlementPrice
  let requiredPower ← powerRequiredForFinacing finacingAmount
  evaluatePower op requiredPower
  fcAssert (opts.name.utf8ByteSize ≠ 0) .projectNameEmpty
  fcAssert (∀ a ∈ d.assets, a.projOptions.name ≠ opts.name) .projectNameTaken
  if opts.financingType = khcPublicOffering then
    fcAssert (opts.endFinancingTime = (opts.startFinancingTime + opts.financingCycle) % 2 ^ 32) .financingTimes
    fcAssert (opts.startFinancingBlockNum ≥ d.headBlockNumber) .startBelowHead
    return .aboutToStart
  else
    fcAssert (opts.endProjectTime = (opts.startProjectTime + opts.projectCycle) % 2 ^ 32) .projectTimes
    return .projectInProgress

/-- The part of a symbol before its last dot. -/
def parentSymbol (symbol : String) : Option String :=
  let cs := symbol.toList
  if '.' ∈ cs then some (String.ofList (cs.reverse.dropWhile (· ≠ '.')).tail.reverse) else none

/-- A sub-asset belongs to the issuer of its parent. -/
def evaluateSymbol (d : Database) (op : AssetCreateOperation) : Eval Unit := do
  if d.headBlockTime > hardfork385Time then
    match parentSymbol op.symbol with
    | some parent =>
      match d.findSymbol parent with
      | some id => do
        let parentAsset ← d.getAsset id
        fcAssert (parentAsset.issuer = op.issuer) .parentSymbol
      | none => throw .parentSymbol
    | none => pure ()
    if d.headBlockTime ≤ hardforkCore620Time then
      fcAssert (op.symbol.toList.getLast?.any (·.isAlpha)) .symbolMustEndAlpha

/-- The checks on the backing of a new bitasset. -/
def evaluateBitasset (d : Database) (op : AssetCreateOperation) (opts : BitassetOptions) : Eval Unit := do
  let backing ← d.getAsset opts.shortBackingAsset
  if backing.isMarketIssued then
    let backingData ← backing.getBitassetData
    let backingBacking ← d.getAsset backingData.options.shortBackingAsset
    fcAssert (¬backingBacking.isMarketIssued) .bitassetBacking
    fcAssert (op.issuer ≠ grapheneCommitteeAccount ∨ backingData.options.shortBackingAsset = 0) .bitassetBacking
  else
    fcAssert (op.issuer ≠ grapheneCommitteeAccount ∨ opts.shortBackingAsset = 0) .bitassetBacking
  fcAssert (opts.feedLifetimeSec > d.parameters.blockInterval ∧
    opts.forceSettlementDelaySec > d.parameters.blockInterval) .bitassetBacking

/-- A prediction market has the precision of its backing. -/
def evaluatePredictionMarket (d : Database) (op : AssetCreateOperation) : Eval Unit :=
  if op.isPredictionMarket then
    match op.bitassetOpts with
    | none => .error .predictionMarketPrecision
    | some opts => do
      let backing ← d.getAsset opts.shortBackingAsset
      fcAssert (op.precision = backing.precision) .predictionMarketPrecision
  else .ok ()

def doEvaluate (d : Database) (op : AssetCreateOperation) : Eval ProjectState := do
  fcAssert (op.commonOptions.whitelistAuthorities.length ≤ d.parameters.maximumAssetWhitelistAuthorities)
    .tooManyAuthorities
  fcAssert (op.commonOptions.blacklistAuthorities.length ≤ d.parameters.maximumAssetWhitelistAuthorities)
    .tooManyAuthorities
  fcAssert (∀ id ∈ op.commonOptions.whitelistAuthorities, id < d.accounts.length) .objectNotFound
  fcAssert (∀ id ∈ op.commonOptions.blacklistAuthorities, id < d.accounts.length) .objectNotFound
  fcAssert (d.findSymbol op.symbol = none) .symbolTaken
  fcAssert (¬(op.bitassetOpts.isSome ∧ op.projectAssetOpts.isSome)) .bitassetAndProjasset
  let state ← op.projectAssetOpts.elim (.ok .aboutToStart) (evaluateProject d op)
  evaluateSymbol d op
  op.bitassetOpts.elim (.ok ()) (evaluateBitasset d op)
  evaluatePredictionMarket d op
  return state

/-- The exchange rate with the id of the new asset in place of the dummy id. -/
def rateOf (rate : Price) (id : AssetId) : Price :=
  if rate.base.assetId = 0 then { rate with quote := { rate.quote with assetId := id } }
  else { rate with base := { rate.base with assetId := id } }

/-- `asset_create_evaluator::pay_fee` gives half of the fee to the pool of the new asset. -/
def halvedFee (coreFeePaid : Int) : Int := coreFeePaid - coreFeePaid / 2

def newAsset (d : Database) (op : AssetCreateOperation) (state : ProjectState) (feePool : Int) : AssetObject where
  symbol := op.symbol
  precision := op.precision
  issuer := op.issuer
  options := { op.commonOptions with
    coreExchangeRate := rateOf op.commonOptions.coreExchangeRate d.assets.length }
  projOptions := op.projectAssetOpts.getD {}
  dynamicData := { state, feePool }
  bitassetData := op.bitassetOpts.map fun options =>
    { options, settlementPrice := Price.default, isPredictionMarket := op.isPredictionMarket }

/-- The power that a new project locks. -/
def newLock (d : Database) (op : AssetCreateOperation) (opts : ProjectAssetOptions) (power : Int) :
    AccountLockedPower where
  owner := op.issuer
  powerFrom := .locked
  powerValue := power
  unlockHeight := d.headBlockNumber + opts.projectCycle / d.parameters.blockInterval
  assetId := d.assets.length

/-- The locks that the operation adds. -/
def newLocks (d : Database) (op : AssetCreateOperation) : Eval (List AccountLockedPower) :=
  match op.projectAssetOpts, op.power with
  | some opts, some power => .ok [newLock d op opts power]
  | some _, none => .error .undefinedBehavior
  | none, _ => .ok []

/-- Before the hard fork, the odd satoshi of the fee goes to the supply of the core asset. -/
def countOddFee (d : Database) (coreFeePaid : Int) : Database :=
  if coreFeePaid % 2 ≠ 0 ∧ ¬d.headBlockTime > hardforkCore429Time then
    d.modifyDynamic 0 fun dyn => { dyn with currentSupply := dyn.currentSupply + 1 }
  else d

def addAsset (d : Database) (a : AssetObject) (locks : List AccountLockedPower) : Database :=
  { d with assets := d.assets ++ [a], lockedPower := d.lockedPower ++ locks }

def doApply (d : Database) (op : AssetCreateOperation) (coreFeePaid : Int) (state : ProjectState) : Eval Database := do
  let hf429 := coreFeePaid % 2 ≠ 0 ∧ d.headBlockTime > hardforkCore429Time
  let feePool := halvedFee coreFeePaid - if hf429 then 1 else 0
  if coreFeePaid % 2 ≠ 0 ∧ ¬d.headBlockTime > hardforkCore429Time then
    let core ← d.getAsset 0
    let _ ← safe (core.dynamicData.currentSupply + 1)
  let locks ← newLocks d op
  return addAsset (countOddFee d coreFeePaid) (newAsset d op state feePool) locks

end AssetCreate

/-! ### asset_issue and asset_reserve -/

namespace AssetIssue

def doEvaluate (d : Database) (o : AssetIssueOperation) : Eval Unit := do
  let a ← d.getAsset o.assetToIssue.assetId
  fcAssert (o.issuer = a.issuer) .notIssuer
  fcAssert (¬a.isMarketIssued) .marketIssued
  if a.isProjectAsset then
    let issued ← a.isIssueToInvestors
    fcAssert issued .notIssuedToInvestors
  let toAccount ← d.getAccount o.issueToAccount
  fcAssert (d.isAuthorizedAsset toAccount o.assetToIssue.assetId a) .unauthorized
  let supply ← safe (a.dynamicData.currentSupply + o.assetToIssue.amount)
  fcAssert (supply ≤ a.options.maxSupply) .exceedsMaxSupply

def doApply (d : Database) (o : AssetIssueOperation) : Eval Database := do
  let d₁ ← d.adjustBalance o.issueToAccount o.assetToIssue
  let a ← d₁.getAsset o.assetToIssue.assetId
  let supply ← safe (a.dynamicData.currentSupply + o.assetToIssue.amount)
  return d₁.modifyDynamic o.assetToIssue.assetId fun dyn => { dyn with currentSupply := supply }

end AssetIssue

namespace AssetReserve

def doEvaluate (d : Database) (o : AssetReserveOperation) : Eval Unit := do
  let a ← d.getAsset o.amountToReserve.assetId
  fcAssert (¬a.isMarketIssued) .marketIssued
  let fromAccount ← d.getAccount o.payer
  fcAssert (d.isAuthorizedAsset fromAccount o.amountToReserve.assetId a) .unauthorized
  let supply ← safe (a.dynamicData.currentSupply - o.amountToReserve.amount)
  fcAssert (supply ≥ 0) .reserveTooLarge

def doApply (d : Database) (o : AssetReserveOperation) : Eval Database := do
  let d₁ ← d.adjustBalance o.payer o.amountToReserve.neg
  let a ← d₁.getAsset o.amountToReserve.assetId
  let supply ← safe (a.dynamicData.currentSupply - o.amountToReserve.amount)
  return d₁.modifyDynamic o.amountToReserve.assetId fun dyn => { dyn with currentSupply := supply }

end AssetReserve

/-! ### asset_update and asset_update_issuer -/

/-- `validate_new_issuer` -/
def validateNewIssuer (d : Database) (a : AssetObject) (newIssuer : AccountId) : Eval Unit := do
  fcAssert (newIssuer < d.accounts.length) .objectNotFound
  if a.isMarketIssued ∧ newIssuer = grapheneCommitteeAccount then
    let data ← a.getBitassetData
    let backing ← d.getAsset data.options.shortBackingAsset
    if backing.isMarketIssued then
      let backingData ← backing.getBitassetData
      fcAssert (backingData.options.shortBackingAsset = 0) .bitassetBacking
    else
      fcAssert (data.options.shortBackingAsset = 0) .bitassetBacking

namespace AssetUpdate

def doEvaluate (d : Database) (o : AssetUpdateOperation) : Eval Unit := do
  let a ← d.getAsset o.assetToUpdate
  { a with options := o.newOptions }.validate
  match o.newIssuer with
  | some newIssuer => do
    fcAssert (d.headBlockTime < hardforkCore199Time) .updateIssuerForbidden
    validateNewIssuer d a newIssuer
  | none => pure ()
  if d.headBlockTime < hardfork572Time ∨ a.dynamicData.currentSupply ≠ 0 then
    fcAssert (o.newOptions.issuerPermissions ||| a.options.issuerPermissions = a.options.issuerPermissions)
      .permissionReinstated
  fcAssert ((o.newOptions.flags ^^^ a.options.flags) ||| a.options.issuerPermissions = a.options.issuerPermissions)
    .flagChangeForbidden
  fcAssert (o.issuer = a.issuer) .notIssuer
  fcAssert (o.newOptions.whitelistAuthorities.length ≤ d.parameters.maximumAssetWhitelistAuthorities)
    .tooManyAuthorities
  fcAssert (∀ id ∈ o.newOptions.whitelistAuthorities, id < d.accounts.length) .objectNotFound
  fcAssert (o.newOptions.blacklistAuthorities.length ≤ d.parameters.maximumAssetWhitelistAuthorities)
    .tooManyAuthorities
  fcAssert (∀ id ∈ o.newOptions.blacklistAuthorities, id < d.accounts.length) .objectNotFound

/-- The force settlements that the source cancels here are requests on bitassets, which this state leaves out. -/
def doApply (d : Database) (o : AssetUpdateOperation) : Eval Database :=
  return d.modifyAsset o.assetToUpdate fun a =>
    { a with issuer := o.newIssuer.getD a.issuer, options := o.newOptions }

end AssetUpdate

namespace AssetUpdateIssuer

def doEvaluate (d : Database) (o : AssetUpdateIssuerOperation) : Eval Unit := do
  let a ← d.getAsset o.assetToUpdate
  validateNewIssuer d a o.newIssuer
  fcAssert (o.issuer = a.issuer) .notIssuer
  if d.headBlockTime < hardforkCore199Time then throw .beforeHardfork199

def doApply (d : Database) (o : AssetUpdateIssuerOperation) : Eval Database :=
  return d.modifyAsset o.assetToUpdate fun a => { a with issuer := o.newIssuer }

end AssetUpdateIssuer

/-! ### transfer -/

namespace Transfer

def doEvaluate (d : Database) (o : TransferOperation) : Eval Unit := do
  let fromAccount ← d.getAccount o.sender
  let toAccount ← d.getAccount o.receiver
  let assetType ← d.getAsset o.amount.assetId
  fcAssert (d.isAuthorizedAsset fromAccount o.amount.assetId assetType) .unauthorized
  fcAssert (d.isAuthorizedAsset toAccount o.amount.assetId assetType) .unauthorized
  if assetType.isTransferRestricted then
    fcAssert (o.sender = assetType.issuer ∨ o.receiver = assetType.issuer) .transferRestricted
  fcAssert (d.balances o.sender o.amount.assetId ≥ o.amount.amount) .insufficientBalance

def doApply (d : Database) (o : TransferOperation) : Eval Database := do
  let d₁ ← d.adjustBalance o.sender o.amount.neg
  d₁.adjustBalance o.receiver o.amount

end Transfer

end Khc.Chain
