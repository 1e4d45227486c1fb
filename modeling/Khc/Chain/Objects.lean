import Khc.Chain.Asset

/-! The objects of the chain that the project operations read and write, and the checks of their options
    (`asset_object.hpp`, `account_object.hpp`, `protocol/asset_ops.hpp`, `protocol/asset_ops.cpp`). -/

namespace Khc.Chain

/-! ### Constants (`config.hpp`, `khc/config.hpp`, `hardfork.d`) -/

def khdAssetSymbol : String := "KHD"
def grapheneSymbol : String := "KHC"

def khcProjectAssetMaxNameLength : Nat := 30
def khcProjectAssetMinProjectCycle : Nat := 1
def khcProjectAssetMaxProjectCycle : Nat := 36
def khcProjectAssetMinTransferRatio : Nat := 10
def khcProjectAssetMaxTransferRatio : Nat := 75
def khcProjectAssetMinFinancingCycle : Nat := 1
def khcProjectAssetMaxFinancingCycle : Nat := 4
def khcProjectAssetFinancingCycleUnit : Nat := 60 * 60 * 24 * 7
def khcProjectAssetProjectCycleUnit : Nat := 60 * 60 * 24 * 30
def khc100Percent : Int := 100
def khcPowerPrecisionDigits : Nat := 8
def khcPowerConvertKhdRatio : Int := 1000
def khdPrecisionDigits : Nat := 4
def khcFirstClaimInvestmentRatio : Int := 30
def khcSecondClaimInvestmentRatio : Int := 30
def khcPublicOffering : Nat := 1

def graphene100Percent : Nat := 10000
def grapheneMinAssetSymbolLength : Nat := 3
def grapheneMaxAssetSymbolLength : Nat := 16
def grapheneCommitteeAccount : AccountId := 0

def hardfork385Time : Nat := 1445558400
def hardfork415Time : Nat := 1446652800
def hardfork419Time : Nat := 1446652800
def hardfork572Time : Nat := 1456250400
def hardforkCore199Time : Nat := 1532008920
def hardforkCore429Time : Nat := 1512747600
def hardforkCore620Time : Nat := 1532008920

/-! ### Options of an asset -/

/-- A bit of `asset_issuer_permission_flags` -/
abbrev Flag := Nat

def whiteList : Flag := 0x02
def transferRestricted : Flag := 0x08
def disableForceSettle : Flag := 0x10
def globalSettle : Flag := 0x20
def witnessFedAsset : Flag := 0x80
def committeeFedAsset : Flag := 0x100
def assetIssuerPermissionMask : Flag := 0x1ff

/-- `flags & flag` as a condition -/
def hasFlag (flags flag : Flag) : Bool := flags &&& flag != 0

structure AssetOptions where
  maxSupply : Int
  marketFeePercent : Nat
  maxMarketFee : Int
  issuerPermissions : Flag
  flags : Flag
  coreExchangeRate : Price
  whitelistAuthorities : List AccountId
  blacklistAuthorities : List AccountId
  whitelistMarkets : List AssetId
  blacklistMarkets : List AssetId
  description : String
  deriving DecidableEq, Repr

def AssetOptions.validate (o : AssetOptions) : Eval Unit := do
  fcAssert (o.maxSupply > 0) .invalidAssetOptions
  fcAssert (o.maxSupply ≤ maxShareSupply) .invalidAssetOptions
  fcAssert (o.marketFeePercent ≤ graphene100Percent) .invalidAssetOptions
  fcAssert (o.maxMarketFee ≥ 0 ∧ o.maxMarketFee ≤ maxShareSupply) .invalidAssetOptions
  fcAssert (o.issuerPermissions ||| assetIssuerPermissionMask = assetIssuerPermissionMask) .invalidAssetOptions
  fcAssert (¬hasFlag o.flags globalSettle) .invalidAssetOptions
  fcAssert (o.flags &&& (witnessFedAsset ||| committeeFedAsset) ≠ witnessFedAsset ||| committeeFedAsset)
    .invalidAssetOptions
  o.coreExchangeRate.validate
  fcAssert (o.coreExchangeRate.base.assetId = 0 ∨ o.coreExchangeRate.quote.assetId = 0) .invalidAssetOptions
  if o.whitelistAuthorities ≠ [] ∨ o.blacklistAuthorities ≠ [] then
    fcAssert (hasFlag o.flags whiteList) .invalidAssetOptions
  fcAssert (∀ item ∈ o.whitelistMarkets, item ∉ o.blacklistMarkets) .invalidAssetOptions
  fcAssert (∀ item ∈ o.blacklistMarkets, item ∉ o.whitelistMarkets) .invalidAssetOptions
  fcAssert (o.description.utf8ByteSize ≤ 100) .invalidAssetOptions

structure BitassetOptions where
  feedLifetimeSec : Nat
  minimumFeeds : Nat
  forceSettlementDelaySec : Nat
  forceSettlementOffsetPercent : Nat
  maximumForceSettlementVolume : Nat
  shortBackingAsset : AssetId
  deriving DecidableEq, Repr

def BitassetOptions.validate (o : BitassetOptions) : Eval Unit := do
  fcAssert (o.minimumFeeds > 0) .invalidBitassetOptions
  fcAssert (o.forceSettlementOffsetPercent ≤ graphene100Percent) .invalidBitassetOptions
  fcAssert (o.maximumForceSettlementVolume ≤ graphene100Percent) .invalidBitassetOptions

/-- `project_asset_options`; times are `time_point_sec`, seconds in 32 bits. -/
structure ProjectAssetOptions where
  name : String := ""
  type : Nat := 4
  projectCycle : Nat := 0
  minTransferRatio : Nat := 0
  maxTransferRatio : Nat := 0
  minFinancingAmount : Int := 0
  maxFinancingAmount : Int := 0
  startFinancingBlockNum : Nat := 0
  endFinancingBlockNum : Nat := 0
  startFinancingTime : Nat := 0
  endFinancingTime : Nat := 0
  startProjectBlockNum : Nat := 0
  endProjectBlockNum : Nat := 0
  startProjectTime : Nat := 0
  endProjectTime : Nat := 0
  khdExchangeRate : Price := Price.default
  financingCycle : Nat := 0
  financingType : Nat := 0
  deriving DecidableEq, Repr

/-- The amounts and the block numbers of the project are not checked. -/
def ProjectAssetOptions.validate (o : ProjectAssetOptions) : Eval Unit := do
  if o.name.utf8ByteSize = 0 then return
  fcAssert (o.name.utf8ByteSize ≤ khcProjectAssetMaxNameLength) .invalidProjectAssetOptions
  fcAssert (o.type ≤ 4) .invalidProjectAssetOptions
  fcAssert (o.projectCycle ≥ khcProjectAssetMinProjectCycle * khcProjectAssetProjectCycleUnit ∧
    o.projectCycle ≤ khcProjectAssetMaxProjectCycle * khcProjectAssetProjectCycleUnit) .invalidProjectAssetOptions
  if o.financingType = 1 then
    fcAssert (o.minTransferRatio ≥ khcProjectAssetMinTransferRatio ∧
      o.minTransferRatio ≤ khcProjectAssetMaxTransferRatio) .invalidProjectAssetOptions
    fcAssert (o.maxTransferRatio ≥ khcProjectAssetMinTransferRatio ∧
      o.maxTransferRatio ≤ khcProjectAssetMaxTransferRatio ∧ o.maxTransferRatio > o.minTransferRatio)
      .invalidProjectAssetOptions
    fcAssert (o.financingCycle ≥ khcProjectAssetMinFinancingCycle * khcProjectAssetFinancingCycleUnit ∧
      o.financingCycle ≤ khcProjectAssetMaxFinancingCycle * khcProjectAssetFinancingCycleUnit)
      .invalidProjectAssetOptions

/-- `is_valid_symbol` -/
def isValidSymbol (symbol : String) : Bool :=
  let cs := symbol.toList
  cs.length ≥ grapheneMinAssetSymbolLength && cs.take 3 != ['B', 'I', 'T'] &&
    cs.length ≤ grapheneMaxAssetSymbolLength && cs.head?.any (·.isAlpha) && cs.getLast?.any (·.isAlphanum) &&
    cs.all (fun c => c.isUpper || c.isDigit || c == '.') && cs.count '.' ≤ 1

/-! ### Objects -/

/-- `asset_dynamic_data_object::project_state` -/
inductive ProjectState
  | aboutToStart
  | financing
  | financingFailue
  | projectInProgress
  | projectEnd
  deriving DecidableEq, Repr

/-- The number the state is stored as. -/
def ProjectState.toNat : ProjectState → Nat
  | .aboutToStart => 0
  | .financing => 1
  | .financingFailue => 2
  | .projectInProgress => 3
  | .projectEnd => 4

structure AssetDynamicData where
  currentSupply : Int := 0
  accumulatedFees : Int := 0
  feePool : Int := 0
  financingCurrentSupply : Int := 0
  financingConfidentialSupply : Int := 0
  state : ProjectState := .aboutToStart
  claimTimes : Nat := 0
  investmentCurrentSupply : Int := 0
  investmentConfidentialSupply : Int := 0
  deriving DecidableEq, Repr

/-- Of `asset_bitasset_data_object`: the options and the settlement price of the current feed. -/
structure AssetBitassetData where
  options : BitassetOptions
  settlementPrice : Price
  isPredictionMarket : Bool
  deriving DecidableEq, Repr

/-- An asset with the dynamic data and the bitasset data that its ids name. Its own id is its place in the
    asset index. -/
structure AssetObject where
  symbol : String
  precision : Nat
  issuer : AccountId
  options : AssetOptions
  projOptions : ProjectAssetOptions := {}
  dynamicData : AssetDynamicData := {}
  bitassetData : Option AssetBitassetData := none
  deriving DecidableEq, Repr

namespace AssetObject
variable (a : AssetObject)

def isMarketIssued : Bool := a.bitassetData.isSome
def isTransferRestricted : Bool := hasFlag a.options.flags transferRestricted
def isProjectAsset : Bool := a.projOptions.name != ""

def isPublicOffering : Eval Bool := do
  fcAssert a.isProjectAsset .notProjectAsset
  return a.projOptions.financingType == khcPublicOffering

def isFinancingEnd : Eval Bool := do
  fcAssert a.isProjectAsset .notProjectAsset
  return a.dynamicData.state == .projectInProgress || a.dynamicData.state == .projectEnd

def isIssueToInvestors : Eval Bool := do
  fcAssert a.isProjectAsset .notProjectAsset
  return a.dynamicData.investmentConfidentialSupply > 0

/-- `asset_object::validate` -/
def validate : Eval Unit := do
  if ¬a.isMarketIssued then
    fcAssert (¬(hasFlag a.options.flags disableForceSettle ∨ hasFlag a.options.flags globalSettle))
      .bitassetFlagOnUserIssuedAsset
    fcAssert (¬(hasFlag a.options.issuerPermissions disableForceSettle ∨
      hasFlag a.options.issuerPermissions globalSettle)) .bitassetFlagOnUserIssuedAsset
  fcAssert (a.symbol.utf8ByteSize ≤ 10) .invalidSymbol
  a.projOptions.validate

def getBitassetData : Eval AssetBitassetData :=
  match a.bitassetData with
  | some b => .ok b
  | none => .error .notMarketIssued

end AssetObject

structure AccountObject where
  allowedAssets : Option (List AssetId)
  whitelistingAccounts : List AccountId
  blacklistingAccounts : List AccountId
  deriving DecidableEq, Repr

/-- A record of the investment index; `id` is its place there. -/
structure AssetInvestment where
  id : Nat
  investmentAccountId : AccountId
  investmentAssetId : AssetId
  investmentKhdAmount : Asset
  investmentHeight : Nat
  investmentTimestamp : Nat
  hasReceiveToken : Bool := false
  investmentTokens : Int := 0
  returnFinancingFlag : Bool := false
  deriving DecidableEq, Repr

/-- `khc::power_from_source` -/
inductive PowerFrom
  | all
  | locked
  | register
  | pay
  | laud
  | melt
  deriving DecidableEq, Repr

structure AccountLockedPower where
  owner : AccountId
  powerFrom : PowerFrom
  powerValue : Int
  unlockHeight : Int
  assetId : AssetId
  deriving DecidableEq, Repr

end Khc.Chain
