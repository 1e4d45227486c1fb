import Khc.Chain.Database

/-! Evaluators of the financing of a project (`financing_evaluator.cpp`). What `do_evaluate` leaves in the members
    of an evaluator for `do_apply` is its result here. -/

namespace Khc.Chain

/-! ### asset_investment -/

namespace AssetInvestment

def doEvaluate (d : Database) (o : AssetInvestmentOperation) : Eval Unit := do
  let khdAssetObject ← d.getAsset o.amount.assetId
  fcAssert (khdAssetObject.symbol = khdAssetSymbol) .investmentMustUseKhd
  fcAssert (o.fee.amount ≥ 0) .feeNegative
  fcAssert (o.amount.amount > 0) .amountNotPositive
  let account ← d.getAccount o.accountId
  let assetObj ← d.getAsset o.investmentAssetId
  fcAssert (d.isAuthorizedAsset account o.investmentAssetId assetObj) .unauthorized
  fcAssert (d.balances o.accountId o.amount.assetId ≥ o.amount.amount) .insufficientBalance
  fcAssert (¬assetObj.isMarketIssued) .marketIssued
  fcAssert (o.investmentAssetId ≠ 0) .cantInvestCore
  let publicOffering ← assetObj.isPublicOffering
  fcAssert publicOffering .notPublicOffering
  fcAssert (assetObj.dynamicData.financingCurrentSupply < assetObj.projOptions.maxFinancingAmount) .financingEnd
  fcAssert (d.headBlockNumber ≥ assetObj.projOptions.startFinancingBlockNum ∧
    d.headBlockNumber ≤ assetObj.projOptions.endFinancingBlockNum) .outsideFinancingBlocks

/-- The options of a project whose financing ends early, at the wall clock time `now`. -/
def advancedEnd (currBlockNum now : Nat) (o : ProjectAssetOptions) : ProjectAssetOptions :=
  { o with
    endFinancingBlockNum := currBlockNum
    endFinancingTime := now
    startProjectBlockNum := (currBlockNum + 1) % 2 ^ 32
    startProjectTime := now }

/-- The state of a project after an investment. -/
def investedState (advanceEnd : Bool) (state : ProjectState) : ProjectState :=
  if advanceEnd then .projectInProgress else if state = .aboutToStart then .financing else state

def newInvestment (d : Database) (o : AssetInvestmentOperation) (amount : Int) : AssetInvestment where
  id := d.investments.length
  investmentAccountId := o.accountId
  investmentAssetId := o.investmentAssetId
  investmentKhdAmount := ⟨amount, o.amount.assetId⟩
  investmentHeight := d.headBlockNumber
  investmentTimestamp := d.headBlockTime

def doApply (d : Database) (now : Nat) (o : AssetInvestmentOperation) : Eval Database := do
  let assetObj ← d.getAsset o.investmentAssetId
  let dyn := assetObj.dynamicData
  let asked ← safe (dyn.financingCurrentSupply + o.amount.amount)
  let advanceEnd := decide (asked ≥ assetObj.projOptions.maxFinancingAmount)
  let amount ← if advanceEnd then safe (assetObj.projOptions.maxFinancingAmount - dyn.financingCurrentSupply)
    else pure o.amount.amount
  let d₁ := if advanceEnd then
      d.modifyAsset o.investmentAssetId fun a =>
        { a with projOptions := advancedEnd d.headBlockNumber now a.projOptions }
    else d
  let d₂ := d₁.createInvestment (newInvestment d o amount)
  let current ← safe (dyn.financingCurrentSupply + amount)
  let confidential ← safe (dyn.financingConfidentialSupply + amount)
  let d₃ := d₂.modifyDynamic o.investmentAssetId fun data =>
    { data with
      financingCurrentSupply := current
      financingConfidentialSupply := confidential
      state := investedState advanceEnd data.state }
  d₃.adjustBalance o.accountId ⟨-amount, o.amount.assetId⟩

end AssetInvestment

/-! ### issue_asset_to_investors -/

namespace IssueAssetToInvestors

/-- The sums that the loop over the investments keeps. -/
structure Totals where
  totalInvestment : Int := 0
  totalIssueTmp : Int := 0
  issueAmounts : List Int := []

structure Evaluated where
  totalIssue : Int
  investmentObjects : List AssetInvestment
  issueAmounts : List Int

/-- One round of the loop: the share of one investment in `totalIssue`. -/
def addShare (d : Database) (totalIssue confidentialSupply : Int) (t : Totals) (obj : AssetInvestment) :
    Eval Totals := do
  let account ← d.getAccount obj.investmentAccountId
  let asset ← d.getAsset obj.investmentAssetId
  fcAssert (d.isAuthorizedAsset account obj.investmentAssetId asset) .unauthorized
  let totalInvestment ← safe (t.totalInvestment + obj.investmentKhdAmount.amount)
  let issueAmount ← uint128MulDiv totalIssue obj.investmentKhdAmount.amount confidentialSupply
  let totalIssueTmp ← safe (t.totalIssueTmp + issueAmount)
  return { totalInvestment, totalIssueTmp, issueAmounts := t.issueAmounts ++ [issueAmount] }

/-- `issue_amounts[issue_amounts.size()-1] += rest` -/
def addToLast (issueAmounts : List Int) (rest : Int) : Eval (List Int) :=
  match issueAmounts.getLast? with
  | none => .error .undefinedBehavior
  | some last => do
    let last' ← safe (last + rest)
    return issueAmounts.dropLast ++ [last']

def doEvaluate (d : Database) (o : IssueAssetToInvestorsOperation) : Eval Evaluated := do
  fcAssert (o.fee.amount ≥ 0) .feeNegative
  let assetObj ← d.getAsset o.investmentAssetId
  let publicOffering ← assetObj.isPublicOffering
  fcAssert publicOffering .notPublicOffering
  fcAssert (¬assetObj.isMarketIssued) .marketIssued
  let financingEnd ← assetObj.isFinancingEnd
  fcAssert financingEnd .financingNotOver
  let khdId ← d.getAssetId khdAssetSymbol
  let dyn := assetObj.dynamicData
  fcAssert (dyn.financingConfidentialSupply = dyn.financingCurrentSupply) .raisedNotCurrent
  fcAssert (dyn.currentSupply = 0) .alreadySentTokens
  let khd ← (Asset.mk dyn.financingConfidentialSupply khdId).mul assetObj.projOptions.khdExchangeRate
  let tokens ← khd.mul assetObj.options.coreExchangeRate
  let totalIssue := tokens.amount
  let investmentObjects := d.investmentsByAsset o.investmentAssetId
  let totals ← investmentObjects.foldlM (addShare d totalIssue dyn.financingConfidentialSupply) {}
  fcAssert (totals.totalIssueTmp ≤ totalIssue) .calculatedValueTooLarge
  let rest ← safe (totalIssue - totals.totalIssueTmp)
  let issueAmounts ← addToLast totals.issueAmounts rest
  fcAssert (totals.totalInvestment = dyn.financingConfidentialSupply) .totalInvestmentNotRight
  let supply ← safe (dyn.currentSupply + totalIssue)
  fcAssert (supply ≤ assetObj.options.maxSupply) .exceedsMaxSupply
  return { totalIssue, investmentObjects, issueAmounts }

/-- The loop over `investment_objects` and `issue_amounts`. -/
def giveTokens (d : Database) (shares : List (AssetInvestment × Int)) : Database :=
  shares.foldl (fun d s => d.modifyInvestment s.1.id fun obj =>
    { obj with hasReceiveToken := false, investmentTokens := s.2 }) d

def doApply (d : Database) (o : IssueAssetToInvestorsOperation) (e : Evaluated) : Eval Database := do
  let d₁ := giveTokens d (e.investmentObjects.zip e.issueAmounts)
  let assetObj ← d₁.getAsset o.investmentAssetId
  let supply ← safe (assetObj.dynamicData.currentSupply + e.totalIssue)
  return d₁.modifyDynamic o.investmentAssetId fun data =>
    { data with
      currentSupply := supply
      investmentConfidentialSupply := e.totalIssue
      investmentCurrentSupply := e.totalIssue }

end IssueAssetToInvestors

/-! ### refund_investment -/

namespace RefundInvestment

structure Scan where
  totalInvestment : Int := 0
  investmentFlag : Bool := false
  investmentObjects : List AssetInvestment := []

/-- One round of the loop over the investments of the account. -/
def scan (asset : AssetId) (s : Scan) (obj : AssetInvestment) : Eval Scan := do
  if obj.investmentAssetId = asset ∧ ¬obj.returnFinancingFlag then
    let totalInvestment ← safe (s.totalInvestment + obj.investmentKhdAmount.amount)
    return { s with totalInvestment, investmentObjects := s.investmentObjects ++ [obj] }
  else if obj.investmentAssetId = asset ∧ obj.returnFinancingFlag then
    return { s with investmentFlag := true }
  else return s

def doEvaluate (d : Database) (o : RefundInvestmentOperation) : Eval (List AssetInvestment) := do
  let assetObj ← d.getAsset o.investmentAssetId
  let publicOffering ← assetObj.isPublicOffering
  fcAssert publicOffering .notPublicOffering
  fcAssert (assetObj.dynamicData.state = .financingFailue) .notFailed
  let s ← (d.investmentsByAccount o.accountId).foldlM (scan o.investmentAssetId) {}
  let left ← safe (assetObj.dynamicData.financingCurrentSupply - s.totalInvestment)
  fcAssert (left ≥ 0) .notEnoughToRefund
  if s.investmentFlag then fcAssert (s.investmentObjects ≠ []) .refundedAlready
  else fcAssert (s.investmentObjects ≠ []) .nothingToRefund
  return s.investmentObjects

/-- One round of the loop over `investment_objects`. -/
def refundOne (o : RefundInvestmentOperation) (d : Database) (obj : AssetInvestment) : Eval Database := do
  let assetObj ← d.getAsset o.investmentAssetId
  let current ← safe (assetObj.dynamicData.financingCurrentSupply - obj.investmentKhdAmount.amount)
  let d₁ := d.modifyDynamic o.investmentAssetId fun data => { data with financingCurrentSupply := current }
  let d₂ ← d₁.adjustBalance o.accountId obj.investmentKhdAmount
  return d₂.modifyInvestment obj.id fun s => { s with returnFinancingFlag := true }

def doApply (d : Database) (o : RefundInvestmentOperation) (investmentObjects : List AssetInvestment) :
    Eval Database :=
  investmentObjects.foldlM (refundOne o) d

end RefundInvestment

/-! ### claim_bitasset_investment -/

namespace ClaimBitassetInvestment

structure Evaluated where
  khdAmount : Asset
  claimTimes : Nat

/-- The amount of the next claim, and the first block in which it may be made. -/
def claim (options : ProjectAssetOptions) (blockInterval : Nat) (dyn : AssetDynamicData) : Eval (Int × Nat) := do
  let projectDiff := options.projectCycle / blockInterval
  let first ← uint128MulDiv dyn.financingConfidentialSupply khcFirstClaimInvestmentRatio khc100Percent
  let second ← uint128MulDiv dyn.financingConfidentialSupply khcSecondClaimInvestmentRatio khc100Percent
  if dyn.claimTimes = 0 then return (first, options.startProjectBlockNum)
  else if dyn.claimTimes = 1 then return (second, options.startProjectBlockNum + projectDiff / 2)
  else
    let rest ← safe (dyn.financingConfidentialSupply - first)
    let third ← safe (rest - second)
    return (third, options.startProjectBlockNum + projectDiff)

def doEvaluate (d : Database) (o : ClaimBitassetInvestmentOperation) : Eval Evaluated := do
  let assetObj ← d.getAsset o.assetId
  let publicOffering ← assetObj.isPublicOffering
  fcAssert publicOffering .notPublicOffering
  let dyn := assetObj.dynamicData
  fcAssert (dyn.state.toNat ≥ ProjectState.projectInProgress.toNat) .projectNotFinancingEnd
  fcAssert (dyn.claimTimes < 3) .claimedAll
  fcAssert (dyn.financingCurrentSupply > 0) .noInvestmentLess
  let issued ← assetObj.isIssueToInvestors
  fcAssert issued .notIssuedToInvestors
  fcAssert (assetObj.issuer = o.accountId) .notIssuer
  fcAssert (d.headBlockNumber ≥ assetObj.projOptions.endFinancingBlockNum) .projectNotFinancingEnd
  let (claimAmount, claimBlock) ← claim assetObj.projOptions d.parameters.blockInterval dyn
  fcAssert (d.headBlockNumber ≥ claimBlock) .beforeClaimBlock
  let left ← safe (dyn.financingCurrentSupply - claimAmount)
  fcAssert (left ≥ 0) .claimTooLarge
  let khdId ← d.getAssetId khdAssetSymbol
  return { khdAmount := ⟨claimAmount, khdId⟩, claimTimes := dyn.claimTimes + 1 }

def doApply (d : Database) (o : ClaimBitassetInvestmentOperation) (e : Evaluated) : Eval Database := do
  let d₁ ← d.adjustBalance o.accountId e.khdAmount
  let assetObj ← d₁.getAsset o.assetId
  let current ← safe (assetObj.dynamicData.financingCurrentSupply - e.khdAmount.amount)
  return d₁.modifyDynamic o.assetId fun s =>
    { s with financingCurrentSupply := current, claimTimes := e.claimTimes }

end ClaimBitassetInvestment

/-! ### claim_asset_investment -/

namespace ClaimAssetInvestment

structure Evaluated where
  tokens : Int := 0
  investmentObjects : List AssetInvestment := []

/-- One round of the loop over the investments of the account. -/
def scan (d : Database) (asset : AssetId) (e : Evaluated) (obj : AssetInvestment) : Eval Evaluated := do
  let account ← d.getAccount obj.investmentAccountId
  let objAsset ← d.getAsset obj.investmentAssetId
  fcAssert (d.isAuthorizedAsset account obj.investmentAssetId objAsset) .unauthorized
  if obj.investmentAssetId = asset then
    fcAssert (obj.hasReceiveToken = false) .alreadyClaimed
    let tokens ← safe (e.tokens + obj.investmentTokens)
    return { tokens, investmentObjects := e.investmentObjects ++ [obj] }
  else return e

def doEvaluate (d : Database) (o : ClaimAssetInvestmentOperation) : Eval Evaluated := do
  let assetObj ← d.getAsset o.assetId
  let publicOffering ← assetObj.isPublicOffering
  fcAssert publicOffering .notPublicOffering
  let dyn := assetObj.dynamicData
  fcAssert (dyn.state.toNat ≥ ProjectState.projectInProgress.toNat) .projectNotFinancingEnd
  fcAssert (dyn.investmentConfidentialSupply > 0) .tokenNotIssued
  let e ← (d.investmentsByAccount o.accountId).foldlM (scan d o.assetId) {}
  fcAssert (e.tokens > 0) .notInvestor
  fcAssert (e.tokens ≤ dyn.investmentCurrentSupply) .tokensExceedUnclaimed
  return e

/-- The loop over `investment_objects`. -/
def receive (d : Database) (investmentObjects : List AssetInvestment) : Database :=
  investmentObjects.foldl (fun d obj => d.modifyInvestment obj.id fun s => { s with hasReceiveToken := true }) d

def doApply (d : Database) (o : ClaimAssetInvestmentOperation) (e : Evaluated) : Eval Database := do
  let d₁ ← d.adjustBalance o.accountId ⟨e.tokens, o.assetId⟩
  let assetObj ← d₁.getAsset o.assetId
  let unclaimed ← safe (assetObj.dynamicData.investmentCurrentSupply - e.tokens)
  let d₂ := d₁.modifyDynamic o.assetId fun a => { a with investmentCurrentSupply := unclaimed }
  return receive d₂ e.investmentObjects

end ClaimAssetInvestment

end Khc.Chain
