import Khc.Fees.Objects

/-! How fees are paid and given to those who share them (`account_object.cpp`, `db_maint.cpp`, the fees of `account_evaluator.cpp`). -/

namespace Khc.Fees

open Lib
open Chain (AccountId AssetId Eval Error fcAssert safe InInt64 maxInt64 uint128MulDiv)

/-- `cut_fee` -/
def cutFee (a : Int) (p : Nat) : Eval Int :=
  if a = 0 ∨ p = 0 then .ok 0
  else if p = graphene100Percent then .ok a
  else uint128MulDiv a p graphene100Percent

namespace Database
variable (d : Database)

/-- `account_statistics_object::pay_fee` -/
def payFee (id : AccountId) (coreFee : Int) : Eval Database := do
  let s := d.statistics id
  if coreFee > d.parameters.cashbackVestingThreshold then
    return d.setStatistics id { s with pendingFees := ← safe (s.pendingFees + coreFee) }
  else
    return d.setStatistics id { s with pendingVestedFees := ← safe (s.pendingVestedFees + coreFee) }

/-- "if he's no longer a member, pay to the lifetime referrer instead" -/
def checkReferrer (id : AccountId) (account : AccountObject) : Eval Database := do
  let referrer ← d.getAccount account.referrer
  return if referrer.isBasicAccount d.headBlockTime then d.setAccount id { account with referrer := account.lifetimeReferrer } else d

/-- `pay_out_fees` of `process_fees` -/
def payOutFees (id : AccountId) (coreFeeTotal : Int) : Eval Database := do
  let d ← d.checkReferrer id (← d.getAccount id)
  let account ← d.getAccount id
  let networkCut ← cutFee coreFeeTotal account.percentages.network
  fcAssert (networkCut ≤ coreFeeTotal) .assertion
  let reserved ← cutFee networkCut d.parameters.reservePercentOfFee
  let accumulated ← safe (networkCut - reserved)
  fcAssert (accumulated + reserved = networkCut) .assertion
  let lifetimeCut ← cutFee coreFeeTotal account.percentages.lifetimeReferrer
  let rest ← safe (coreFeeTotal - networkCut)
  let referral ← safe (rest - lifetimeCut)
  let accumulatedFees ← safe (d.accumulatedFees + networkCut)
  let d := { d with accumulatedFees }
  let referrerCut ← cutFee referral account.percentages.referrerRewards
  let registrarCut ← safe (referral - referrerCut)
  let d ← d.depositCashback account.lifetimeReferrer lifetimeCut
  let d ← d.depositCashback account.referrer referrerCut
  let d ← d.depositCashback account.registrar registrarCut
  fcAssert (referrerCut + registrarCut + accumulated + reserved + lifetimeCut = coreFeeTotal) .assertion
  return d

/-- `account_statistics_object::process_fees`. The two pools differ only in the coin-seconds that come with them. -/
def processFees (id : AccountId) : Eval Database :=
  let s := d.statistics id
  if s.pendingFees > 0 ∨ s.pendingVestedFees > 0 then do
    let d ← d.payOutFees id s.pendingFees
    let d ← d.payOutFees id s.pendingVestedFees
    let paid ← safe (s.pendingFees + s.pendingVestedFees)
    let lifetimeFeesPaid ← safe (s.lifetimeFeesPaid + paid)
    return d.setStatistics id { lifetimeFeesPaid, pendingFees := 0, pendingVestedFees := 0 }
  else .ok d

/-! ### Fee-backed assets -/

def setFba (fbaId : FbaAccumulatorId) (fba : FbaAccumulator) : Database :=
  { d with fbaAccumulators := Function.update d.fbaAccumulators fbaId fba }

/-- `generic_evaluator::pay_fba_fee` -/
def payFbaFee (fbaId : FbaAccumulatorId) (coreFeePaid : Int) : Eval Database := do
  let fba := d.fbaAccumulators fbaId
  return d.setFba fbaId { fba with accumulatedFbaFees := ← safe (fba.accumulatedFbaFees + coreFeePaid) }

/-- What goes to the buyback account and to the issuer -/
def payDesignated (buybackAmount issuerAmount : Int) (fba : FbaAccumulator) : Eval Database :=
  match fba.designatedAsset.bind d.assets with
  | some ⟨issuer, _, _, _, some buybackAccount⟩ => do
    let d ← d.adjustBalance buybackAccount buybackAmount
    d.adjustBalance issuer issuerAmount
  | _ => .error .objectNotFound

/-- `split_fba_balance` -/
def splitFbaBalance (fbaId : FbaAccumulatorId) (networkPct designatedAssetBuybackPct designatedAssetIssuerPct : Nat) : Eval Database := do
  fcAssert (networkPct + designatedAssetBuybackPct + designatedAssetIssuerPct = graphene100Percent) .assertion
  let fba := d.fbaAccumulators fbaId
  if fba.accumulatedFbaFees = 0 then return d
  let configured ← fba.isConfigured d
  if ¬configured then
    return { d with currentSupply := ← safe (d.currentSupply - fba.accumulatedFbaFees) }.setFba fbaId { fba with accumulatedFbaFees := 0 }
  let buybackAmount ← uint128MulDiv fba.accumulatedFbaFees designatedAssetBuybackPct graphene100Percent
  let issuerAmount ← uint128MulDiv fba.accumulatedFbaFees designatedAssetIssuerPct graphene100Percent
  let designated ← safe (buybackAmount + issuerAmount)
  fcAssert (designated ≤ fba.accumulatedFbaFees) .assertion
  let networkAmount ← safe (fba.accumulatedFbaFees - designated)
  let currentSupply ← safe (d.currentSupply - networkAmount)
  let d ← payDesignated { d with currentSupply } buybackAmount issuerAmount fba
  return d.setFba fbaId { fba with accumulatedFbaFees := 0 }

/-- `distribute_fba_balances` -/
def distributeFbaBalances : Eval Database := do
  let d ← d.splitFbaBalance .transferToBlind 2000 6000 2000
  let d ← d.splitFbaBalance .blindTransfer 2000 6000 2000
  d.splitFbaBalance .transferFromBlind 2000 6000 2000

/-! ### Accounts -/

/-- What `account_create` says of the fees; `fee_paying_account` is the registrar. -/
structure AccountCreateOperation where
  registrar : AccountId
  referrer : AccountId
  referrerPercent : Nat

/-- `HARDFORK_453_TIME` -/
def hardfork453Time : Nat := 1450288800

/-- The percentage that is stored; small ones were taken for hundredths before the hardfork. -/
def storedReferrerPercent (o : AccountCreateOperation) (headBlockTime : Nat) : Nat :=
  if headBlockTime ≤ hardfork453Time ∧ o.referrer ≠ o.registrar ∧ o.referrerPercent ≠ 0 ∧ o.referrerPercent ≤ 0x100 then
    min (o.referrerPercent * 100) graphene100Percent
  else o.referrerPercent

theorem storedReferrerPercent_le {o : AccountCreateOperation} (h : o.referrerPercent ≤ graphene100Percent) (headBlockTime : Nat) :
    storedReferrerPercent o headBlockTime ≤ graphene100Percent := by
  unfold storedReferrerPercent
  split
  · exact min_le_right _ _
  · exact h

/-- `account_create`, with a new id -/
def createAccount (id : AccountId) (o : AccountCreateOperation) : Eval Database :=
  if hpercent : o.referrerPercent ≤ graphene100Percent then do
    fcAssert (d.accounts id = none) .notUnique
    let registrar ← d.getAccount o.registrar
    fcAssert registrar.isLifetimeMember .unauthorized
    let referrer ← d.getAccount o.referrer
    fcAssert (¬referrer.isBasicAccount d.headBlockTime) .unauthorized
    let account : AccountObject :=
      { membershipExpirationDate := 0
        registrar := o.registrar
        referrer := o.referrer
        lifetimeReferrer := referrer.lifetimeReferrer
        percentages :=
          { network := d.parameters.networkPercentOfFee
            lifetimeReferrer := d.parameters.lifetimeReferrerPercentOfFee
            referrerRewards := storedReferrerPercent o d.headBlockTime
            network_le := d.parameters.network_le
            rewards_le := storedReferrerPercent_le hpercent d.headBlockTime } }
    return (d.setAccount id account).setStatistics id {}
  else .error .unauthorized

/-- The rest of a fee that the network does not take goes to the lifetime referrer. -/
def FeePercentages.upgraded (p : FeePercentages) : FeePercentages :=
  { p with
    lifetimeReferrer := graphene100Percent - p.network
    network_le := by have := p.network_le; omega }

/-- `account_upgrade` to a lifetime member, the only upgrade since `HARDFORK_613_TIME` -/
def upgradeAccount (id : AccountId) : Eval Database := do
  fcAssert (¬(← d.getAccount id).isLifetimeMember) .unauthorized
  let d ← d.processFees id
  let a ← d.getAccount id
  return d.setAccount id
    { a with
      membershipExpirationDate := AccountObject.maximumTime
      referrer := id
      registrar := id
      lifetimeReferrer := id
      percentages := FeePercentages.upgraded a.percentages }

end Database

end Khc.Fees
