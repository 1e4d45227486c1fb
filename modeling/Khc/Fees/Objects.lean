import Khc.Chain.Asset
import Mathlib.Logic.Function.Basic

/-! The accounts and what they have paid in fees, the accumulators of fee-backed assets, and the deposits of cashback (`account_object.hpp`,
    `fba_object.cpp`, `deposit_cashback` of `db_balance.cpp`). Amounts without an asset are of the core asset. -/

namespace Khc.Fees

open Lib
open Chain (AccountId AssetId Eval Error fcAssert safe InInt64 maxInt64 uint128MulDiv uint128MulDiv_part safe_eq_ok fcAssert_eq_ok)

/-- `GRAPHENE_100_PERCENT` -/
def graphene100Percent : Nat := 10000

/-- Of `chain_parameters`, as `chain_parameters::validate` accepts them -/
structure FeeParameters where
  reservePercentOfFee : Nat
  networkPercentOfFee : Nat
  lifetimeReferrerPercentOfFee : Nat
  cashbackVestingPeriodSeconds : Nat
  cashbackVestingThreshold : Int
  reserve_le : reservePercentOfFee ≤ graphene100Percent
  network_le : networkPercentOfFee + lifetimeReferrerPercentOfFee ≤ graphene100Percent

/-- The percentages of an account's fees -/
structure FeePercentages where
  network : Nat
  lifetimeReferrer : Nat
  referrerRewards : Nat
  network_le : network + lifetimeReferrer ≤ graphene100Percent
  rewards_le : referrerRewards ≤ graphene100Percent

inductive SpecialAuthority
  | none
  | topHolders (asset : AssetId) (numTopHolders : Nat)
  deriving DecidableEq, Repr

structure AccountObject where
  membershipExpirationDate : Nat
  registrar : AccountId
  referrer : AccountId
  lifetimeReferrer : AccountId
  percentages : FeePercentages
  ownerSpecialAuthority : SpecialAuthority := .none
  activeSpecialAuthority : SpecialAuthority := .none
  topNControlFlags : Nat := 0

structure AccountStatistics where
  lifetimeFeesPaid : Int := 0
  pendingFees : Int := 0
  pendingVestedFees : Int := 0
  deriving DecidableEq, Repr

/-- A vesting balance that takes cashback. The amount does not depend on the coin-seconds. -/
structure CashbackBalance where
  balance : Int
  vestingSeconds : Nat
  deriving DecidableEq, Repr

/-- The balance that `cashback_vb` names, and those of the account that have been cut loose for a new one -/
structure Cashback where
  cashbackVb : Option CashbackBalance := none
  loose : List CashbackBalance := []
  deriving DecidableEq, Repr

structure AssetObject where
  issuer : AccountId
  isMarketIssued : Bool
  issuerPermissions : Nat
  flags : Nat
  buybackAccount : Option AccountId
  deriving DecidableEq, Repr

structure FbaAccumulator where
  accumulatedFbaFees : Int := 0
  designatedAsset : Option AssetId := none
  deriving DecidableEq, Repr

inductive FbaAccumulatorId
  | transferToBlind
  | blindTransfer
  | transferFromBlind
  deriving DecidableEq, Repr

structure Database where
  headBlockTime : Nat
  parameters : FeeParameters
  accounts : AccountId → Option AccountObject
  statistics : AccountId → AccountStatistics
  cashback : AccountId → Cashback
  balances : AccountId → Int
  assets : AssetId → Option AssetObject
  fbaAccumulators : FbaAccumulatorId → FbaAccumulator
  /-- `current_supply` and `accumulated_fees` of the core asset -/
  currentSupply : Int
  accumulatedFees : Int

namespace AccountObject

/-- `time_point_sec::maximum()` -/
def maximumTime : Nat := 2 ^ 32 - 1

def isLifetimeMember (a : AccountObject) : Bool := a.membershipExpirationDate == maximumTime

def isBasicAccount (a : AccountObject) (now : Nat) : Bool := now > a.membershipExpirationDate

end AccountObject

namespace Database
variable (d : Database)

def getAccount (id : AccountId) : Eval AccountObject :=
  match d.accounts id with
  | some a => .ok a
  | none => .error .objectNotFound

def setAccount (id : AccountId) (a : AccountObject) : Database := { d with accounts := Function.update d.accounts id (some a) }

def setStatistics (id : AccountId) (s : AccountStatistics) : Database := { d with statistics := Function.update d.statistics id s }

/-- The committee, witness, relaxed committee, null and temporary accounts -/
def isOfBlockchain (id : AccountId) : Bool := id < 5

/-- `deposit_lazy_vesting` for the cashback of an account -/
def depositLazyVesting (c : Cashback) (amount : Int) (reqVestingSeconds : Nat) : Eval Cashback :=
  match c.cashbackVb with
  | some b =>
    if b.vestingSeconds = reqVestingSeconds then do
      return { c with cashbackVb := some { b with balance := ← safe (b.balance + amount) } }
    else .ok ⟨some ⟨amount, reqVestingSeconds⟩, b :: c.loose⟩
  | none => .ok { c with cashbackVb := some ⟨amount, reqVestingSeconds⟩ }

/-- "The blockchain's accounts do not get cashback; it simply goes to the reserve pool." -/
def depositCashback (id : AccountId) (amount : Int) : Eval Database := do
  let _ ← d.getAccount id
  if amount = 0 then .ok d
  else if isOfBlockchain id then do return { d with currentSupply := ← safe (d.currentSupply - amount) }
  else do
    let c ← depositLazyVesting (d.cashback id) amount d.parameters.cashbackVestingPeriodSeconds
    return { d with cashback := Function.update d.cashback id c }

/-- `adjust_balance` by an amount of core that is not negative -/
def adjustBalance (id : AccountId) (amount : Int) : Eval Database :=
  if amount = 0 then .ok d else do return { d with balances := Function.update d.balances id (← safe (d.balances id + amount)) }

end Database

/-- `fba_accumulator_object::is_configured` -/
def FbaAccumulator.isConfigured (fba : FbaAccumulator) (d : Database) : Eval Bool :=
  match fba.designatedAsset with
  | none => .ok false
  | some id => match d.assets id with
    | none => .ok false
    | some dasset =>
      if dasset.isMarketIssued ∨ dasset.issuerPermissions &&& 0x01 ≠ dasset.issuerPermissions ∨ dasset.flags &&& 0x01 ≠ dasset.flags ∨
        dasset.buybackAccount = none then .ok false
      else do
        let issuerAcct ← d.getAccount dasset.issuer
        match issuerAcct.ownerSpecialAuthority, issuerAcct.activeSpecialAuthority with
        | .topHolders owner _, .topHolders active _ => return owner = id ∧ active = id ∧ issuerAcct.topNControlFlags = 3
        | _, _ => return false

end Khc.Fees
