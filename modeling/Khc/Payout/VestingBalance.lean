import Khc.Chain.Asset

/-! Amounts of what the chain pays out over time (`protocol/types.hpp`, `protocol/asset.hpp`): sums of `safe<int64_t>` throw
    when they leave the range, `assert` ends the program, and times are seconds. -/

namespace Khc.Payout

open Lib
open Chain (Asset InInt64 maxShareSupply toU128)

/-- What a check or an operator throws. The comments quote the assertion. -/
inductive Error
  /-- A sum or difference of `safe<int64_t>` leaves the range. -/
  | overflow
  /-- `fc::uint128_t::to_uint64` of a value above 64 bits -/
  | to_uint64
  /-- An `assert` that fails -/
  | assertion
  /-- `a.asset_id == b.asset_id` of an operator -/
  | assetMismatch
  /-- "May not deposit vested into a linear vesting balance." -/
  | depositVested
  /-- A product of `int64_t` that leaves the range: undefined behaviour in the source -/
  | undefinedBehavior
  deriving DecidableEq, Repr

abbrev Eval := Except Error

/-- A result of `safe<int64_t>` arithmetic -/
def safe (x : Int) : Eval Int := if InInt64 x then .ok x else .error .overflow

@[simp] theorem safe_eq_ok {x y : Int} : safe x = .ok y ↔ InInt64 x ∧ x = y := by
  unfold safe
  split <;> simp_all

/-- `fc::uint128_t::to_uint64`, read as an `int64_t` -/
def toShare (x : Int) : Eval Int := do
  ensure (x < 2 ^ 64) .to_uint64
  return if x ≥ 2 ^ 63 then x - 2 ^ 64 else x

theorem toShare_of_lt {x : Int} (h : x < 2 ^ 63) : toShare x = .ok x := by
  unfold toShare ensure
  rw [if_pos (by omega), if_neg (by omega)]
  rfl

/-- `operator <=` of assets -/
def le (a b : Asset) : Eval Bool :=
  if a = b then .ok true
  else do
    ensure (a.assetId = b.assetId) .assetMismatch
    return a.amount < b.amount

theorem le_of_assetId {a b : Asset} (h : a.assetId = b.assetId) : le a b = .ok (decide (a.amount ≤ b.amount)) := by
  unfold le ensure
  split
  · rename_i heq
    rw [heq, decide_eq_true (le_refl _)]
  · rename_i hne
    have hamount : a.amount ≠ b.amount := fun heq => hne (by cases a; cases b; simp_all)
    have hsame : (a.amount < b.amount) ↔ a.amount ≤ b.amount := ⟨le_of_lt, fun hle => lt_of_le_of_ne hle hamount⟩
    simp only [Lib.ok_bind, hsame]
    rfl

/-- `operator +=` of assets -/
def addTo (a b : Asset) : Eval Asset := do
  ensure (a.assetId = b.assetId) .assetMismatch
  return ⟨← safe (a.amount + b.amount), a.assetId⟩

/-- `operator -=` of assets -/
def subFrom (a b : Asset) : Eval Asset := do
  ensure (a.assetId = b.assetId) .assetMismatch
  return ⟨← safe (a.amount - b.amount), a.assetId⟩

/-- `sum_below_max_shares` -/
def sumBelowMaxShares (a b : Asset) : Eval Bool :=
  if a.amount ≤ maxShareSupply ∧ b.amount ≤ maxShareSupply then do
    return (← safe (a.amount + b.amount)) ≤ maxShareSupply
  else .ok false

end Khc.Payout

/-! Balances that vest (`vesting_balance_object.cpp`). -/

namespace Khc.Payout

open Lib
open Chain (Asset AccountId InInt64 toU128)

/-- What a policy is told of the balance -/
structure VestingPolicyContext where
  balance : Asset
  now : Nat
  amount : Asset
  deriving DecidableEq, Repr

/-- "traditional stock vesting contracts where each day a certain amount vests until it is fully matured" -/
structure LinearVestingPolicy where
  beginTimestamp : Nat
  vestingCliffSeconds : Nat
  vestingDurationSeconds : Nat
  beginBalance : Int
  deriving DecidableEq, Repr

/-- "vesting in terms of coin-days accrued which allows for dynamic deposit/withdraw" -/
structure CddVestingPolicy where
  vestingSeconds : Nat
  coinSecondsEarned : Int
  startClaim : Nat
  coinSecondsEarnedLastUpdate : Nat
  deriving DecidableEq, Repr

/-! ### Linear vesting -/

namespace LinearVestingPolicy
variable (p : LinearVestingPolicy)

/-- What has vested after some seconds, "`total_vested`" -/
def totalVested (elapsedSeconds : Nat) : Eval Int :=
  if elapsedSeconds < p.vestingDurationSeconds then
    toShare (toU128 (toU128 p.beginBalance * elapsedSeconds) / p.vestingDurationSeconds)
  else .ok p.beginBalance

def getAllowedWithdraw (ctx : VestingPolicyContext) : Eval Asset :=
  if ctx.now > p.beginTimestamp ∧ ctx.now - p.beginTimestamp ≥ p.vestingCliffSeconds then do
    let totalVested ← p.totalVested (ctx.now - p.beginTimestamp)
    ensure (totalVested ≥ 0) .assertion
    let withdrawnAlready ← safe (p.beginBalance - ctx.balance.amount)
    ensure (withdrawnAlready ≥ 0) .assertion
    let allowedWithdraw ← safe (totalVested - withdrawnAlready)
    ensure (allowedWithdraw ≥ 0) .assertion
    return ⟨allowedWithdraw, ctx.balance.assetId⟩
  else .ok ⟨0, ctx.balance.assetId⟩

def isDepositAllowed (ctx : VestingPolicyContext) : Eval Bool :=
  if ctx.amount.assetId = ctx.balance.assetId then sumBelowMaxShares ctx.amount ctx.balance else .ok false

def isWithdrawAllowed (ctx : VestingPolicyContext) : Eval Bool :=
  if ctx.amount.assetId = ctx.balance.assetId then do le ctx.amount (← p.getAllowedWithdraw ctx) else .ok false

end LinearVestingPolicy

/-! ### Coin days -/

namespace CddVestingPolicy
variable (p : CddVestingPolicy)

def computeCoinSecondsEarned (ctx : VestingPolicyContext) : Eval Int := do
  ensure (ctx.now ≥ p.coinSecondsEarnedLastUpdate) .assertion
  let deltaCoinSeconds := toU128 (toU128 ctx.balance.amount * (ctx.now - p.coinSecondsEarnedLastUpdate : Nat))
  let coinSecondsEarnedCap := toU128 (toU128 ctx.balance.amount * max p.vestingSeconds 1)
  return min (toU128 (p.coinSecondsEarned + deltaCoinSeconds)) coinSecondsEarnedCap

def updateCoinSecondsEarned (ctx : VestingPolicyContext) : Eval CddVestingPolicy := do
  return { p with coinSecondsEarned := ← p.computeCoinSecondsEarned ctx, coinSecondsEarnedLastUpdate := ctx.now }

def getAllowedWithdraw (ctx : VestingPolicyContext) : Eval Asset :=
  if ctx.now ≤ p.startClaim then .ok ⟨0, ctx.balance.assetId⟩
  else do
    let withdrawAvailable := (← p.computeCoinSecondsEarned ctx) / max p.vestingSeconds 1
    ensure (withdrawAvailable ≤ toU128 ctx.balance.amount) .assertion
    return ⟨← toShare withdrawAvailable, ctx.balance.assetId⟩

def onDepositVested (ctx : VestingPolicyContext) : Eval CddVestingPolicy := do
  let p ← p.updateCoinSecondsEarned ctx
  let earned := ctx.amount.amount * max p.vestingSeconds 1
  ensure (InInt64 earned) .undefinedBehavior
  return { p with coinSecondsEarned := toU128 (p.coinSecondsEarned + toU128 earned) }

def onWithdraw (ctx : VestingPolicyContext) : Eval CddVestingPolicy := do
  let p ← p.updateCoinSecondsEarned ctx
  let coinSecondsNeeded := toU128 (toU128 ctx.amount.amount * max p.vestingSeconds 1)
  ensure (coinSecondsNeeded ≤ p.coinSecondsEarned) .assertion
  return { p with coinSecondsEarned := p.coinSecondsEarned - coinSecondsNeeded }

def isDepositAllowed (ctx : VestingPolicyContext) : Eval Bool :=
  if ctx.amount.assetId = ctx.balance.assetId then sumBelowMaxShares ctx.amount ctx.balance else .ok false

def isWithdrawAllowed (ctx : VestingPolicyContext) : Eval Bool := do le ctx.amount (← p.getAllowedWithdraw ctx)

end CddVestingPolicy

/-! ### Balances -/

inductive VestingPolicy
  | linear (p : LinearVestingPolicy)
  | cdd (p : CddVestingPolicy)
  deriving DecidableEq, Repr

namespace VestingPolicy
variable (p : VestingPolicy) (ctx : VestingPolicyContext)

def onDeposit : Eval VestingPolicy :=
  match p with
  | .linear p => .ok (.linear p)
  | .cdd p => do return .cdd (← p.updateCoinSecondsEarned ctx)

def onDepositVested : Eval VestingPolicy :=
  match p with
  | .linear _ => .error .depositVested
  | .cdd p => do return .cdd (← p.onDepositVested ctx)

def onWithdraw : Eval VestingPolicy :=
  match p with
  | .linear p => .ok (.linear p)
  | .cdd p => do return .cdd (← p.onWithdraw ctx)

def isDepositAllowed : Eval Bool :=
  match p with
  | .linear _ => LinearVestingPolicy.isDepositAllowed ctx
  | .cdd _ => CddVestingPolicy.isDepositAllowed ctx

def isDepositVestedAllowed : Eval Bool :=
  match p with
  | .linear _ => .ok false
  | .cdd _ => CddVestingPolicy.isDepositAllowed ctx

def isWithdrawAllowed : Eval Bool :=
  match p with
  | .linear p => p.isWithdrawAllowed ctx
  | .cdd p => p.isWithdrawAllowed ctx

def getAllowedWithdraw : Eval Asset :=
  match p with
  | .linear p => p.getAllowedWithdraw ctx
  | .cdd p => p.getAllowedWithdraw ctx

end VestingPolicy

/-- `vesting_balance_object` -/
structure VestingBalance where
  owner : AccountId
  balance : Asset
  policy : VestingPolicy
  deriving DecidableEq, Repr

namespace VestingBalance
variable (b : VestingBalance) (now : Nat) (amount : Asset)

def isDepositAllowed : Eval Bool := b.policy.isDepositAllowed ⟨b.balance, now, amount⟩

def isDepositVestedAllowed : Eval Bool := b.policy.isDepositVestedAllowed ⟨b.balance, now, amount⟩

/-- "if some policy allows you to withdraw more than your balance, there's a programming bug in the policy algorithm" -/
def isWithdrawAllowed : Eval Bool := do
  let result ← b.policy.isWithdrawAllowed ⟨b.balance, now, amount⟩
  ensure ((← le amount b.balance) ∨ ¬result) .assertion
  return result

def deposit : Eval VestingBalance := do
  let policy ← b.policy.onDeposit ⟨b.balance, now, amount⟩
  return { b with policy, balance := ← addTo b.balance amount }

def depositVested : Eval VestingBalance := do
  let policy ← b.policy.onDepositVested ⟨b.balance, now, amount⟩
  return { b with policy, balance := ← addTo b.balance amount }

def withdraw : Eval VestingBalance := do
  ensure (← le amount b.balance) .assertion
  let policy ← b.policy.onWithdraw ⟨b.balance, now, amount⟩
  return { b with policy, balance := ← subFrom b.balance amount }

def getAllowedWithdraw : Eval Asset := b.policy.getAllowedWithdraw ⟨b.balance, now, ⟨0, 0⟩⟩

end VestingBalance

end Khc.Payout
