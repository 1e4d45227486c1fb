import Khc.Payout.VestingBalance
import Khc.Lib.Run

/-! Vesting by coin-days: how such balances are created (`vesting_balance_evaluator.cpp`, `deposit_lazy_vesting` of `db_balance.cpp`),
    topped up and withdrawn from. -/

namespace Khc.Payout

open Lib
open Chain (Asset AccountId InInt64 maxShareSupply toU128)

/-- `init_policy_visitor` for a `cdd_vesting_policy_initializer`, in a new object -/
def createCoinDays (owner : AccountId) (amount : Asset) (vestingSeconds startClaim now : Nat) : VestingBalance where
  owner := owner
  balance := amount
  policy := .cdd { vestingSeconds, startClaim, coinSecondsEarned := 0, coinSecondsEarnedLastUpdate := now }

/-- Whether the balance is topped up, or cut loose for a new one -/
def VestingBalance.Suits (b : VestingBalance) (reqVestingSeconds : Nat) (reqOwner : AccountId) : Prop :=
  b.owner = reqOwner ∧ match b.policy with
    | .linear _ => False
    | .cdd p => p.vestingSeconds = reqVestingSeconds

instance (b : VestingBalance) (reqVestingSeconds : Nat) (reqOwner : AccountId) : Decidable (b.Suits reqVestingSeconds reqOwner) := by
  unfold VestingBalance.Suits
  cases b.policy with
  | linear p => exact inferInstanceAs (Decidable (_ ∧ False))
  | cdd p => exact inferInstanceAs (Decidable (_ ∧ _ = _))

/-- `deposit_lazy_vesting`. The result is the balance that has the deposit: the given one, or a new one. -/
def depositLazyVesting (ovb : Option VestingBalance) (amount : Int) (reqVestingSeconds : Nat) (reqOwner : AccountId)
    (requireVesting : Bool) (now : Nat) : Eval (Option VestingBalance) :=
  if amount = 0 then .ok ovb
  else match ovb.filter fun b => b.Suits reqVestingSeconds reqOwner with
    | some b => do return some (← (if requireVesting then b.deposit now ⟨amount, 0⟩ else b.depositVested now ⟨amount, 0⟩ : Eval VestingBalance))
    | none => do
      let earned := if requireVesting then 0 else amount * reqVestingSeconds
      ensure (InInt64 earned) .undefinedBehavior
      return some
        { owner := reqOwner
          balance := ⟨amount, 0⟩
          policy := .cdd { vestingSeconds := reqVestingSeconds, startClaim := 0, coinSecondsEarned := toU128 earned,
                           coinSecondsEarnedLastUpdate := now } }

/-! ### Runs -/

/-- The life of a balance, from before it is created -/
structure CoinDays where
  object : Option VestingBalance
  now : Nat
  deriving DecidableEq, Repr

inductive CoinDaysChange
  | create (owner : AccountId) (amount : Asset) (vestingSeconds startClaim : Nat)
  | lazyDeposit (amount : Int) (reqVestingSeconds : Nat) (reqOwner : AccountId) (requireVesting : Bool)
  | deposit (amount : Asset)
  | depositVested (amount : Asset)
  | withdraw (amount : Asset)

namespace CoinDays

def start : CoinDays := ⟨none, 0⟩

/-- The amount can be added to the balance: it is of the same asset and not negative, and the sum is a share amount. -/
def Adds (b : VestingBalance) (amount : Asset) : Prop :=
  amount.assetId = b.balance.assetId ∧ 0 ≤ amount.amount ∧ b.balance.amount + amount.amount ≤ maxShareSupply

instance (b : VestingBalance) (amount : Asset) : Decidable (Adds b amount) := inferInstanceAs (Decidable (_ ∧ _ ∧ _))

/-- The amounts are share amounts, time does not go back, and what is withdrawn has been checked to be allowed. -/
def Possible (s : CoinDays) (c : Nat × CoinDaysChange) : Prop :=
  0 < c.1 ∧ s.now ≤ c.1 ∧ c.1 < 2 ^ 32 ∧
    match c.2 with
    | .create _ amount vestingSeconds _ =>
      s.object = none ∧ 0 ≤ amount.amount ∧ amount.amount ≤ maxShareSupply ∧ vestingSeconds < 2 ^ 32
    | .lazyDeposit amount reqVestingSeconds reqOwner _ => 0 ≤ amount ∧ amount ≤ maxShareSupply ∧ reqVestingSeconds < 2 ^ 32 ∧
      ∀ b ∈ s.object, b.Suits reqVestingSeconds reqOwner → Adds b ⟨amount, 0⟩
    | .deposit amount | .depositVested amount => ∃ b ∈ s.object, Adds b amount
    | .withdraw amount => 0 < amount.amount ∧ ∃ b ∈ s.object, b.isWithdrawAllowed c.1 amount = .ok true

instance (s : CoinDays) (c : Nat × CoinDaysChange) : Decidable (s.Possible c) := by
  unfold Possible
  cases c.2 <;> exact inferInstance

/-- The change at the time -/
def apply (s : CoinDays) (c : Nat × CoinDaysChange) : Eval CoinDays :=
  match c.2, s.object with
  | .create owner amount vestingSeconds startClaim, _ => .ok ⟨some (createCoinDays owner amount vestingSeconds startClaim c.1), c.1⟩
  | .lazyDeposit amount reqVestingSeconds reqOwner requireVesting, object => do
    return ⟨← depositLazyVesting object amount reqVestingSeconds reqOwner requireVesting c.1, c.1⟩
  | .deposit amount, some b => do return ⟨some (← b.deposit c.1 amount), c.1⟩
  | .depositVested amount, some b => do return ⟨some (← b.depositVested c.1 amount), c.1⟩
  | .withdraw amount, some b => do return ⟨some (← b.withdraw c.1 amount), c.1⟩
  | _, none => .ok ⟨none, c.1⟩

def step (s : CoinDays) (c : Nat × CoinDaysChange) : Option CoinDays := if s.Possible c then (s.apply c).toOption else none

end CoinDays

/-- What is deposited as vested -/
def CoinDaysChange.vested : CoinDaysChange → Option Asset
  | .lazyDeposit amount _ _ false => some ⟨amount, 0⟩
  | .depositVested amount => some amount
  | _ => none

end Khc.Payout
