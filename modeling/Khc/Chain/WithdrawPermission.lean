import Khc.Chain.Database

/-! Permissions to withdraw from an account (`withdraw_permission_object.hpp`, `withdraw_permission_evaluator.cpp`). Times are numbers of
    32 bits; their differences are signed, with 64 bits. -/

namespace Khc.Chain

def hardfork23Time : Nat := 1512747600
def hardforkCore942Time : Nat := 1532008920

/-- The conversion to `uint32_t` -/
def toU32 (x : Int) : Nat := (x % 2 ^ 32).toNat

/-- `operator <=` of two assets -/
def Asset.le (a b : Asset) : Eval Bool :=
  if a = b then .ok true
  else do
    fcAssert (a.assetId = b.assetId) .assetsDiffer
    return a.amount < b.amount

structure WithdrawPermission where
  withdrawFromAccount : AccountId
  authorizedAccount : AccountId
  withdrawalLimit : Asset
  withdrawalPeriodSec : Nat
  periodStartTime : Nat
  expiration : Nat
  claimedThisPeriod : Int := 0
  deriving DecidableEq, Repr

/-- "Determine how much is still available to be claimed during the period that contains a time of interest" -/
def WithdrawPermission.availableThisPeriod (p : WithdrawPermission) (currentTime : Nat) : Eval Asset :=
  if currentTime ≥ toU32 (p.periodStartTime + p.withdrawalPeriodSec) then .ok p.withdrawalLimit
  else if p.withdrawalLimit.amount > p.claimedThisPeriod then do
    return ⟨← safe (p.withdrawalLimit.amount - p.claimedThisPeriod), p.withdrawalLimit.assetId⟩
  else .ok ⟨0, p.withdrawalLimit.assetId⟩

/-! ### Operations -/

/-- `withdraw_permission_create_operation`; `withdraw_permission_update_operation` also names the permission. -/
structure WithdrawPermissionTerms where
  fee : Asset
  withdrawFromAccount : AccountId
  authorizedAccount : AccountId
  withdrawalLimit : Asset
  withdrawalPeriodSec : Nat
  periodsUntilExpiration : Nat
  periodStartTime : Nat
  deriving DecidableEq, Repr

structure WithdrawPermissionClaimOperation where
  fee : Asset
  withdrawFromAccount : AccountId
  withdrawToAccount : AccountId
  amountToWithdraw : Asset
  deriving DecidableEq, Repr

namespace WithdrawPermissionTerms
variable (o : WithdrawPermissionTerms)

/-- The values are those of the types of the fields. -/
def InRange : Prop :=
  InInt64 o.withdrawalLimit.amount ∧ o.withdrawalPeriodSec < 2 ^ 32 ∧ o.periodsUntilExpiration < 2 ^ 32 ∧ o.periodStartTime < 2 ^ 32

instance : Decidable o.InRange := inferInstanceAs (Decidable (_ ∧ _ ∧ _ ∧ _))

def validate : Eval Unit := do
  fcAssert (o.withdrawalLimit.amount > 0) .invalidWithdrawPermission
  fcAssert (o.fee.amount ≥ 0) .feeNegative
  fcAssert (o.withdrawalPeriodSec > 0) .invalidWithdrawPermission
  fcAssert (o.withdrawFromAccount ≠ o.authorizedAccount) .sameAccount
  fcAssert (o.periodsUntilExpiration > 0) .invalidWithdrawPermission

def expiration : Nat := toU32 (o.periodStartTime + toU32 (o.periodsUntilExpiration * o.withdrawalPeriodSec))

end WithdrawPermissionTerms

namespace WithdrawPermissionCreate

def doEvaluate (d : Database) (o : WithdrawPermissionTerms) : Eval Unit := do
  let _ ← d.getAccount o.withdrawFromAccount
  let _ ← d.getAccount o.authorizedAccount
  let _ ← d.getAsset o.withdrawalLimit.assetId
  fcAssert (o.periodStartTime > d.headBlockTime) .periodStartsTooEarly
  fcAssert (o.expiration > d.headBlockTime) .permissionExpired
  fcAssert (o.withdrawalPeriodSec ≥ d.parameters.blockInterval) .periodTooShort

def doApply (o : WithdrawPermissionTerms) : WithdrawPermission where
  withdrawFromAccount := o.withdrawFromAccount
  authorizedAccount := o.authorizedAccount
  withdrawalLimit := o.withdrawalLimit
  withdrawalPeriodSec := o.withdrawalPeriodSec
  expiration := o.expiration
  periodStartTime := o.periodStartTime

end WithdrawPermissionCreate

namespace WithdrawPermissionUpdate

def doEvaluate (d : Database) (permit : WithdrawPermission) (o : WithdrawPermissionTerms) : Eval Unit := do
  fcAssert (permit.authorizedAccount = o.authorizedAccount) .permissionOfOthers
  fcAssert (permit.withdrawFromAccount = o.withdrawFromAccount) .permissionOfOthers
  let _ ← d.getAsset o.withdrawalLimit.assetId
  fcAssert (o.periodStartTime ≥ d.headBlockTime) .periodStartsTooEarly
  fcAssert (o.expiration > d.headBlockTime) .permissionExpired
  fcAssert (o.withdrawalPeriodSec ≥ d.parameters.blockInterval) .periodTooShort

def doApply (permit : WithdrawPermission) (o : WithdrawPermissionTerms) : WithdrawPermission :=
  { permit with
    periodStartTime := o.periodStartTime
    expiration := o.expiration
    withdrawalLimit := o.withdrawalLimit
    withdrawalPeriodSec := o.withdrawalPeriodSec }

end WithdrawPermissionUpdate

namespace WithdrawPermissionClaim

def validate (o : WithdrawPermissionClaimOperation) : Eval Unit := do
  fcAssert (o.withdrawToAccount ≠ o.withdrawFromAccount) .sameAccount
  fcAssert (o.amountToWithdraw.amount > 0) .amountNotPositive
  fcAssert (o.fee.amount ≥ 0) .feeNegative

def doEvaluate (d : Database) (permit : WithdrawPermission) (o : WithdrawPermissionClaimOperation) : Eval Unit := do
  fcAssert (permit.expiration > d.headBlockTime) .permissionExpired
  fcAssert (permit.authorizedAccount = o.withdrawToAccount) .permissionOfOthers
  fcAssert (permit.withdrawFromAccount = o.withdrawFromAccount) .permissionOfOthers
  fcAssert (d.headBlockTime ≥ hardfork23Time → permit.periodStartTime ≤ d.headBlockTime) .periodNotStarted
  let available ← permit.availableThisPeriod d.headBlockTime
  let within ← o.amountToWithdraw.le available
  fcAssert within .withdrawalLimitExceeded
  fcAssert (d.balances o.withdrawFromAccount o.amountToWithdraw.assetId ≥ o.amountToWithdraw.amount) .insufficientBalance
  let asset ← d.getAsset o.amountToWithdraw.assetId
  fcAssert (asset.isTransferRestricted → asset.issuer = permit.authorizedAccount ∨ asset.issuer = permit.withdrawFromAccount)
    .transferRestricted
  let toAccount ← d.getAccount permit.authorizedAccount
  fcAssert (d.isAuthorizedAsset toAccount o.amountToWithdraw.assetId asset) .unauthorized
  let fromAccount ← d.getAccount o.withdrawFromAccount
  -- before the hardfork an unauthorized withdrawal is only logged
  fcAssert (d.headBlockTime > hardforkCore942Time → d.isAuthorizedAsset fromAccount o.amountToWithdraw.assetId asset) .unauthorized

/-- The permission after the claim, to be written before the balances change -/
def advance (d : Database) (p : WithdrawPermission) (o : WithdrawPermissionClaimOperation) : Eval WithdrawPermission := do
  let periods := ((d.headBlockTime : Int) - p.periodStartTime).tdiv p.withdrawalPeriodSec
  let claimed ← (if periods = 0 then safe (p.claimedThisPeriod + o.amountToWithdraw.amount) else .ok o.amountToWithdraw.amount : Eval Int)
  return { p with periodStartTime := toU32 (p.periodStartTime + periods * p.withdrawalPeriodSec), claimedThisPeriod := claimed }

def doApply (d : Database) (permit : WithdrawPermission) (o : WithdrawPermissionClaimOperation) : Eval (WithdrawPermission × Database) := do
  let permit ← advance d permit o
  let d₁ ← d.adjustBalance o.withdrawFromAccount o.amountToWithdraw.neg
  let d₂ ← d₁.adjustBalance o.withdrawToAccount o.amountToWithdraw
  return (permit, d₂)

end WithdrawPermissionClaim

/-! ### Runs -/

inductive PermissionOperation
  | update (o : WithdrawPermissionTerms)
  | claim (o : WithdrawPermissionClaimOperation)

/-- A permission with the times and amounts of what was claimed under it -/
structure Permitted where
  permit : WithdrawPermission
  now : Nat
  claims : List (Nat × Int)
  deriving DecidableEq

namespace Permitted

/-- What was claimed from a time on -/
def claimedSince (s : Permitted) (start : Nat) : Int := ((s.claims.filter fun c => start ≤ c.1).map (·.2)).sum

/-- The operation in a block, with the rest of the database as it is then -/
def apply (s : Permitted) (d : Database) : PermissionOperation → Eval Permitted
  | .update o => do
    o.validate
    WithdrawPermissionUpdate.doEvaluate d s.permit o
    return { s with permit := WithdrawPermissionUpdate.doApply s.permit o, now := d.headBlockTime }
  | .claim o => do
    WithdrawPermissionClaim.validate o
    WithdrawPermissionClaim.doEvaluate d s.permit o
    let (permit, _) ← WithdrawPermissionClaim.doApply d s.permit o
    return ⟨permit, d.headBlockTime, (d.headBlockTime, o.amountToWithdraw.amount) :: s.claims⟩

/-- Time does not go back, and the numbers are those of their types. -/
def Possible (s : Permitted) (i : Database × PermissionOperation) : Prop :=
  s.now ≤ i.1.headBlockTime ∧ i.1.headBlockTime < 2 ^ 32 ∧ match i.2 with
    | .update o => o.InRange
    | .claim _ => True

instance (s : Permitted) (i : Database × PermissionOperation) : Decidable (s.Possible i) := by
  unfold Possible
  cases i.2 <;> exact inferInstance

def step (s : Permitted) (i : Database × PermissionOperation) : Option Permitted :=
  if s.Possible i then (s.apply i.1 i.2).toOption else none

/-- A permission that has just been created -/
def Created (s : Permitted) : Prop := ∃ d o, d.headBlockTime < 2 ^ 32 ∧ WithdrawPermissionTerms.InRange o ∧ o.validate = .ok () ∧
  WithdrawPermissionCreate.doEvaluate d o = .ok () ∧ s = ⟨WithdrawPermissionCreate.doApply o, d.headBlockTime, []⟩

end Permitted

end Khc.Chain
