import Khc.Payout.VestingBalance

/-! What the budget of a maintenance interval is made from: the parameters of the chain (`chain_parameters.hpp`, `fee_schedule.cpp`),
    the workers (`worker_object.hpp`, `worker_evaluator.cpp`) and the amounts of the core asset. Times are seconds of 32 bits. -/

namespace Khc.Budget

open Lib
open Chain (InInt64 maxShareSupply toU128)
open Payout (VestingBalance)

/-! ### Parameters of the chain -/

def graphene100Percent : Nat := 10000
def grapheneMinBlockInterval : Nat := 1
def grapheneMaxBlockInterval : Nat := 30
def grapheneMinTransactionSizeLimit : Nat := 1024
def grapheneMinBlockSizeLimit : Nat := grapheneMinTransactionSizeLimit * 5

/-- `chain_parameters`. The defaults are those of the genesis. -/
structure ChainParameters where
  blockInterval : UInt8 := 5
  maintenanceInterval : UInt32 := 60
  committeeProposalReviewPeriod : UInt32 := 1209600
  maximumTransactionSize : UInt32 := 2048
  maximumBlockSize : UInt32 := 2000000
  maximumTimeUntilExpiration : UInt32 := 600
  maximumProposalLifetime : UInt32 := 2419200
  reservePercentOfFee : UInt16 := 2000
  networkPercentOfFee : UInt16 := 2000
  lifetimeReferrerPercentOfFee : UInt16 := 3000
  witnessPayPerBlock : Int := 1000000000
  workerBudgetPerDay : Int := 50000000000000
  witnessPay_range : InInt64 witnessPayPerBlock := by decide
  workerBudget_range : InInt64 workerBudgetPerDay := by decide

/-- Why parameters are not accepted. The comments quote the assertions that have a text. -/
inductive ParametersError
  | reservePercent
  | networkPercent
  | lifetimeReferrerPercent
  | networkAndLifetimeReferrerPercent
  | minBlockInterval
  | maxBlockInterval
  | blockInterval
  /-- "Maintenance interval must be longer than block interval" -/
  | maintenanceInterval
  /-- "Maintenance interval must be a multiple of block interval" -/
  | maintenanceMultiple
  /-- "Transaction size limit is too low" -/
  | transactionSize
  /-- "Block size limit is too low" -/
  | blockSize
  /-- "Maximum transaction expiration time must be greater than a block interval" -/
  | timeUntilExpiration
  /-- "Committee proposal review period must be less than the maximum proposal lifetime" -/
  | proposalLifetime
  deriving DecidableEq, Repr

/-- `chain_parameters::validate`. That of the fees checks nothing. -/
def ChainParameters.validate (p : ChainParameters) : Except ParametersError Unit := do
  ensure (p.reservePercentOfFee.toNat ≤ graphene100Percent) .reservePercent
  ensure (p.networkPercentOfFee.toNat ≤ graphene100Percent) .networkPercent
  ensure (p.lifetimeReferrerPercentOfFee.toNat ≤ graphene100Percent) .lifetimeReferrerPercent
  ensure (p.networkPercentOfFee.toNat + p.lifetimeReferrerPercentOfFee.toNat ≤ graphene100Percent) .networkAndLifetimeReferrerPercent
  ensure (p.blockInterval.toNat ≥ grapheneMinBlockInterval) .minBlockInterval
  ensure (p.blockInterval.toNat ≤ grapheneMaxBlockInterval) .maxBlockInterval
  ensure (p.blockInterval > 0) .blockInterval
  ensure (p.maintenanceInterval.toNat > p.blockInterval.toNat) .maintenanceInterval
  ensure (p.maintenanceInterval.toNat % p.blockInterval.toNat = 0) .maintenanceMultiple
  ensure (p.maximumTransactionSize.toNat ≥ grapheneMinTransactionSizeLimit) .transactionSize
  ensure (p.maximumBlockSize.toNat ≥ grapheneMinBlockSizeLimit) .blockSize
  ensure (p.maximumTimeUntilExpiration.toNat > p.blockInterval.toNat) .timeUntilExpiration
  ensure ((p.maximumProposalLifetime - p.committeeProposalReviewPeriod).toNat > p.blockInterval.toNat) .proposalLifetime

theorem ChainParameters.blockInterval_pos {p : ChainParameters} (h : p.validate = .ok ()) : 0 < p.blockInterval.toNat := by
  simp only [validate, bind_eq_ok, ensure_eq_ok] at h
  obtain ⟨_, -, _, -, _, -, _, -, _, h, -⟩ := h
  exact h

/-! ### Workers -/

/-- `worker_type`: what a worker does with the pay -/
inductive WorkerType
  /-- `refund_worker_type`: "A worker who returns all of his pay to the reserve" -/
  | refund (totalBurned : Int)
  /-- `vesting_balance_worker_type`: "A worker who sends his pay to a vesting balance" -/
  | vestingBalance (balance : Nat)
  /-- `burn_worker_type`: "A worker who permanently destroys all of his pay" -/
  | burn (totalBurned : Int)
  deriving DecidableEq

/-- `worker_object`. `worker_create_operation::validate` checks the pay. -/
structure WorkerObject where
  id : Nat
  workBeginDate : UInt32
  workEndDate : UInt32
  dailyPay : Int
  worker : WorkerType
  totalVotesFor : UInt64
  totalVotesAgainst : UInt64
  dailyPay_pos : 0 < dailyPay := by decide
  dailyPay_lt : dailyPay < maxShareSupply := by decide

namespace WorkerObject
variable (w : WorkerObject)

def isActive (now : UInt32) : Bool := now ≥ w.workBeginDate && now ≤ w.workEndDate

def approvingStake : Int := (w.totalVotesFor.toNat : Int).bmod (2 ^ 64) - (w.totalVotesAgainst.toNat : Int).bmod (2 ^ 64)

/-- The order that `pay_workers` sorts the workers by -/
def before (a b : WorkerObject) : Bool :=
  if a.approvingStake ≠ b.approvingStake then a.approvingStake > b.approvingStake else a.id ≤ b.id

def isRefund : Bool :=
  match w.worker with
  | .refund _ => true
  | _ => false

end WorkerObject

/-! ### The state -/

/-- `budget_record` -/
structure BudgetRecord where
  timeSinceLastBudget : Nat := 0
  fromInitialReserve : Int := 0
  fromAccumulatedFees : Int := 0
  fromUnusedWitnessBudget : Int := 0
  requestedWitnessBudget : Int := 0
  totalBudget : Int := 0
  witnessBudget : Int := 0
  workerBudget : Int := 0
  leftoverWorkerFunds : Int := 0
  supplyDelta : Int := 0
  deriving DecidableEq

/-- What the budget reads and changes: of the global properties, of the core asset, the workers, and where they are paid to -/
structure Database where
  parameters : ChainParameters
  headBlockTime : UInt32
  lastBudgetTime : UInt32
  nextMaintenanceTime : UInt32
  witnessBudget : Int
  maxSupply : Int
  currentSupply : Int
  accumulatedFees : Int
  workers : List WorkerObject
  vestingBalances : Nat → VestingBalance
  nullAccountBalance : Int

/-- What is thrown -/
inductive Error
  | amount (e : Payout.Error)
  /-- "Insufficient Balance" -/
  | insufficientBalance
  deriving DecidableEq

abbrev Eval := Except Error

/-- A computation with amounts, as part of one with the budget -/
def lift {α : Type} (x : Payout.Eval α) : Eval α := x.mapError .amount

@[simp] theorem lift_eq_ok {α : Type} {x : Payout.Eval α} {a : α} : lift x = .ok a ↔ x = .ok a := by
  cases x <;> simp [lift, Except.mapError]

end Khc.Budget

/-! The budget of a maintenance interval (`initialize_budget_record`, `pay_workers` and `process_budget` of `db_maint.cpp`), and what
    else changes the amounts it depends on. -/

namespace Khc.Budget

open Lib
open Chain (toU128)
open Payout (safe toShare)

/-- `GRAPHENE_CORE_ASSET_CYCLE_RATE`: "every second, the fraction of burned core asset which cycles is
    GRAPHENE_CORE_ASSET_CYCLE_RATE / (1 << GRAPHENE_CORE_ASSET_CYCLE_RATE_BITS)" -/
def grapheneCoreAssetCycleRate : Int := 17

def grapheneCoreAssetCycleRateBits : Nat := 32

/-- `fc::days(1).count()`, in microseconds -/
def oneDay : Int := 86400000000

namespace Database
variable (d : Database)

/-! ### Workers -/

/-- The time since the last budget, in microseconds -/
def sinceLastBudget : Int := ((d.headBlockTime.toNat : Int) - d.lastBudgetTime.toNat) * 1000000

/-- The worker in place of the one with its id -/
def setWorker (w : WorkerObject) : Database := { d with workers := d.workers.map fun x => if x.id = w.id then w else x }

/-- `adjust_balance` of the null account -/
def adjustNullBalance (delta : Int) : Eval Database := do
  ensure (delta < 0 → d.nullAccountBalance ≥ -delta) .insufficientBalance
  return { d with nullAccountBalance := ← lift (safe (d.nullAccountBalance + delta)) }

/-- `pay_worker` of the three types of workers -/
def payWorker (w : WorkerObject) (pay : Int) : Eval Database :=
  match w.worker with
  | .refund totalBurned => do
    let totalBurned ← lift (safe (totalBurned + pay))
    let currentSupply ← lift (safe (d.currentSupply - pay))
    return { d.setWorker { w with worker := .refund totalBurned } with currentSupply }
  | .vestingBalance balance => do
    let deposited ← lift ((d.vestingBalances balance).deposit d.headBlockTime.toNat ⟨pay, 0⟩)
    return { d with vestingBalances := Function.update d.vestingBalances balance deposited }
  | .burn totalBurned => do
    let totalBurned ← lift (safe (totalBurned + pay))
    (d.setWorker { w with worker := .burn totalBurned }).adjustNullBalance pay

def requestedPay (w : WorkerObject) : Eval Int :=
  if d.sinceLastBudget ≠ oneDay then
    lift (toShare (toU128 (toU128 w.dailyPay * toU128 d.sinceLastBudget) / oneDay))
  else .ok w.dailyPay

/-- The loop of `pay_workers` -/
def payActiveWorkers (d : Database) (budget : Int) : List WorkerObject → Eval (Database × Int)
  | [] => .ok (d, budget)
  | w :: ws =>
    if budget > 0 then do
      let requestedPay ← d.requestedPay w
      let actualPay := min budget requestedPay
      let d ← d.payWorker w actualPay
      let budget ← lift (safe (budget - actualPay))
      payActiveWorkers d budget ws
    else .ok (d, budget)

/-- "worker with more votes is preferred; if two workers exactly tie for votes, worker with lower ID is preferred" -/
def activeWorkers : List WorkerObject :=
  (d.workers.filter fun w => w.isActive d.headBlockTime && w.approvingStake > 0).mergeSort WorkerObject.before

def payWorkers (budget : Int) : Eval (Database × Int) := d.payActiveWorkers budget d.activeWorkers

/-! ### The budget -/

def initializeBudgetRecord (now : UInt32) : Eval BudgetRecord := do
  let fromInitialReserve ← lift (safe (d.maxSupply - d.currentSupply))
  let record : BudgetRecord :=
    { fromInitialReserve, fromAccumulatedFees := d.accumulatedFees, fromUnusedWitnessBudget := d.witnessBudget }
  if d.lastBudgetTime = 0 ∨ now ≤ d.lastBudgetTime then return { record with timeSinceLastBudget := 0 }
  else
    let dt := now.toNat - d.lastBudgetTime.toNat
    let reserve ← lift (safe (fromInitialReserve + d.accumulatedFees))
    let reserve ← lift (safe (reserve + d.witnessBudget))
    let budget := toU128 (toU128 (toU128 reserve * dt) * grapheneCoreAssetCycleRate)
    -- round up
    let budget := toU128 (budget + (2 ^ grapheneCoreAssetCycleRateBits - 1)) / 2 ^ grapheneCoreAssetCycleRateBits
    let totalBudget ← (if budget < toU128 reserve then lift (toShare budget) else .ok reserve : Eval Int)
    return { record with timeSinceLastBudget := dt, totalBudget }

/-- The product with the pay of a block is one of `uint64_t`, read as an `int64_t`. -/
def processBudget : Eval (BudgetRecord × Database) := do
  let now := d.headBlockTime
  ensure (now < d.nextMaintenanceTime) (.amount .assertion)
  ensure (d.parameters.blockInterval > 0) (.amount .assertion)
  let timeToMaint := d.nextMaintenanceTime.toNat - now.toNat
  let blocksToMaint := (timeToMaint + d.parameters.blockInterval.toNat - 1) / d.parameters.blockInterval.toNat
  let record ← d.initializeBudgetRecord now
  let requestedWitnessBudget := (d.parameters.witnessPayPerBlock * blocksToMaint).bmod (2 ^ 64)
  let witnessBudget := min requestedWitnessBudget record.totalBudget
  let availableFunds ← lift (safe (record.totalBudget - witnessBudget))
  let workerBudgetU128 := toU128 (toU128 d.parameters.workerBudgetPerDay * timeToMaint) / (60 * 60 * 24)
  let workerBudget ← (if workerBudgetU128 ≥ toU128 availableFunds then .ok availableFunds else lift (toShare workerBudgetU128) : Eval Int)
  let availableFunds ← lift (safe (availableFunds - workerBudget))
  let (d, leftoverWorkerFunds) ← d.payWorkers workerBudget
  let _ ← lift (safe (availableFunds + leftoverWorkerFunds))
  let supplyDelta ← lift (safe (witnessBudget + workerBudget))
  let supplyDelta ← lift (safe (supplyDelta - leftoverWorkerFunds))
  let supplyDelta ← lift (safe (supplyDelta - record.fromAccumulatedFees))
  let supplyDelta ← lift (safe (supplyDelta - record.fromUnusedWitnessBudget))
  let currentSupply ← lift (safe (d.currentSupply + supplyDelta))
  ensure (supplyDelta = witnessBudget + workerBudget - leftoverWorkerFunds - d.accumulatedFees - d.witnessBudget) (.amount .assertion)
  return ({ record with requestedWitnessBudget, witnessBudget, workerBudget, leftoverWorkerFunds, supplyDelta },
    { d with currentSupply, accumulatedFees := 0, witnessBudget, lastBudgetTime := now })

/-! ### Between budgets -/

/-- What `update_signing_witness` takes from the budget; the vesting balance of the witness gets it. -/
def updateSigningWitness : Eval Database := do
  let witnessPay := min d.parameters.witnessPayPerBlock d.witnessBudget
  return { d with witnessBudget := ← lift (safe (d.witnessBudget - witnessPay)) }

/-- The part of the core asset that accounts, vesting balances, orders and the other objects of the chain hold -/
def held : Int := d.currentSupply - d.accumulatedFees - d.witnessBudget

end Database

end Khc.Budget
