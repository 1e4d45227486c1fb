import Khc.Lib.Run
import Khc.Budget.Amounts

/-! The budget of a maintenance interval stays within the reserve, and the supply of the core asset follows it. -/

namespace Khc.Budget

open Lib
open Chain (InInt64)
open Payout (safe_eq_ok)

namespace Database
variable {d d' : Database} {r : BudgetRecord}

/-- What happens to the amounts. `other` is all that leaves the supply, the fees and the witness budget as they are: the time and the
    schedule of the maintenance, the workers and their votes, and who holds what is in circulation. -/
inductive Action
  /-- The parameters that were agreed on are adopted. -/
  | adopt (p : ChainParameters)
  | updateSigningWitness
  /-- `process_fees`: the network's part of the fees that were paid -/
  | accumulateFees (networkCut : Int)
  /-- What is taken out of circulation: cashback of the accounts of the chain, reserved assets, fees without a receiver -/
  | takeOut (amount : Int)
  | processBudget
  | other (headBlockTime nextMaintenanceTime : UInt32) (workers : List WorkerObject) (vestingBalances : Nat → Payout.VestingBalance)
      (nullAccountBalance : Int)

def step (d : Database) : Action → Option Database
  | .adopt p => p.validate.toOption.map fun _ => { d with parameters := p }
  | .updateSigningWitness => d.updateSigningWitness.toOption
  | .accumulateFees networkCut =>
    if 0 ≤ networkCut ∧ networkCut ≤ d.held then some { d with accumulatedFees := d.accumulatedFees + networkCut } else none
  | .takeOut amount => if 0 ≤ amount ∧ amount ≤ d.held then some { d with currentSupply := d.currentSupply - amount } else none
  | .processBudget => d.processBudget.toOption.map Prod.snd
  | .other headBlockTime nextMaintenanceTime workers vestingBalances nullAccountBalance =>
    some { d with headBlockTime, nextMaintenanceTime, workers, vestingBalances, nullAccountBalance }

/-- No negative pay of the witnesses is adopted, and budgets are processed when what they ask for are amounts. -/
def Sensible (d : Database) : Action → Prop
  | .adopt p => 0 ≤ p.witnessPayPerBlock
  | .processBudget => Fits d
  | _ => True

/-- The state of the genesis -/
structure Genesis (d : Database) : Prop where
  fees : d.accumulatedFees = 0
  budget : d.witnessBudget = 0
  last : d.lastBudgetTime = 0
  supply : 0 ≤ d.currentSupply ∧ d.currentSupply ≤ d.maxSupply
  range : InInt64 d.maxSupply
  parameters : d.parameters.validate = .ok ()
  witnessPay : 0 ≤ d.parameters.witnessPayPerBlock

theorem Genesis.funded (h : Genesis d) : Funded d where
  fees := h.fees.ge
  budget := h.budget.ge
  held := by
    rw [Database.held, h.fees, h.budget, sub_zero, sub_zero]
    exact h.supply.1
  supply := h.supply.2
  range := h.range
  parameters := h.parameters
  witnessPay := h.witnessPay

theorem Budgeted.funded (hb : Budgeted d r d') (h : Funded d) (hfits : Fits d) (hnext : d.headBlockTime < d.nextMaintenanceTime) :
    Funded d' where
  fees := hb.fees.ge
  budget := hb.budget ▸ (witnessShare_bounds h hnext).1
  held := by
    have hout := paidOut_bounds h hfits hnext
    have hheld := h.held
    unfold Database.held at hheld ⊢
    rw [hb.supply, hb.fees, hb.budget]
    omega
  supply := by
    have hout := paidOut_bounds h hfits hnext
    have hworker := workerShare_bounds h hfits hnext
    have hreleased := released_bounds h.reserve_bounds.1
    rw [hb.supply, hb.maxSupply]
    unfold reserve at hreleased
    omega
  range := hb.maxSupply ▸ h.range
  parameters := hb.parameters ▸ h.parameters
  witnessPay := hb.parameters ▸ h.witnessPay

theorem step_funded {a : Action} (h : Funded d) (ha : Sensible d a) (hstep : d.step a = some d') : Funded d' := by
  cases a with
  | adopt p =>
    obtain ⟨_, hvalid, rfl⟩ := Option.map_eq_some_iff.mp hstep
    exact { h with parameters := toOption_eq_some.mp hvalid, witnessPay := ha }
  | updateSigningWitness =>
    have hok := toOption_eq_some.mp hstep
    simp only [updateSigningWitness, bind_eq_ok, lift_eq_ok, safe_eq_ok, pure_eq_ok] at hok
    obtain ⟨_, ⟨-, rfl⟩, rfl⟩ := hok
    have hpay := h.witnessPay
    have hbudget := h.budget
    have hheld := h.held
    unfold held at hheld
    refine { h with budget := ?_, held := ?_ }
    · show 0 ≤ d.witnessBudget - min _ _
      omega
    · show 0 ≤ d.currentSupply - d.accumulatedFees - (d.witnessBudget - min _ _)
      omega
  | accumulateFees networkCut =>
    simp only [step] at hstep
    split at hstep
    · rename_i hcut
      obtain rfl := Option.some.inj hstep
      have hheld := hcut.2
      unfold held at hheld
      refine { h with fees := add_nonneg h.fees hcut.1, held := ?_ }
      show 0 ≤ d.currentSupply - (d.accumulatedFees + networkCut) - d.witnessBudget
      omega
    · cases hstep
  | takeOut amount =>
    simp only [step] at hstep
    split at hstep
    · rename_i hamount
      obtain rfl := Option.some.inj hstep
      have hheld := hamount.2
      unfold held at hheld
      refine { h with supply := (sub_le_self _ hamount.1).trans h.supply, held := ?_ }
      show 0 ≤ d.currentSupply - amount - d.accumulatedFees - d.witnessBudget
      omega
    · cases hstep
  | processBudget =>
    obtain ⟨⟨r, d₁⟩, hok, rfl⟩ := Option.map_eq_some_iff.mp hstep
    have hok := toOption_eq_some.mp hok
    exact (processBudget_budgeted h ha hok).funded h ha (headBlockTime_lt hok)
  | other => exact Option.some.inj hstep ▸ { h with }

/-- What a budget comes to: the amounts as they are meant, each within its bound, and the supply that follows from them. -/
structure BudgetSafe (d : Database) (r : BudgetRecord) (d' : Database) : Prop where
  budgeted : Budgeted d r d'
  witness : 0 ≤ r.witnessBudget ∧ r.witnessBudget ≤ r.totalBudget
  total : r.totalBudget ≤ d.reserve
  worker : 0 ≤ r.workerBudget
  leftover : 0 ≤ r.leftoverWorkerFunds ∧ r.leftoverWorkerFunds ≤ r.workerBudget
  supply : d'.currentSupply = d.currentSupply + r.witnessBudget + (r.workerBudget - r.leftoverWorkerFunds) - d.refunded
    - d.accumulatedFees - d.witnessBudget
  supply_le : d'.currentSupply ≤ d'.maxSupply

/-- In every run from the genesis in which no negative pay of the witnesses is adopted and what budgets ask for are amounts, a budget
    stays within the reserve and no computation wraps; and it is processed when the workers can be paid without an overflow. -/
theorem processBudget_safe {d₀ : Database} (h₀ : Genesis d₀) (hrun : Reaches step Sensible d₀ d) (hfits : Fits d) :
    (∀ r d', d.processBudget = .ok (r, d') → BudgetSafe d r d') ∧
      (d.headBlockTime < d.nextMaintenanceTime → Room d d.workerShare d.activeWorkers → ∃ r d', d.processBudget = .ok (r, d')) := by
  have h : Funded d := hrun.invariant (fun _ _ _ h ha hstep => step_funded h ha hstep) h₀.funded
  refine ⟨fun r d' hok => ?_, fun hnext hroom => processBudget_total h hfits hnext hroom⟩
  have hnext := headBlockTime_lt hok
  have hb := processBudget_budgeted h hfits hok
  have hwitness := witnessShare_bounds h hnext
  have hworker := workerShare_bounds h hfits hnext
  have hout := paidOut_bounds h hfits hnext
  exact
    { budgeted := hb
      witness := by
        rw [hb.witness, hb.total]
        exact hwitness
      total := hb.total ▸ (released_bounds h.reserve_bounds.1).2
      worker := hb.worker ▸ hworker.1
      leftover := by
        rw [hb.leftover, hb.worker]
        omega
      supply := by
        rw [hb.supply, hb.witness, hb.worker, hb.leftover]
        omega
      supply_le := (hb.funded h hfits hnext).supply }

/-! ### Concrete cases -/

/-- A worker of whose votes nobody is against, and that returns its pay -/
def refunder : WorkerObject where
  id := 0
  workBeginDate := 0
  workEndDate := 4294967295
  dailyPay := 1000000
  worker := .refund 0
  totalVotesFor := 1
  totalVotesAgainst := 0

/-- A chain with half of its core asset in circulation, before its first budget -/
def young : Database where
  parameters := {}
  headBlockTime := 1000000000
  lastBudgetTime := 0
  nextMaintenanceTime := 1000000060
  witnessBudget := 0
  maxSupply := 1000000000000000000
  currentSupply := 500000000000000000
  accumulatedFees := 0
  workers := []
  vestingBalances _ := ⟨0, ⟨0, 0⟩, .linear ⟨0, 0, 0, 0⟩⟩
  nullAccountBalance := 0

/-- A day after the first budget, with a worker that returns its pay -/
def grown : Database :=
  { young with headBlockTime := 1000086400, lastBudgetTime := 1000000000, nextMaintenanceTime := 1000086460, workers := [refunder] }

theorem young_genesis : Genesis young := ⟨rfl, rfl, rfl, by decide, by decide, rfl, by decide⟩

theorem fits_of_due {d : Database} (hpay : d.parameters.witnessPayPerBlock * d.blocksToMaint < 2 ^ 63)
    (hworker : 0 ≤ d.parameters.workerBudgetPerDay) (hdue : ∀ w ∈ d.workers, d.due w < 2 ^ 63) : Fits d where
  witnessPay := hpay
  workerBudget := hworker
  pays w hw := hdue w (List.mem_of_mem_filter (List.mem_mergeSort.mp hw))

theorem grown_fits : Fits grown := fits_of_due (by decide) (by decide) fun w hw => by
  obtain rfl := List.mem_singleton.mp hw
  decide

theorem activeWorkers_grown : grown.activeWorkers = [refunder] := List.mergeSort_singleton refunder

theorem grown_reached : Reaches step Sensible young grown := by
  have hfits : Fits young := fits_of_due (by decide) (by decide) fun _ hw => absurd hw List.not_mem_nil
  have hpay : young.payWorkers young.workerShare = .ok (young, 0) := by
    rw [payWorkers, show young.activeWorkers = [] from List.mergeSort_nil]
    rfl
  have hbudget : young.step .processBudget = some { young with lastBudgetTime := 1000000000 } := by
    rw [step, processBudget_eq young_genesis.funded hfits (by decide), hpay]
    rfl
  exact .step (i := .other 1000086400 1000086460 [refunder] young.vestingBalances 0)
    (.step (i := .processBudget) .refl hfits hbudget) trivial rfl

theorem grown_room : Room grown grown.workerShare grown.activeWorkers := by
  rw [activeWorkers_grown]
  refine ⟨fun w hw t h => ?_, fun w hw t h => ?_, by decide, by decide, fun w hw i h => ?_⟩
  · obtain rfl := List.mem_singleton.mp hw
    obtain rfl : 0 = t := WorkerType.refund.inj h
    decide
  · obtain rfl := List.mem_singleton.mp hw
    cases h
  · obtain rfl := List.mem_singleton.mp hw
    cases h

theorem processBudget_safe_grown : ∃ r d', grown.processBudget = .ok (r, d') ∧ BudgetSafe grown r d' := by
  obtain ⟨hsafe, htotal⟩ := processBudget_safe young_genesis grown_reached grown_fits
  obtain ⟨r, d', hok⟩ := htotal (by decide) grown_room
  exact ⟨r, d', hok, hsafe r d' hok⟩

/-- The same chain with parameters that pay the witnesses less than nothing -/
def charging : Database := { grown with parameters := { witnessPayPerBlock := -1 } }

/-- The worker that returns its pay takes it out of circulation again; and with a negative pay of the witnesses, which is accepted,
    their budget is negative. -/
theorem grown_refunds : (∃ r d', grown.processBudget = .ok (r, d') ∧ d'.currentSupply ≠ grown.currentSupply + r.witnessBudget +
      (r.workerBudget - r.leftoverWorkerFunds) - r.fromAccumulatedFees - r.fromUnusedWitnessBudget) ∧
    charging.parameters.validate = .ok () ∧ ∃ r d', charging.processBudget = .ok (r, d') ∧ r.witnessBudget < 0 := by
  have hgrown : ∃ x, grown.processBudget = .ok x ∧ x.2.currentSupply ≠ grown.currentSupply + x.1.witnessBudget +
      (x.1.workerBudget - x.1.leftoverWorkerFunds) - x.1.fromAccumulatedFees - x.1.fromUnusedWitnessBudget := by
    rw [processBudget]
    simp only [payWorkers, activeWorkers_grown]
    exact ⟨_, rfl, by decide⟩
  have hcharging : ∃ x, charging.processBudget = .ok x ∧ x.1.witnessBudget < 0 := by
    rw [processBudget]
    simp only [payWorkers, show charging.activeWorkers = [refunder] from activeWorkers_grown]
    exact ⟨_, rfl, by decide⟩
  obtain ⟨x, hx, hrefunds⟩ := hgrown
  obtain ⟨y, hy, hnegative⟩ := hcharging
  exact ⟨⟨x.1, x.2, hx, hrefunds⟩, rfl, y.1, y.2, hy, hnegative⟩

end Database

end Khc.Budget
