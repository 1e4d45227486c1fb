import Khc.Budget.Payroll

/-! The amounts of a budget as they are meant, and that `process_budget` computes them when nothing wraps. -/

namespace Khc.Budget

open Lib
open Chain (InInt64 toU128 toU128_of_nonneg)
open Payout (safe toShare toShare_of_lt safe_eq_ok)

namespace Database
variable {d d' : Database} {r : BudgetRecord}

/-! ### The amounts as they are meant -/

/-- What is not in circulation, with the fees and the witness budget that are taken back -/
def reserve (d : Database) : Int := d.maxSupply - d.currentSupply + d.accumulatedFees + d.witnessBudget

/-- The seconds since the last budget; none before the first -/
def elapsed (d : Database) : Int :=
  if d.lastBudgetTime = 0 ∨ d.headBlockTime ≤ d.lastBudgetTime then 0 else d.headBlockTime.toNat - d.lastBudgetTime.toNat

/-- The part of the reserve that cycles in the elapsed time, rounded up -/
def released (d : Database) : Int := min ((d.reserve * d.elapsed * 17 + (2 ^ 32 - 1)) / 2 ^ 32) d.reserve

def timeToMaint (d : Database) : Int := d.nextMaintenanceTime.toNat - d.headBlockTime.toNat

/-- The blocks up to the next maintenance, rounded up -/
def blocksToMaint (d : Database) : Int :=
  (d.timeToMaint + d.parameters.blockInterval.toNat - 1) / d.parameters.blockInterval.toNat

def witnessShare (d : Database) : Int := min (d.parameters.witnessPayPerBlock * d.blocksToMaint) d.released

def workerShare (d : Database) : Int :=
  min (d.parameters.workerBudgetPerDay * d.timeToMaint / (60 * 60 * 24)) (d.released - d.witnessShare)

/-- Who is paid, and what -/
def pays (d : Database) : List (WorkerObject × Int) := rations d.due d.workerShare d.activeWorkers

/-- What the workers are paid -/
def paidOut (d : Database) : Int := given (fun _ => true) d.pays

/-- What the workers that return their pay are paid -/
def refunded (d : Database) : Int := given WorkerObject.isRefund d.pays

/-- The amounts of the core asset as they can be: the fees and the witness budget are in circulation. -/
structure Funded (d : Database) : Prop where
  fees : 0 ≤ d.accumulatedFees
  budget : 0 ≤ d.witnessBudget
  held : 0 ≤ d.held
  supply : d.currentSupply ≤ d.maxSupply
  range : InInt64 d.maxSupply
  parameters : d.parameters.validate = .ok ()
  witnessPay : 0 ≤ d.parameters.witnessPayPerBlock

/-- What the parameters and the workers ask for are amounts. -/
structure Fits (d : Database) : Prop where
  witnessPay : d.parameters.witnessPayPerBlock * d.blocksToMaint < 2 ^ 63
  workerBudget : 0 ≤ d.parameters.workerBudgetPerDay
  pays : ∀ w ∈ d.activeWorkers, d.due w < 2 ^ 63

theorem Funded.reserve_bounds (h : Funded d) : 0 ≤ d.reserve ∧ InInt64 d.reserve := by
  have hheld := h.held
  have hfees := h.fees
  have hbudget := h.budget
  have hsupply := h.supply
  have hrange := h.range
  unfold Database.held at hheld
  unfold reserve InInt64 at *
  omega

theorem elapsed_bounds : 0 ≤ d.elapsed ∧ d.elapsed < 2 ^ 32 := by
  have hhead := d.headBlockTime.toNat_lt
  unfold elapsed
  split
  · decide
  · rename_i h
    have hlt : d.lastBudgetTime.toNat < d.headBlockTime.toNat := UInt32.lt_iff_toNat_lt.mp (UInt32.not_le.mp fun hle => h (.inr hle))
    omega

theorem released_bounds (h : 0 ≤ d.reserve) : 0 ≤ d.released ∧ d.released ≤ d.reserve := by
  have helapsed := mul_nonneg h (elapsed_bounds (d := d)).1
  exact ⟨le_min (Int.ediv_nonneg (by omega) (by decide)) h, min_le_right _ _⟩

/-! ### The record -/

theorem toU128_of_lt {x : Int} (h : 0 ≤ x) (hlt : x < 2 ^ 128) : toU128 x = x := Int.emod_eq_of_lt h hlt

/-- The released part of the reserve is computed without a wrap. -/
theorem initializeBudgetRecord_eq (h : Funded d) : d.initializeBudgetRecord d.headBlockTime =
    .ok { timeSinceLastBudget := d.elapsed.toNat, fromInitialReserve := d.maxSupply - d.currentSupply,
          fromAccumulatedFees := d.accumulatedFees, fromUnusedWitnessBudget := d.witnessBudget, totalBudget := d.released } := by
  have hreserve := h.reserve_bounds
  have hheld := h.held
  have hfees := h.fees
  have hbudget := h.budget
  have hsupply := h.supply
  have hrange := h.range
  have helapsed := elapsed_bounds (d := d)
  have hinitial : InInt64 (d.maxSupply - d.currentSupply) := by
    unfold held at hheld
    unfold InInt64 at hrange ⊢
    omega
  have hfirst : InInt64 (d.maxSupply - d.currentSupply + d.accumulatedFees) := by
    unfold held at hheld
    unfold InInt64 at hrange ⊢
    omega
  refine bind_eq_ok.mpr ⟨_, lift_eq_ok.mpr (safe_eq_ok.mpr ⟨hinitial, rfl⟩), ?_⟩
  by_cases hskip : d.lastBudgetTime = 0 ∨ d.headBlockTime ≤ d.lastBudgetTime
  · have hzero : d.elapsed = 0 := if_pos hskip
    have hnone : d.released = 0 := by
      rw [released, hzero, mul_zero, zero_mul]
      exact min_eq_left hreserve.1
    rw [if_pos hskip, hzero, hnone]
    rfl
  · rw [if_neg hskip]
    have hdt : ((d.headBlockTime.toNat - d.lastBudgetTime.toNat : Nat) : Int) = d.elapsed := by
      have hlt : d.lastBudgetTime.toNat < d.headBlockTime.toNat :=
        UInt32.lt_iff_toNat_lt.mp (UInt32.not_le.mp fun hle => hskip (.inr hle))
      rw [elapsed, if_neg hskip]
      omega
    have htime : d.headBlockTime.toNat - d.lastBudgetTime.toNat = d.elapsed.toNat := by omega
    have hsize : d.reserve < 2 ^ 63 := by
      have := hreserve.2.2
      omega
    have hproduct : d.reserve * d.elapsed ≤ 2 ^ 63 * 2 ^ 32 := mul_le_mul hsize.le helapsed.2.le helapsed.1 (by decide)
    have hnonneg : 0 ≤ d.reserve * d.elapsed := mul_nonneg hreserve.1 helapsed.1
    have hreserve128 : toU128 d.reserve = d.reserve := toU128_of_lt hreserve.1 (hsize.trans (by decide))
    have hproduct128 : toU128 (d.reserve * d.elapsed) = d.reserve * d.elapsed := toU128_of_lt hnonneg (by omega)
    have hcycle128 : toU128 (d.reserve * d.elapsed * 17) = d.reserve * d.elapsed * 17 := toU128_of_lt (by omega) (by omega)
    have hround128 : toU128 (d.reserve * d.elapsed * 17 + (2 ^ 32 - 1)) = d.reserve * d.elapsed * 17 + (2 ^ 32 - 1) :=
      toU128_of_lt (by omega) (by omega)
    refine bind_eq_ok.mpr ⟨_, lift_eq_ok.mpr (safe_eq_ok.mpr ⟨hfirst, rfl⟩), bind_eq_ok.mpr
      ⟨d.reserve, lift_eq_ok.mpr (safe_eq_ok.mpr ⟨hreserve.2, rfl⟩), ?_⟩⟩
    simp only [grapheneCoreAssetCycleRate, grapheneCoreAssetCycleRateBits, hdt, hreserve128, hproduct128, hcycle128, hround128]
    split
    · rename_i hlt
      rw [toShare_of_lt (hlt.trans hsize)]
      rw [released, min_eq_left hlt.le, htime]
      rfl
    · rename_i hle
      rw [released, min_eq_right (not_lt.mp hle), htime]
      rfl

/-! ### The budget -/

theorem bmod_of_lt {x : Int} (h : 0 ≤ x) (hlt : x < 2 ^ 63) : x.bmod (2 ^ 64) = x := by
  rw [Int.bmod_eq_of_le] <;> omega

theorem blocksToMaint_nonneg (h : d.headBlockTime < d.nextMaintenanceTime) : 0 ≤ d.blocksToMaint := by
  have hlt : d.headBlockTime.toNat < d.nextMaintenanceTime.toNat := UInt32.lt_iff_toNat_lt.mp h
  unfold blocksToMaint timeToMaint
  exact Int.ediv_nonneg (by omega) (Int.natCast_nonneg _)

/-- What `process_budget` gives to whom, when no computation wraps -/
structure Budgeted (d : Database) (r : BudgetRecord) (d' : Database) : Prop where
  requested : r.requestedWitnessBudget = d.parameters.witnessPayPerBlock * d.blocksToMaint
  total : r.totalBudget = d.released
  witness : r.witnessBudget = d.witnessShare
  worker : r.workerBudget = d.workerShare
  leftover : r.leftoverWorkerFunds = d.workerShare - d.paidOut
  supply : d'.currentSupply = d.currentSupply + d.witnessShare + d.paidOut - d.refunded - d.accumulatedFees - d.witnessBudget
  fees : d'.accumulatedFees = 0
  budget : d'.witnessBudget = d.witnessShare
  maxSupply : d'.maxSupply = d.maxSupply
  parameters : d'.parameters = d.parameters

theorem witnessShare_bounds (h : Funded d) (hnext : d.headBlockTime < d.nextMaintenanceTime) :
    0 ≤ d.witnessShare ∧ d.witnessShare ≤ d.released :=
  ⟨le_min (mul_nonneg h.witnessPay (blocksToMaint_nonneg hnext)) (released_bounds h.reserve_bounds.1).1, min_le_right _ _⟩

theorem workerShare_bounds (h : Funded d) (hfits : Fits d) (hnext : d.headBlockTime < d.nextMaintenanceTime) :
    0 ≤ d.workerShare ∧ d.workerShare ≤ d.released - d.witnessShare := by
  have hlt : d.headBlockTime.toNat < d.nextMaintenanceTime.toNat := UInt32.lt_iff_toNat_lt.mp hnext
  have htime : 0 ≤ d.timeToMaint := by
    unfold timeToMaint
    omega
  have hask : 0 ≤ d.parameters.workerBudgetPerDay * d.timeToMaint / (60 * 60 * 24) :=
    Int.ediv_nonneg (mul_nonneg hfits.workerBudget htime) (by decide)
  exact ⟨le_min hask (sub_nonneg.mpr (witnessShare_bounds h hnext).2), min_le_right _ _⟩

/-- Up to the pay of the workers, the budget is computed without a wrap and without an overflow. -/
theorem processBudget_eq (h : Funded d) (hfits : Fits d) (hnext : d.headBlockTime < d.nextMaintenanceTime) : d.processBudget =
    (d.payWorkers d.workerShare >>= fun (d', leftover) => do
      let _ ← lift (safe (d.released - d.witnessShare - d.workerShare + leftover))
      let supplyDelta ← lift (safe (d.witnessShare + d.workerShare))
      let supplyDelta ← lift (safe (supplyDelta - leftover))
      let supplyDelta ← lift (safe (supplyDelta - d.accumulatedFees))
      let supplyDelta ← lift (safe (supplyDelta - d.witnessBudget))
      let currentSupply ← lift (safe (d'.currentSupply + supplyDelta))
      ensure (supplyDelta = d.witnessShare + d.workerShare - leftover - d'.accumulatedFees - d'.witnessBudget) (.amount .assertion)
      return ({ timeSinceLastBudget := d.elapsed.toNat, fromInitialReserve := d.maxSupply - d.currentSupply,
                fromAccumulatedFees := d.accumulatedFees, fromUnusedWitnessBudget := d.witnessBudget,
                requestedWitnessBudget := d.parameters.witnessPayPerBlock * d.blocksToMaint, totalBudget := d.released,
                witnessBudget := d.witnessShare, workerBudget := d.workerShare, leftoverWorkerFunds := leftover, supplyDelta },
        { d' with currentSupply, accumulatedFees := 0, witnessBudget := d.witnessShare, lastBudgetTime := d.headBlockTime })) := by
  have hlt : d.headBlockTime.toNat < d.nextMaintenanceTime.toNat := UInt32.lt_iff_toNat_lt.mp hnext
  have hinterval := ChainParameters.blockInterval_pos h.parameters
  have hreserve := h.reserve_bounds
  have hreleased := released_bounds hreserve.1
  have hwitness := witnessShare_bounds h hnext
  have hworker := workerShare_bounds h hfits hnext
  have hsize : d.reserve < 2 ^ 63 := by
    have := hreserve.2.2
    omega
  have htime : ((d.nextMaintenanceTime.toNat - d.headBlockTime.toNat : Nat) : Int) = d.timeToMaint := by
    unfold timeToMaint
    omega
  have hblocks : (((d.nextMaintenanceTime.toNat - d.headBlockTime.toNat + d.parameters.blockInterval.toNat - 1) /
      d.parameters.blockInterval.toNat : Nat) : Int) = d.blocksToMaint := by
    rw [blocksToMaint, ← htime, Int.natCast_ediv]
    congr 1
    omega
  have hrequested : (d.parameters.witnessPayPerBlock * d.blocksToMaint).bmod (2 ^ 64) = d.parameters.witnessPayPerBlock * d.blocksToMaint :=
    bmod_of_lt (mul_nonneg h.witnessPay (blocksToMaint_nonneg hnext)) hfits.witnessPay
  have havailable : InInt64 (d.released - d.witnessShare) ∧ InInt64 (d.released - d.witnessShare - d.workerShare) := by
    unfold InInt64
    omega
  have htime₀ : 0 ≤ d.timeToMaint ∧ d.timeToMaint < 2 ^ 32 := by
    have := d.nextMaintenanceTime.toNat_lt
    unfold timeToMaint
    omega
  have hday := d.parameters.workerBudget_range.2
  have hproduct : d.parameters.workerBudgetPerDay * d.timeToMaint ≤ 2 ^ 63 * 2 ^ 32 :=
    mul_le_mul (by omega) htime₀.2.le htime₀.1 (by decide)
  have hday128 : toU128 d.parameters.workerBudgetPerDay = d.parameters.workerBudgetPerDay := toU128_of_lt hfits.workerBudget (by omega)
  have hproduct128 : toU128 (d.parameters.workerBudgetPerDay * d.timeToMaint) = d.parameters.workerBudgetPerDay * d.timeToMaint :=
    toU128_of_lt (mul_nonneg hfits.workerBudget htime₀.1) (by omega)
  have havailable128 : toU128 (d.released - d.witnessShare) = d.released - d.witnessShare := toU128_of_lt (by omega) (by omega)
  have hshare : (if d.parameters.workerBudgetPerDay * d.timeToMaint / (60 * 60 * 24) ≥ d.released - d.witnessShare then
      (.ok (d.released - d.witnessShare) : Eval Int)
      else lift (toShare (d.parameters.workerBudgetPerDay * d.timeToMaint / (60 * 60 * 24)))) = .ok d.workerShare := by
    split
    · rename_i hge
      rw [workerShare, min_eq_right hge]
    · rename_i hlt
      rw [workerShare, min_eq_left (not_le.mp hlt).le]
      exact lift_eq_ok.mpr (toShare_of_lt (by omega))
  have hpositive : d.parameters.blockInterval > 0 := UInt8.lt_iff_toNat_lt.mpr hinterval
  rw [processBudget, (ensure_eq_ok (u := ())).mpr hnext, ok_bind, (ensure_eq_ok (u := ())).mpr hpositive, ok_bind,
    initializeBudgetRecord_eq h, ok_bind]
  simp only [htime, hblocks, hrequested, hday128, hproduct128]
  rw [show min (d.parameters.witnessPayPerBlock * d.blocksToMaint) d.released = d.witnessShare from rfl, lift_eq_ok.mpr
    (safe_eq_ok.mpr ⟨havailable.1, rfl⟩), ok_bind, havailable128, hshare, ok_bind, lift_eq_ok.mpr (safe_eq_ok.mpr ⟨havailable.2, rfl⟩), ok_bind]

theorem workerShare_eq_zero (h : Funded d) (hfits : Fits d) (hnext : d.headBlockTime < d.nextMaintenanceTime)
    (hsince : d.sinceLastBudget < 0) : d.workerShare = 0 := by
  have hle : d.headBlockTime ≤ d.lastBudgetTime := by
    rw [UInt32.le_iff_toNat_le]
    unfold sinceLastBudget at hsince
    omega
  have hzero : d.elapsed = 0 := if_pos (.inr hle)
  have hnone : d.released = 0 := by
    rw [released, hzero, mul_zero, zero_mul]
    exact min_eq_left h.reserve_bounds.1
  have hwitness := witnessShare_bounds h hnext
  have hworker := workerShare_bounds h hfits hnext
  omega

/-- The workers are paid out of their share. -/
theorem payWorkers_paid {left : Int} (h : Funded d) (hfits : Fits d) (hnext : d.headBlockTime < d.nextMaintenanceTime)
    (hpay : d.payWorkers d.workerShare = .ok (d', left)) : Paid d d.pays d' ∧ left = d.workerShare - d.paidOut := by
  have hworker := workerShare_bounds h hfits hnext
  have hreleased := released_bounds h.reserve_bounds.1
  have hwitness := witnessShare_bounds h hnext
  have hrange := h.reserve_bounds.2
  by_cases hsince : 0 ≤ d.sinceLastBudget
  · refine payActiveWorkers_paid hsince hfits.pays hworker.1 ?_ hpay
    unfold InInt64 at hrange ⊢
    omega
  · have hzero := workerShare_eq_zero h hfits hnext (not_le.mp hsince)
    have hnot : ¬0 < d.workerShare := not_lt.mpr hzero.le
    rw [payWorkers, payActiveWorkers_of_not_pos hnot] at hpay
    obtain ⟨rfl, rfl⟩ := Prod.mk.inj (Except.ok.inj hpay)
    rw [paidOut, pays, rations_of_not_pos hnot]
    exact ⟨.refl d, (sub_zero _).symm⟩

theorem payWorkers_total (h : Funded d) (hfits : Fits d) (hnext : d.headBlockTime < d.nextMaintenanceTime)
    (hroom : Room d d.workerShare d.activeWorkers) : ∃ r, d.payWorkers d.workerShare = .ok r := by
  have hworker := workerShare_bounds h hfits hnext
  have hreleased := released_bounds h.reserve_bounds.1
  have hwitness := witnessShare_bounds h hnext
  have hrange := h.reserve_bounds.2
  by_cases hsince : 0 ≤ d.sinceLastBudget
  · refine payActiveWorkers_total hsince hfits.pays ?_ hroom
    unfold InInt64 at hrange ⊢
    omega
  · have hzero := workerShare_eq_zero h hfits hnext (not_le.mp hsince)
    exact ⟨_, payActiveWorkers_of_not_pos (not_lt.mpr hzero.le)⟩

/-- The workers are paid no more than their share, and no less than nothing is refunded. -/
theorem paidOut_bounds (h : Funded d) (hfits : Fits d) (hnext : d.headBlockTime < d.nextMaintenanceTime) :
    0 ≤ d.paidOut ∧ d.paidOut ≤ d.workerShare ∧ 0 ≤ d.refunded ∧ d.refunded ≤ d.paidOut := by
  have hworker := workerShare_bounds h hfits hnext
  by_cases hsince : 0 ≤ d.sinceLastBudget
  · have hdue : ∀ w ∈ d.activeWorkers, 0 ≤ d.due w := fun w _ => due_nonneg hsince
    have hnonneg : ∀ e ∈ d.pays, 0 ≤ e.2 := fun e he => (rations_bounds hdue e he).2.1
    have hrefunded : 0 ≤ d.refunded ∧ d.refunded ≤ d.paidOut := given_le hnonneg
    have hpaid : d.paidOut = min d.workerShare (d.activeWorkers.map d.due).sum := given_rations hdue hworker.1
    have hle : d.paidOut ≤ d.workerShare := hpaid ▸ min_le_left _ _
    exact ⟨hrefunded.1.trans hrefunded.2, hle, hrefunded⟩
  · have hzero := workerShare_eq_zero h hfits hnext (not_le.mp hsince)
    have hnone : d.pays = [] := rations_of_not_pos (not_lt.mpr hzero.le)
    rw [paidOut, refunded, hnone, hzero]
    simp

theorem headBlockTime_lt {x : BudgetRecord × Database} (hok : d.processBudget = .ok x) : d.headBlockTime < d.nextMaintenanceTime := by
  obtain ⟨_, h, -⟩ := bind_eq_ok.mp hok
  exact ensure_eq_ok.mp h

theorem processBudget_budgeted (h : Funded d) (hfits : Fits d) (hok : d.processBudget = .ok (r, d')) : Budgeted d r d' := by
  have hnext := headBlockTime_lt hok
  rw [processBudget_eq h hfits hnext, bind_eq_ok] at hok
  obtain ⟨⟨d₁, left⟩, hpay, hok⟩ := hok
  obtain ⟨hpaid, rfl⟩ := payWorkers_paid h hfits hnext hpay
  simp only [bind_eq_ok, lift_eq_ok, safe_eq_ok] at hok
  obtain ⟨_, -, _, ⟨-, rfl⟩, _, ⟨-, rfl⟩, _, ⟨-, rfl⟩, _, ⟨-, rfl⟩, _, ⟨-, rfl⟩, _, -, hok⟩ := hok
  obtain ⟨rfl, rfl⟩ := Prod.mk.inj (Except.ok.inj hok)
  refine ⟨rfl, rfl, rfl, rfl, rfl, ?_, rfl, rfl, hpaid.maxSupply, hpaid.parameters⟩
  show d₁.currentSupply + _ = _
  rw [hpaid.currentSupply, refunded]
  omega

/-- With room for the pays, the budget is processed. -/
theorem processBudget_total (h : Funded d) (hfits : Fits d) (hnext : d.headBlockTime < d.nextMaintenanceTime)
    (hroom : Room d d.workerShare d.activeWorkers) : ∃ r d', d.processBudget = .ok (r, d') := by
  obtain ⟨⟨d₁, left⟩, hpay⟩ := payWorkers_total h hfits hnext hroom
  obtain ⟨hpaid, rfl⟩ := payWorkers_paid h hfits hnext hpay
  have hreserve := h.reserve_bounds
  have hreleased := released_bounds hreserve.1
  have hwitness := witnessShare_bounds h hnext
  have hworker := workerShare_bounds h hfits hnext
  have hout := paidOut_bounds h hfits hnext
  have hheld := h.held
  have hfees := h.fees
  have hbudget := h.budget
  have hsupply := h.supply
  have hrange := h.range
  have hpaidSupply : d₁.currentSupply = d.currentSupply - d.refunded := hpaid.currentSupply
  unfold held at hheld
  unfold reserve InInt64 at *
  have hok : ∃ x, d.processBudget = .ok x := by
    rw [processBudget_eq h hfits hnext]
    simp only [bind_eq_ok, lift_eq_ok, safe_eq_ok, ensure_eq_ok]
    refine ⟨_, _, hpay, _, ⟨?_, rfl⟩, _, ⟨?_, rfl⟩, _, ⟨?_, rfl⟩, _, ⟨?_, rfl⟩, _, ⟨?_, rfl⟩, _, ⟨?_, rfl⟩, (), ?_, rfl⟩
    · unfold InInt64
      omega
    · unfold InInt64
      omega
    · unfold InInt64
      omega
    · unfold InInt64
      omega
    · unfold InInt64
      omega
    · rw [hpaidSupply]
      unfold InInt64
      omega
    · rw [hpaid.accumulatedFees, hpaid.witnessBudget]
  obtain ⟨⟨r, d'⟩, hok⟩ := hok
  exact ⟨r, d', hok⟩

end Database

end Khc.Budget
