import Khc.Project.Failed
import Khc.Project.History

/-! The escrow of the projects: no operation on investments makes or loses KHD, and a project that fails gives every
    investment back, unless its issuer was paid before. -/

namespace Khc.Chain

open Lib Database

/-! ### Conservation -/

/-- The step is one of the five operations on investments, or ends a block. -/
def Step.isFinancing : Step → Bool
  | .operation _ (.assetInvestment _) => true
  | .operation _ (.issueAssetToInvestors _) => true
  | .operation _ (.refundInvestment _) => true
  | .operation _ (.claimBitassetInvestment _) => true
  | .operation _ (.claimAssetInvestment _) => true
  | .operation _ _ => false
  | .endBlock _ _ => true

/-- From one state to another KHD has only moved between accounts, their fees in KHD, and escrow. -/
structure KhdConserved (d d' : Database) (khd : AssetId) : Prop where
  total : d'.accountBalances khd + d'.accumulatedFees khd + d'.escrow =
    d.accountBalances khd + d.accumulatedFees khd + d.escrow
  escrow : ∀ a ∈ d'.assets, a.isProjectAsset = true → 0 ≤ a.dynamicData.financingCurrentSupply
  balances : ∀ x, 0 ≤ d'.balances x khd

section
variable {d d₀ : Database} {khd : AssetId} {before steps : List Step}

theorem total_financing (h : WellFormed d) (hkhd : d.findSymbol khdAssetSymbol = some khd)
    (hfin : ∀ s ∈ steps, s.isFinancing = true) : (d.run steps).total khd = d.total khd := by
  induction steps generalizing d with
  | nil => rfl
  | cons s steps ih =>
    have hs := hfin s List.mem_cons_self
    have hstep : (d.step s).total khd = d.total khd := by
      refine total_step h hkhd ?_ ?_
      · rintro now o rfl
        cases hs
      · rintro now o rfl
        cases hs
    rw [Database.run, run_cons, ← hstep]
    exact ih (h.step s) (findSymbol_run h hkhd [s]) fun t ht => hfin t (List.mem_cons_of_mem _ ht)

/-- The operations on investments and the maintenance conserve KHD. -/
theorem khd_conserved (h₀ : Start d₀) (hkhd : (d₀.run before).findSymbol khdAssetSymbol = some khd)
    (hfin : ∀ s ∈ steps, s.isFinancing = true) : KhdConserved (d₀.run before) ((d₀.run before).run steps) khd where
  total := total_financing (h₀.wellFormed.run before) hkhd hfin
  escrow a ha hproj := by
    rw [← escrow_of_project hproj]
    rw [Database.run, ← run_append] at ha
    exact h₀.escrow_nonneg ha
  balances x := ((h₀.wellFormed.run before).run steps).balances x khd

end

section
open Sample

/-- An investment that pays a fee in KHD. -/
def investWithFee (fee : Int) : Step := .operation 0 (.assetInvestment ⟨⟨fee, 1⟩, 2, 2, ⟨50, 1⟩⟩)

/-- A fee in KHD leaves the balances for the accumulated fees. -/
theorem khd_inFees : Start genesis ∧ (genesis.run [create offering, maintain]).findSymbol khdAssetSymbol = some 1 ∧
    (investWithFee 5).isFinancing = true ∧
    (genesis.run [create offering, maintain, investWithFee 5]).accountBalances 1 +
        (genesis.run [create offering, maintain, investWithFee 5]).escrow <
      (genesis.run [create offering, maintain]).accountBalances 1 + (genesis.run [create offering, maintain]).escrow :=
  ⟨genesis_start, by decide, rfl, by decide⟩

theorem khd_conserved_invested : KhdConserved (genesis.run [create offering, maintain])
    ((genesis.run [create offering, maintain]).run [investWithFee 5, maintain, invest 3 100, refund 2]) 1 :=
  khd_conserved genesis_start (by decide) (by decide)

end

/-! ### Refunds -/

/-- The maintenance fails a project that has paid out of its escrow. -/
def Database.failsClaimed (d : Database) (p : AssetId) : Step → Bool
  | .endBlock _ (some _) => (d.project p).any fun P =>
    P.state ≠ .projectEnd && P.state ≠ .financingFailue && P.options.endFinancingBlockNum < P.head + 1 &&
      P.raised < P.options.minFinancingAmount && P.current < P.raised
  | _ => false

namespace Project
variable {P : Project} {e : Event}

/-- A project that has failed has what it owes. -/
structure Whole (P : Project) : Prop extends P.Sound where
  unmarked : P.state ≠ .financingFailue → P.unrefunded = P.raised
  owes : P.state = .financingFailue → P.current = P.unrefunded

theorem Whole.of_initial (h : P.Initial) : P.Whole := by
  have hsound := Sound.of_initial h
  have hintact := hsound.intact h.claimTimes
  refine ⟨hsound, fun _ => ?_, fun _ => hintact⟩
  rw [← hintact, h.current, h.raised]

theorem Whole.block (h : P.Whole) {maintained : Bool}
    (hin : maintained = true → P.state ≠ .projectEnd → P.state ≠ .financingFailue →
      P.options.endFinancingBlockNum < P.head + 1 → P.raised < P.options.minFinancingAmount → P.raised ≤ P.current) :
    (P.apply (.block maintained)).Whole := by
  have hsound := h.toSound.block maintained
  cases maintained with
  | false => exact ⟨hsound, h.unmarked, h.owes⟩
  | true =>
    have hnext : (P.apply (.block true)).state = P.advance.nextState := rfl
    by_cases hover : P.state = .projectEnd ∨ P.state = .financingFailue
    · have hsame : P.advance.nextState = P.state := if_pos hover
      exact ⟨hsound, fun hstate => h.unmarked (hsame ▸ hnext ▸ hstate), fun hstate => h.owes (hsame ▸ hnext ▸ hstate)⟩
    · have hunmarked : P.unrefunded = P.raised := h.unmarked fun hs => hover (.inr hs)
      refine ⟨hsound, fun _ => hunmarked, fun hfail => ?_⟩
      have hpub : P.PublicOffering := publicOffering_apply.mp (hsound.offering hfail)
      have hle := h.le
      replace hfail : P.advance.nextState = .financingFailue := hfail
      have hmaint := nextState_maintained (P := P.advance) hpub
      generalize P.advance.nextState = σ at hmaint hfail
      cases hmaint with
      | past h => exact absurd h hover
      | failed hend hraised =>
        have hleft := hin rfl (fun hs => hover (.inl hs)) (fun hs => hover (.inr hs)) hend hraised
        exact (le_antisymm hle hleft).trans hunmarked.symm
      | _ => cases hfail

theorem Whole.apply (h : P.Whole) (he : P.Enabled e)
    (hin : e = .block true → P.state ≠ .projectEnd → P.state ≠ .financingFailue →
      P.options.endFinancingBlockNum < P.head + 1 → P.raised < P.options.minFinancingAmount → P.raised ≤ P.current) :
    (P.apply e).Whole := by
  have hsound := h.toSound.apply he
  cases e with
  | invest r asked now =>
    have hnot := h.not_failed he.1
    have hrecord : r.unrefundedAmount = r.investmentKhdAmount.amount := by
      simp [AssetInvestment.unrefundedAmount, he.2.2.2.1]
    refine ⟨hsound, fun _ => ?_, fun hfail => absurd (investedState_failue hfail) hnot⟩
    simp only [Project.apply, unrefunded, List.map_append, List.sum_append, List.map_cons, List.map_nil, List.sum_cons,
      List.sum_nil, hrecord, add_zero]
    rw [← h.unmarked hnot, unrefunded]
  | issue total amounts =>
    refine ⟨hsound, fun hstate => ?_, fun hfail => ?_⟩
    · rw [unrefunded_issue he.2.2.2.2.1]
      exact h.unmarked hstate
    · rw [unrefunded_issue he.2.2.2.2.1]
      exact h.owes hfail
  | receive x =>
    refine ⟨hsound, fun hstate => ?_, fun hfail => ?_⟩
    · rw [unrefunded_receive]
      exact h.unmarked hstate
    · rw [unrefunded_receive]
      exact h.owes hfail
  | refund x =>
    refine ⟨hsound, fun hstate => absurd he.2.1 hstate, fun hfail => ?_⟩
    rw [unrefunded_refund, ← h.owes hfail]
    rfl
  | claim amount =>
    have hrun := he.2.1
    refine ⟨hsound, h.unmarked, fun hfail => ?_⟩
    simp [Running, show P.state = .financingFailue from hfail] at hrun
  | block maintained => exact h.block fun hm => hin (by rw [hm])
  | _ => exact ⟨hsound, h.unmarked, h.owes⟩

end Project

/-- The account can pay the fee of the refund when it has its money back. -/
structure PaysFee (d : Database) (o : RefundInvestmentOperation) (khd : AssetId) : Prop where
  converted : ∃ core d₁, d.prepareFee o.accountId o.fee = .ok core ∧
    d.parameters.currentFees (.refundInvestment o) ≤ core ∧ d.convertFee o.fee core = .ok d₁
  paid : ∃ d₂, (d.credit o.accountId
    ⟨RefundInvestment.amountOf (RefundInvestment.refundables d o.accountId o.investmentAssetId), khd⟩).adjustBalance
      o.accountId o.fee.neg = .ok d₂

/-- The account has got back what it had in the project, and paid the fee; its investments are marked. -/
structure PaidBack (d d' : Database) (o : RefundInvestmentOperation) (khd : AssetId) : Prop where
  credited : ∀ y q, d'.balances y q = d.balances y q +
    (if y = o.accountId ∧ q = khd then
      RefundInvestment.amountOf (RefundInvestment.refundables d o.accountId o.investmentAssetId) else 0) -
    (if y = o.accountId ∧ q = o.fee.assetId then o.fee.amount else 0)
  marked : d'.investments = d.investments.map fun r =>
    if r.investmentAssetId = o.investmentAssetId ∧ r.investmentAccountId = o.accountId ∧ r.returnFinancingFlag = false
    then { r with returnFinancingFlag := true } else r
  escrow : ∀ a ∈ d.assets[o.investmentAssetId]?, ∀ a' ∈ d'.assets[o.investmentAssetId]?,
    a'.dynamicData.financingCurrentSupply = a.dynamicData.financingCurrentSupply -
      RefundInvestment.amountOf (RefundInvestment.refundables d o.accountId o.investmentAssetId)

/-- Everybody who has invested in a project gets it back once, and all of them the whole escrow. -/
structure RefundsAll (d : Database) (p : AssetId) : Prop where
  khd : ∃ khd, d.findSymbol khdAssetSymbol = some khd
  granted : ∀ now o khd, o.investmentAssetId = p → d.findSymbol khdAssetSymbol = some khd →
    RefundInvestment.refundables d o.accountId p ≠ [] → PaysFee d o khd →
    ∃ d', d.applyOperation now (.refundInvestment o) = .ok d' ∧ PaidBack d d' o khd
  repeated : ∀ now o after now' o', o.investmentAssetId = p → o'.investmentAssetId = p → o'.accountId = o.accountId →
    d.accepts now (.refundInvestment o) = true →
    ((d.step (.operation now (.refundInvestment o))).run after).step (.operation now' (.refundInvestment o')) =
        (d.step (.operation now (.refundInvestment o))).run after ∧
      ((d.step (.operation now (.refundInvestment o))).run after).accepts now' (.refundInvestment o') = false
  emptied : ∀ after, (∀ x, RefundInvestment.refundables d x p ≠ [] → ∃ d' now o, o.investmentAssetId = p ∧
      o.accountId = x ∧ At Database.step d after d' (.operation now (.refundInvestment o)) ∧
      d'.accepts now (.refundInvestment o) = true) →
    ∀ a ∈ (d.run after).assets[p]?, a.dynamicData.financingCurrentSupply = 0

section
variable {d d' d₀ : Database} {p khd : AssetId} {P : Project} {a : AssetObject} {x : AccountId} {now : Nat}
  {o : RefundInvestmentOperation} {steps : List Step}

theorem Start.whole (h₀ : Start d₀) (hC : Along Database.step (fun d s => d.failsClaimed p s = false) d₀ steps)
    (hP : (d₀.run steps).project p = some P) : P.Whole := by
  refine run_project (C := fun d s => d.failsClaimed p s = false) (fun P h => .of_initial h)
    (fun d s P _ hP hC hen h => h.apply hen fun he hend hfail hlast hraised => ?_) h₀ hC hP
  obtain ⟨t, ps, rfl⟩ := event_maintenance he
  rw [← Bool.not_eq_true] at hC
  simp only [failsClaimed, hP, Option.any_some, Bool.and_eq_true, decide_eq_true_eq] at hC
  exact not_lt.mp fun hlt => hC ⟨⟨⟨⟨hend, hfail⟩, hlast⟩, hraised⟩, hlt⟩

/-- The refund of an account that can pay its fee is accepted if the escrow covers it. -/
theorem applyOperation_refund (h : WellFormed d) (hkhd : d.findSymbol khdAssetSymbol = some khd)
    (hadm : RefundInvestment.Admitted d o a) (hmax : a.dynamicData.financingCurrentSupply ≤ maxInt64)
    (hroom : d.balances o.accountId khd + a.dynamicData.financingCurrentSupply ≤ maxInt64) (hpays : PaysFee d o khd) :
    ∃ core, d.applyOperation now (.refundInvestment o) =
      .ok ((RefundInvestment.refunded (d.charge o.fee core) o khd
        (RefundInvestment.refundables d o.accountId o.investmentAssetId)).credit o.accountId o.fee.neg) := by
  obtain ⟨⟨core, d₁, hprep, hcore, hconv⟩, d₃, hpaid⟩ := hpays
  refine ⟨core, ?_⟩
  have heval := RefundInvestment.doEvaluate_ok hadm (fun r hr => (h.amount_pos hr).le) hmax
  obtain rfl := convertFee_inv hconv
  have hmine : ∀ r ∈ RefundInvestment.refundables d o.accountId o.investmentAssetId,
      r.investmentKhdAmount.assetId = khd := fun r hr =>
    Option.some.inj ((h.khd_of_mem (WellFormed.mem_of_refundables hr)).symm.trans hkhd)
  obtain ⟨fees, pool, ha⟩ := charge_getElem? o.fee core hadm.asset
  obtain ⟨d₂, hap⟩ := RefundInvestment.doApply_ok ha hmine
    (fun r hr => (h.amount_pos (WellFormed.mem_of_refundables hr)).le) hadm.covered hmax
    (by rw [charge_balances]; exact h.balances _ _)
    (by
      rw [charge_balances]
      have hcov := hadm.covered
      omega)
  obtain rfl := RefundInvestment.doApply_inv hmine hap
  have hfee : d.applyOperation now (.refundInvestment o) =
      (RefundInvestment.refunded (d.charge o.fee core) o khd
        (RefundInvestment.refundables d o.accountId o.investmentAssetId)).adjustBalance o.accountId o.fee.neg := by
    have hvalid : o.fee.amount ≥ 0 := (prepareFee_inv hprep).2.2
    have hcore' : core ≥ d.parameters.currentFees (.refundInvestment o) := hcore
    simp only [Database.applyOperation, Operation.validate, fcAssert, if_pos hvalid, Database.startEvaluate,
      Operation.feePayer, Operation.fee, hprep, if_pos hcore', heval, hconv, hap, bind, Except.bind]
  rw [hfee, adjustBalance_eq_ok]
  obtain ⟨hcovered, hint, -⟩ := adjustBalance_eq_ok.mp hpaid
  have hsame : ∀ q, (RefundInvestment.refunded (d.charge o.fee core) o khd
      (RefundInvestment.refundables d o.accountId o.investmentAssetId)).balances o.accountId q =
      (d.credit o.accountId ⟨RefundInvestment.amountOf (RefundInvestment.refundables d o.accountId
        o.investmentAssetId), khd⟩).balances o.accountId q := fun q => by
    simp only [RefundInvestment.refunded, RefundInvestment.markRefunded, credit_balances, modifyAsset_balances,
      charge_balances]
  rw [hsame]
  exact ⟨hcovered, hint, rfl⟩

theorem paidBack_refunded (h : WellFormed d) (hasset : d.assets[o.investmentAssetId]? = some a) (core : Int) :
    PaidBack d ((RefundInvestment.refunded (d.charge o.fee core) o khd
      (RefundInvestment.refundables d o.accountId o.investmentAssetId)).credit o.accountId o.fee.neg) o khd where
  credited y q := by
    simp only [RefundInvestment.refunded, RefundInvestment.markRefunded, credit_balances, modifyAsset_balances,
      charge_balances, Asset.neg]
    split_ifs <;> omega
  marked := by
    simp only [RefundInvestment.refunded, RefundInvestment.markRefunded, credit_investments, modifyAsset_investments,
      charge_investments]
    rw [refundables_eq, map_mark_keys h.ids_nodup]
    refine List.map_congr_left fun r _ => ?_
    by_cases h₁ : r.investmentAssetId = o.investmentAssetId <;> by_cases h₂ : r.investmentAccountId = o.accountId <;>
      simp [RefundInvestment.refundable, h₁, h₂]
  escrow b hb b' hb' := by
    obtain rfl := Option.some.inj (hasset.symm.trans hb)
    obtain ⟨fees, pool, ha⟩ := charge_getElem? o.fee core hasset
    simp only [RefundInvestment.refunded, RefundInvestment.markRefunded, credit_assets, modifyAsset_self, ha,
      Option.map_some, Option.mem_def, Option.some.injEq] at hb'
    rw [← hb']
    rfl

/-- Unless a project fails after a payment to its issuer, its failure gives all investments back. -/
theorem refunds_all (h₀ : Start d₀) (hC : Along Database.step (fun d s => d.failsClaimed p s = false) d₀ steps)
    (ha : (d₀.run steps).assets[p]? = some a) (hproj : a.isProjectAsset = true)
    (hfail : a.dynamicData.state = .financingFailue) : RefundsAll (d₀.run steps) p := by
  have hwf := h₀.wellFormed.run steps
  have hP := project_eq_some.mpr ⟨a, ha, hproj, rfl⟩
  have hwhole := h₀.whole hC hP
  have hcurrent := hwhole.owes hfail
  obtain ⟨khd, -, hkhd, -⟩ := hwf.khd_of_project hP
  refine ⟨⟨khd, hkhd⟩, ?_, ?_, ?_⟩
  · rintro now o khd rfl hkhd hany hpays
    have howed := hwhole.owedTo_le o.accountId
    rw [← hcurrent, Project.owedTo, ← refundables_records hP] at howed
    have hadm : RefundInvestment.Admitted (d₀.run steps) o a :=
      ⟨ha, hproj, hwhole.offering hfail, hfail, howed, hany⟩
    obtain ⟨core, d₁, hprep, -⟩ := hpays.converted
    have hroom := h₀.room hP hkhd (prepareFee_inv hprep).1
    have hbalance := hwf.balances o.accountId khd
    simp only [maxShareSupply, AssetObject.project] at hroom
    obtain ⟨core, hs⟩ := applyOperation_refund hwf hkhd hadm (by simp only [maxInt64]; omega)
      (by simp only [maxInt64]; omega) hpays
    exact ⟨_, hs, paidBack_refunded hwf ha core⟩
  · rintro now o after now' o' rfl hp hx hacc
    suffices hrejected : (((d₀.run steps).step (.operation now (.refundInvestment o))).run after).accepts now'
        (.refundInvestment o') = false from ⟨step_of_rejected hrejected, hrejected⟩
    rw [← Bool.not_eq_true]
    intro hacc'
    obtain ⟨-, b, hadm⟩ := RefundInvestment.doEvaluate_inv (refund_evaluated hacc')
    have hQ := project_eq_some.mpr ⟨b, hadm.asset, hadm.project, rfl⟩
    obtain ⟨-, hmarked⟩ := h₀.settled hacc (hp ▸ hQ)
    obtain ⟨r, hr⟩ := List.exists_mem_of_ne_nil _ hadm.any
    rw [refundables_records hQ, List.mem_filter] at hr
    obtain ⟨hr, howed⟩ := hr
    simp only [AssetInvestment.owed, decide_eq_true_eq] at howed
    have hflag := hmarked r (by rw [← hp]; exact hr) (howed.1.trans hx)
    rw [howed.2] at hflag
    exact Bool.false_ne_true hflag
  · intro after hall b hb
    obtain ⟨Q, hQ, hsince⟩ := failed_run hwf hP hwhole.toSound hfail after
    have hmarked : ∀ r ∈ Q.records, r.returnFinancingFlag = true := fun r hr => by
      rw [← Bool.not_eq_false]
      intro hret
      have hany : RefundInvestment.refundables (d₀.run steps) r.investmentAccountId p ≠ [] := by
        rw [refundables_records hP]
        exact List.ne_nil_of_mem (List.mem_filter.mpr
          ⟨hsince.owed r hr hret, by simp [AssetInvestment.owed, hret]⟩)
      obtain ⟨d', now, o, rfl, hx, ⟨before, rest, rfl, rfl⟩, hacc⟩ := hall _ hany
      have hsplit : d₀.run (steps ++ before) = (d₀.run steps).run before := run_append
      rw [← Database.run, ← hsplit] at hacc
      obtain ⟨-, hsettled⟩ := h₀.settled hacc (by
        rw [hsplit]
        simpa only [Database.run, run_append, run_cons] using hQ)
      have hflag := hsettled r hr hx.symm
      rw [hret] at hflag
      exact Bool.false_ne_true hflag
    have hpaying := hsince.paying
    rw [Project.unrefunded_eq_zero hmarked, hcurrent, sub_self, sub_zero, project_of_asset hb hQ] at hpaying
    exact hpaying

end

section
open Sample

/-- The end of a block without maintenance. -/
def pass : Step := .endBlock 1600000000 none

/-- Ten of a minimum of 100 KHD are raised, and no maintenance runs at the end block of the financing. -/
def failedRun : List Step := [create offering, maintain, invest 2 5, invest 3 5, maintain, pass, maintain]

/-- The maintenance at the end block puts the project in progress; its issuer is paid, and the last investor is not. -/
def drawnRun : List Step := [create offering, maintain, invest 2 5, invest 3 5, maintain, maintain, issue, claim,
  maintain, refund 2]

theorem refunds_notAll : Start genesis ∧ ∃ a ∈ (genesis.run drawnRun).assets[2]?, a.isProjectAsset = true ∧
    a.dynamicData.state = .financingFailue ∧ ¬RefundsAll (genesis.run drawnRun) 2 := by
  refine ⟨genesis_start, _, rfl, by decide, by decide, fun h => ?_⟩
  obtain ⟨d', hs, -⟩ := h.granted 0 ⟨noFee, 3, 2⟩ 1 rfl (by decide) (by decide)
    ⟨⟨0, _, rfl, by decide, rfl⟩, _, rfl⟩
  have hacc : (genesis.run drawnRun).accepts 0 (.refundInvestment ⟨noFee, 3, 2⟩) = true := accepts_iff.mpr ⟨d', hs⟩
  exact absurd hacc (by decide)

theorem refunds_all_failed : ∃ a ∈ (genesis.run failedRun).assets[2]?, a.dynamicData.state = .financingFailue ∧
    RefundsAll (genesis.run failedRun) 2 :=
  ⟨_, rfl, by decide, refunds_all genesis_start (by decide) rfl (by decide) (by decide)⟩

end

end Khc.Chain
