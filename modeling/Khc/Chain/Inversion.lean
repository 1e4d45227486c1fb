import Khc.Chain.Step
import Khc.Chain.Update

/-! What an accepted operation has passed, and what it does: for each evaluator the checks of `do_evaluate` as a
    structure of facts (`Admitted`), and the result of `do_apply` as plain updates of the state. -/

namespace Khc.Chain

open Lib

namespace Database
variable {d d' : Database}

theorem modifyAsset_congr {q : AssetId} {a : AssetObject} {f g : AssetObject → AssetObject}
    (ha : d.assets[q]? = some a) (h : f a = g a) : d.modifyAsset q f = d.modifyAsset q g := by
  simp only [modifyAsset]
  congr 1
  refine List.ext_getElem? fun i => ?_
  rw [List.getElem?_modify, List.getElem?_modify]
  by_cases hi : q = i
  · subst hi
    simp [ha, h]
  · simp [hi]

/-- `adjust_balance` credits the account, after the check that a debit is covered. -/
theorem adjustBalance_eq_ok {x : AccountId} {δ : Asset} :
    d.adjustBalance x δ = .ok d' ↔ (δ.amount < 0 → -δ.amount ≤ d.balances x δ.assetId) ∧
      (δ.amount ≠ 0 → InInt64 (d.balances x δ.assetId + δ.amount)) ∧ d' = d.credit x δ := by
  unfold adjustBalance
  by_cases h0 : δ.amount = 0
  · have hid : d.credit x δ = d := by
      obtain ⟨amount, id⟩ := δ
      obtain rfl : amount = 0 := h0
      exact credit_zero id
    rw [if_pos h0, pure_eq_ok, hid]
    exact ⟨fun h => ⟨fun hneg => by omega, fun hne => absurd h0 hne, h.symm⟩, fun h => h.2.2.symm⟩
  · rw [if_neg h0]
    by_cases hneg : δ.amount < 0
    · rw [if_pos hneg]
      simp only [bind_eq_ok, fcAssert_eq_ok, safe_eq_ok, pure_eq_ok]
      constructor
      · rintro ⟨-, hbal, -, ⟨hint, -⟩, rfl⟩
        exact ⟨fun _ => hbal, fun _ => hint, rfl⟩
      · rintro ⟨hbal, hint, rfl⟩
        exact ⟨(), hbal hneg, _, ⟨hint h0, rfl⟩, rfl⟩
    · rw [if_neg hneg]
      simp only [bind_eq_ok, safe_eq_ok, pure_eq_ok]
      constructor
      · rintro ⟨-, ⟨hint, -⟩, rfl⟩
        exact ⟨fun h => absurd h hneg, fun _ => hint, rfl⟩
      · rintro ⟨-, hint, rfl⟩
        exact ⟨_, ⟨hint h0, rfl⟩, rfl⟩

/-! ### Fees -/

/-- The state in which an operation is applied: its fee asset has taken the fee. -/
def charge (d : Database) (fee : Asset) (coreFeePaid : Int) : Database :=
  if fee.assetId = 0 then d else d.takeFee fee coreFeePaid

theorem convertFee_inv {fee : Asset} {core : Int} (h : d.convertFee fee core = .ok d') : d' = d.charge fee core := by
  unfold convertFee at h
  unfold charge
  split at h
  · rename_i h0
    rw [if_pos h0, pure_eq_ok.mp h]
  · rename_i h0
    simp only [bind_eq_ok, getAsset_eq_ok, safe_eq_ok, pure_eq_ok] at h
    obtain ⟨-, -, -, -, -, -, rfl⟩ := h
    rw [if_neg h0]

/-- What the handling of the fee has checked. -/
structure FeeTaken (d : Database) (op : Operation) : Prop where
  payer : op.feePayer < d.accounts.length
  asset : op.fee.assetId < d.assets.length
  nonneg : 0 ≤ op.fee.amount

theorem prepareFee_inv {x : AccountId} {fee : Asset} {core : Int} (h : d.prepareFee x fee = .ok core) :
    x < d.accounts.length ∧ fee.assetId < d.assets.length ∧ 0 ≤ fee.amount := by
  unfold prepareFee at h
  simp only [bind_eq_ok, fcAssert_eq_ok, getAsset_eq_ok] at h
  obtain ⟨-, hfee, acct, hacct, a, ha, -⟩ := h
  exact ⟨getAccount_lt hacct, lt_of_getElem? ha, hfee⟩

theorem startEvaluate_inv {α : Type} {op : Operation} {ev : Eval α} {ap : Database → Int → α → Eval Database}
    (h : d.startEvaluate op ev ap = .ok d') :
    ∃ core e d₂, d.FeeTaken op ∧ ev = .ok e ∧ ap (d.charge op.fee core) core e = .ok d₂ ∧
      (0 < op.fee.amount → op.fee.amount ≤ d₂.balances op.feePayer op.fee.assetId) ∧
      d' = d₂.credit op.feePayer op.fee.neg := by
  unfold startEvaluate at h
  simp only [bind_eq_ok, fcAssert_eq_ok, adjustBalance_eq_ok] at h
  obtain ⟨core, hfee, -, -, e, he, d₁, hconv, d₂, hap, hbal, -, rfl⟩ := h
  obtain ⟨hx, ha, hnn⟩ := prepareFee_inv hfee
  refine ⟨core, e, d₂, ⟨hx, ha, hnn⟩, he, convertFee_inv hconv ▸ hap, fun hpos => ?_, rfl⟩
  have := hbal (by simp only [Asset.neg]; omega)
  simp only [Asset.neg, neg_neg] at this
  exact this

/-- What a taken fee leaves of the fee asset. -/
theorem charge_getElem? (fee : Asset) (core : Int) {q : AssetId} {a : AssetObject} (h : d.assets[q]? = some a) :
    ∃ fees pool, (d.charge fee core).assets[q]? =
      some { a with dynamicData := { a.dynamicData with accumulatedFees := fees, feePool := pool } } := by
  unfold charge
  split
  · exact ⟨_, _, h⟩
  · simp only [takeFee, modifyDynamic, modifyAsset_getElem?, h]
    split
    · exact ⟨_, _, rfl⟩
    · exact ⟨_, _, rfl⟩

/-- What an asset was before the fee was taken. -/
theorem of_charge_getElem? {fee : Asset} {core : Int} {q : AssetId} {a : AssetObject} (h : (d.charge fee core).assets[q]? = some a) :
    ∃ b fees pool, d.assets[q]? = some b ∧
      a = { b with dynamicData := { b.dynamicData with accumulatedFees := fees, feePool := pool } } := by
  cases hb : d.assets[q]? with
  | none =>
    have hlength : (d.charge fee core).assets.length = d.assets.length := by
      unfold charge
      split
      · rfl
      · exact modifyAsset_length
    rw [List.getElem?_eq_none_iff] at hb
    rw [List.getElem?_eq_none (hlength ▸ hb)] at h
    cases h
  | some b =>
    obtain ⟨fees, pool, heq⟩ := charge_getElem? fee core hb
    exact ⟨b, fees, pool, rfl, Option.some.inj (h.symm.trans heq)⟩

section Charge
variable {fee : Asset} {core : Int}

@[simp] theorem charge_investments {f : Asset} {c : Int} : (d.charge f c).investments = d.investments := by
  unfold charge; split <;> rfl

@[simp] theorem charge_balances : (d.charge fee core).balances = d.balances := by
  unfold charge; split <;> rfl

@[simp] theorem charge_accounts : (d.charge fee core).accounts = d.accounts := by
  unfold charge; split <;> rfl

@[simp] theorem charge_head {f : Asset} {c : Int} : (d.charge f c).headBlockNumber = d.headBlockNumber := by
  unfold charge; split <;> rfl

@[simp] theorem charge_parameters : (d.charge fee core).parameters = d.parameters := by
  unfold charge; split <;> rfl

@[simp] theorem charge_time : (d.charge fee core).headBlockTime = d.headBlockTime := by
  unfold charge; split <;> rfl

@[simp] theorem charge_length : (d.charge fee core).assets.length = d.assets.length := by
  unfold charge; split
  · rfl
  · exact modifyAsset_length

theorem findSymbol_charge (symbol : String) : (d.charge fee core).findSymbol symbol = d.findSymbol symbol := by
  unfold charge
  split
  · rfl
  · rw [takeFee, modifyDynamic, findSymbol_modifyAsset]
    exact fun _ => rfl

/-- The fee moves from the payer's balance to the accumulated fees, except the core fee. -/
theorem held_charge (hlt : fee.assetId < d.assets.length) {q : AssetId} (hq : q ≠ 0) :
    (d.charge fee core).held q = d.held q + if fee.assetId = q then fee.amount else 0 := by
  unfold charge
  split
  · rename_i h0
    rw [if_neg (fun h => hq (h.symm.trans h0)), add_zero]
  · rw [held, held, accountBalances_congr (d := d) rfl rfl, add_assoc]
    congr 1
    by_cases hfq : fee.assetId = q
    · subst hfq
      obtain ⟨a, ha⟩ : ∃ a, d.assets[fee.assetId]? = some a := ⟨_, List.getElem?_eq_getElem hlt⟩
      simp [takeFee, modifyDynamic, accumulatedFees, ha]
    · rw [if_neg hfq, add_zero]
      exact accumulatedFees_congr (modifyAsset_ne hfq)

end Charge

end Database

theorem isPublicOffering_eq_ok {a : AssetObject} :
    a.isPublicOffering = .ok true ↔ a.isProjectAsset = true ∧ a.projOptions.financingType = khcPublicOffering := by
  simp only [AssetObject.isPublicOffering, bind_eq_ok, fcAssert_eq_ok, pure_eq_ok]
  simp

theorem isPublicOffering_eq_error {a : AssetObject} {e : Error} (h : a.isPublicOffering = .error e) :
    e = .notProjectAsset := by
  simp only [AssetObject.isPublicOffering, bind_eq_error, fcAssert_eq_error, pure_eq_error, and_false, exists_false,
    or_false] at h
  exact h.2.symm

theorem isIssueToInvestors_eq_error {a : AssetObject} {e : Error} (h : a.isIssueToInvestors = .error e) :
    e = .notProjectAsset := by
  simp only [AssetObject.isIssueToInvestors, bind_eq_error, fcAssert_eq_error, pure_eq_error, and_false, exists_false,
    or_false] at h
  exact h.2.symm

theorem isIssueToInvestors_eq_ok {a : AssetObject} :
    a.isIssueToInvestors = .ok true ↔ a.isProjectAsset = true ∧ 0 < a.dynamicData.investmentConfidentialSupply := by
  simp only [AssetObject.isIssueToInvestors, bind_eq_ok, fcAssert_eq_ok, pure_eq_ok]
  simp

theorem isFinancingEnd_eq_ok {a : AssetObject} : a.isFinancingEnd = .ok true ↔
    a.isProjectAsset = true ∧ (a.dynamicData.state = .projectInProgress ∨ a.dynamicData.state = .projectEnd) := by
  simp only [AssetObject.isFinancingEnd, bind_eq_ok, fcAssert_eq_ok, pure_eq_ok]
  simp

theorem running_of_toNat {s : ProjectState} (h : s.toNat ≥ ProjectState.projectInProgress.toNat) :
    s = .projectInProgress ∨ s = .projectEnd := by
  cases s <;> simp_all [ProjectState.toNat]

end Khc.Chain

/-! What the evaluators of the general asset operations check and do. -/

namespace Khc.Chain

open Lib Database

/-- An asset of which `amount` more is in circulation. -/
def suppliedAsset (amount : Int) (a : AssetObject) : AssetObject :=
  { a with dynamicData := { a.dynamicData with currentSupply := a.dynamicData.currentSupply + amount } }

/-! ### asset_create -/

namespace AssetCreate
variable {d d' : Database} {op : AssetCreateOperation} {state : ProjectState} {core : Int}

/-- What a new project has passed. -/
structure ProjectAdmitted (d : Database) (opts : ProjectAssetOptions) (state : ProjectState) : Prop where
  khd : ∃ id k, d.findSymbol khdAssetSymbol = some id ∧ d.assets[id]? = some k ∧ k.isMarketIssued = true
  named : opts.name ≠ ""
  offering : opts.financingType = khcPublicOffering →
    state = .aboutToStart ∧ d.headBlockNumber ≤ opts.startFinancingBlockNum
  other : opts.financingType ≠ khcPublicOffering → state = .projectInProgress

theorem findKhd_inv {k : AssetObject} (h : findKhd d = .ok k) :
    ∃ id, d.findSymbol khdAssetSymbol = some id ∧ d.assets[id]? = some k := by
  unfold findKhd at h
  split at h
  · rename_i id hid
    exact ⟨id, hid, getAsset_eq_ok.mp h⟩
  · simp at h

theorem getBitassetData_inv {a : AssetObject} {b : AssetBitassetData} (h : a.getBitassetData = .ok b) :
    a.isMarketIssued = true := by
  unfold AssetObject.getBitassetData at h
  unfold AssetObject.isMarketIssued
  split at h
  · rename_i hb
    rw [hb]
    rfl
  · simp at h

theorem evaluateProject_inv {opts : ProjectAssetOptions} (h : evaluateProject d op opts = .ok state) :
    ProjectAdmitted d opts state := by
  unfold evaluateProject at h
  by_cases ht : opts.financingType = khcPublicOffering
  · simp only [ht, if_true, bind_eq_ok, fcAssert_eq_ok, pure_eq_ok] at h
    obtain ⟨k, hk, bit, hbit, -, -, -, -, -, -, -, hname, -, -, -, -, -, hstart, rfl⟩ := h
    obtain ⟨id, hid, hk⟩ := findKhd_inv hk
    refine ⟨⟨id, k, hid, hk, getBitassetData_inv hbit⟩, fun hn => ?_, fun _ => ⟨rfl, hstart⟩, fun hne => absurd ht hne⟩
    rw [hn] at hname
    exact hname rfl
  · simp only [ht, if_false, bind_eq_ok, fcAssert_eq_ok, pure_eq_ok] at h
    obtain ⟨k, hk, bit, hbit, -, -, -, -, -, -, -, hname, -, -, -, -, rfl⟩ := h
    obtain ⟨id, hid, hk⟩ := findKhd_inv hk
    refine ⟨⟨id, k, hid, hk, getBitassetData_inv hbit⟩, fun hn => ?_, fun h => absurd h ht, fun _ => rfl⟩
    rw [hn] at hname
    exact hname rfl

/-- The checks of the creation of an asset that the state depends on. -/
structure Admitted (d : Database) (op : AssetCreateOperation) (state : ProjectState) : Prop where
  symbol : d.findSymbol op.symbol = none
  notBoth : ¬(op.bitassetOpts.isSome = true ∧ op.projectAssetOpts.isSome = true)
  project : ∀ opts, op.projectAssetOpts = some opts → ProjectAdmitted d opts state

theorem doEvaluate_inv (h : doEvaluate d op = .ok state) : Admitted d op state := by
  unfold doEvaluate at h
  simp only [bind_eq_ok, fcAssert_eq_ok, pure_eq_ok] at h
  obtain ⟨-, -, -, -, -, -, -, -, -, hsym, -, hboth, st, hproj, -, -, -, -, -, -, rfl⟩ := h
  refine ⟨hsym, hboth, fun opts hopts => ?_⟩
  rw [hopts] at hproj
  exact evaluateProject_inv hproj

theorem doApply_inv (h : doApply d op core state = .ok d') :
    ∃ feePool locks, d' = addAsset (countOddFee d core) (newAsset d op state feePool) locks := by
  unfold doApply at h
  simp only at h
  split at h
  · simp only [bind_eq_ok, pure_eq_ok] at h
    obtain ⟨-, -, -, -, locks, -, rfl⟩ := h
    exact ⟨_, locks, rfl⟩
  · simp only [bind_eq_ok, pure_eq_ok] at h
    obtain ⟨locks, -, rfl⟩ := h
    exact ⟨_, locks, rfl⟩

/-- The odd satoshi changes no more than the supply of the core asset. -/
theorem countOddFee_eq (d : Database) (core : Int) : ∃ n : Int, countOddFee d core = d.modifyAsset 0 (suppliedAsset n) := by
  unfold countOddFee
  split
  · exact ⟨1, rfl⟩
  · have hsame : suppliedAsset 0 = fun a => a := funext fun a => by simp [suppliedAsset]
    exact ⟨0, by rw [hsame, modifyAsset_id]⟩

end AssetCreate

/-! ### asset_issue and asset_reserve -/

namespace AssetIssue
variable {d d' : Database} {o : AssetIssueOperation} {u : Unit}

structure Admitted (d : Database) (o : AssetIssueOperation) (a : AssetObject) : Prop where
  asset : d.assets[o.assetToIssue.assetId]? = some a
  notMarketIssued : a.isMarketIssued = false
  issued : a.isProjectAsset = true → 0 < a.dynamicData.investmentConfidentialSupply
  account : o.issueToAccount < d.accounts.length
  belowMaxSupply : a.dynamicData.currentSupply + o.assetToIssue.amount ≤ a.options.maxSupply

theorem doEvaluate_inv (h : doEvaluate d o = .ok u) : ∃ a, Admitted d o a := by
  unfold doEvaluate at h
  simp only [bind_eq_ok, fcAssert_eq_ok, getAsset_eq_ok] at h
  obtain ⟨a, ha, -, -, -, hmarket, h⟩ := h
  split at h
  · simp only [bind_eq_ok, fcAssert_eq_ok, safe_eq_ok] at h
    obtain ⟨_, hissued, -, rfl, acct, hacct, -, -, -, ⟨-, rfl⟩, hmax⟩ := h
    exact ⟨a, ha, by simpa using hmarket, fun _ => (isIssueToInvestors_eq_ok.mp hissued).2, getAccount_lt hacct, hmax⟩
  · rename_i hproj
    simp only [bind_eq_ok, fcAssert_eq_ok, safe_eq_ok] at h
    obtain ⟨acct, hacct, -, -, -, ⟨-, rfl⟩, hmax⟩ := h
    exact ⟨a, ha, by simpa using hmarket, fun h => absurd h hproj, getAccount_lt hacct, hmax⟩

theorem doApply_inv (h : doApply d o = .ok d') :
    d' = (d.credit o.issueToAccount o.assetToIssue).modifyAsset o.assetToIssue.assetId
      (suppliedAsset o.assetToIssue.amount) := by
  unfold doApply at h
  simp only [bind_eq_ok, getAsset_eq_ok, safe_eq_ok, pure_eq_ok, adjustBalance_eq_ok] at h
  obtain ⟨-, ⟨-, -, rfl⟩, a, ha, -, ⟨-, rfl⟩, rfl⟩ := h
  exact modifyAsset_congr ha rfl

end AssetIssue

namespace AssetReserve
variable {d d' : Database} {o : AssetReserveOperation} {u : Unit}

structure Admitted (d : Database) (o : AssetReserveOperation) (a : AssetObject) : Prop where
  asset : d.assets[o.amountToReserve.assetId]? = some a
  notMarketIssued : a.isMarketIssued = false
  covered : o.amountToReserve.amount ≤ a.dynamicData.currentSupply

theorem doEvaluate_inv (h : doEvaluate d o = .ok u) : ∃ a, Admitted d o a := by
  unfold doEvaluate at h
  simp only [bind_eq_ok, fcAssert_eq_ok, getAsset_eq_ok, safe_eq_ok] at h
  obtain ⟨a, ha, -, hmarket, -, -, -, -, -, ⟨-, rfl⟩, hcov⟩ := h
  exact ⟨a, ha, by simpa using hmarket, by omega⟩

theorem doApply_inv (hpos : 0 < o.amountToReserve.amount) (h : doApply d o = .ok d') :
    o.amountToReserve.amount ≤ d.balances o.payer o.amountToReserve.assetId ∧
      d' = (d.credit o.payer o.amountToReserve.neg).modifyAsset o.amountToReserve.assetId
        (suppliedAsset (-o.amountToReserve.amount)) := by
  unfold doApply at h
  simp only [bind_eq_ok, getAsset_eq_ok, safe_eq_ok, pure_eq_ok, adjustBalance_eq_ok] at h
  obtain ⟨-, ⟨hbal, -, rfl⟩, a, ha, -, ⟨-, rfl⟩, rfl⟩ := h
  simp only [Asset.neg, neg_neg] at hbal
  refine ⟨hbal (by omega), ?_⟩
  exact modifyAsset_congr ha rfl

end AssetReserve

/-! ### asset_update and asset_update_issuer -/

/-- An asset after an update of its issuer and its options. -/
def updatedAsset (o : AssetUpdateOperation) (a : AssetObject) : AssetObject :=
  { a with issuer := o.newIssuer.getD a.issuer, options := o.newOptions }

theorem AssetUpdate.doApply_inv {d d' : Database} {o : AssetUpdateOperation} (h : AssetUpdate.doApply d o = .ok d') :
    d' = d.modifyAsset o.assetToUpdate (updatedAsset o) :=
  (pure_eq_ok.mp h).symm

theorem AssetUpdateIssuer.doApply_inv {d d' : Database} {o : AssetUpdateIssuerOperation}
    (h : AssetUpdateIssuer.doApply d o = .ok d') :
    d' = d.modifyAsset o.assetToUpdate fun a => { a with issuer := o.newIssuer } :=
  (pure_eq_ok.mp h).symm

/-! ### transfer -/

namespace Transfer
variable {d d' : Database} {o : TransferOperation} {u : Unit}

structure Admitted (d : Database) (o : TransferOperation) : Prop where
  receiver : o.receiver < d.accounts.length
  asset : o.amount.assetId < d.assets.length
  covered : o.amount.amount ≤ d.balances o.sender o.amount.assetId

theorem doEvaluate_inv (h : doEvaluate d o = .ok u) : Admitted d o := by
  unfold doEvaluate at h
  simp only [bind_eq_ok, fcAssert_eq_ok, getAsset_eq_ok] at h
  obtain ⟨-, -, receiver, hreceiver, a, ha, -, -, -, -, h⟩ := h
  refine ⟨getAccount_lt hreceiver, lt_of_getElem? ha, ?_⟩
  split at h
  · simp only [bind_eq_ok, fcAssert_eq_ok] at h
    obtain ⟨-, -, hcov⟩ := h
    exact hcov
  · exact fcAssert_eq_ok.mp h

theorem doApply_inv (h : doApply d o = .ok d') : d' = (d.credit o.sender o.amount.neg).credit o.receiver o.amount := by
  unfold doApply at h
  simp only [bind_eq_ok, adjustBalance_eq_ok] at h
  obtain ⟨-, ⟨-, -, rfl⟩, -, -, rfl⟩ := h
  rfl

end Transfer

end Khc.Chain
