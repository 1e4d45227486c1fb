import Khc.Chain.WellFormed
import Khc.Lib.Rows

/-! The power of accounts (`account_object.hpp`): accounts get some when they are created and for core asset that they
    convert (`account_evaluator.cpp`, `power_evaluator.cpp`), and projects lock it. -/

namespace Khc.Chain

open Lib

/-- `account_power_object` -/
structure AccountPower where
  owner : AccountId
  powerFrom : PowerFrom
  powerValue : Int
  deriving DecidableEq, Repr

/-- `power_convert_operation` -/
structure PowerConvertOperation where
  fee : Asset
  account : AccountId
  amount : Asset
  referAmount : Asset
  deriving DecidableEq, Repr

/-- `CONVERT_POWER_REFER_ASSET_RATE` -/
def convertPowerReferAssetRate : Int := 10

/-- `GRAPHENE_BLOCKCHAIN_PRECISION` -/
def grapheneBlockchainPrecision : Int := 100000000

/-- `GRAPHENE_NULL_ACCOUNT` -/
def grapheneNullAccount : AccountId := 3

/-- The chain with the power of the accounts, and the fee of a conversion -/
structure PowerDatabase where
  chain : Database
  accountPower : List AccountPower
  convertFee : Int

/-! ### account_create -/

/-- `create< account_power_object >`; there is one for an account and a source. -/
def PowerDatabase.createPower (d : PowerDatabase) (p : AccountPower) : Eval PowerDatabase := do
  fcAssert (∀ q ∈ d.accountPower, ¬(q.owner = p.owner ∧ q.powerFrom = p.powerFrom)) .notUnique
  return { d with accountPower := d.accountPower ++ [p] }

/-- `account_create_evaluator::do_apply`, of which the account and its power matter here -/
def AccountCreate.doApply (d : PowerDatabase) (a : AccountObject) : Eval PowerDatabase :=
  { d with chain := { d.chain with accounts := d.chain.accounts ++ [a] } }.createPower
    ⟨d.chain.accounts.length, .register, 50 * grapheneBlockchainPrecision⟩

/-! ### power_convert -/

namespace PowerConvert

def doEvaluate (d : PowerDatabase) (o : PowerConvertOperation) : Eval Unit := do
  let khdAssetObj ← d.chain.getAsset o.referAmount.assetId
  fcAssert (d.chain.balances o.account o.amount.assetId ≥ o.amount.amount) .insufficientBalance
  fcAssert (khdAssetObj.symbol = khdAssetSymbol) .powerReferAsset

/-- The power that an amount of the core asset converts to, before it is read as an `int64_t` -/
def converted (amount : Int) (khdPrice : Price) : Int :=
  toU128 (toU128 amount / convertPowerReferAssetRate / toU128 khdPrice.base.amount * toU128 khdPrice.quote.amount)

def powerAmount (amount : Int) (khdPrice : Price) : Eval Int := do
  if khdPrice.base.amount = 0 then throw .divideByZero
  let q := converted amount khdPrice
  if q ≥ 2 ^ 64 then throw .to_uint64
  return if q ≥ 2 ^ 63 then q - 2 ^ 64 else q

/-- The power of an account from conversions -/
def isMelt (account : AccountId) (p : AccountPower) : Bool := p.owner = account ∧ p.powerFrom = .melt

def doApply (d : PowerDatabase) (o : PowerConvertOperation) : Eval PowerDatabase := do
  let refAsset ← d.chain.getAsset o.referAmount.assetId
  let currentBitassetData ← refAsset.getBitassetData
  let khdPrice := currentBitassetData.settlementPrice
  fcAssert (¬khdPrice.isNull) .khdPriceNotSet
  let powerAmount ← powerAmount o.amount.amount khdPrice
  fcAssert (powerAmount ≤ maxShareSupply) .powerOutOfRange
  let total ← (d.accountPower.filter (·.owner = o.account)).foldlM (fun total p => safe (total + p.powerValue)) powerAmount
  fcAssert (total ≥ 0 ∧ total ≤ maxShareSupply) .powerOutOfRange
  let d ← (match d.accountPower.find? (isMelt o.account) with
    | some p => do
      let powerValue ← safe (p.powerValue + powerAmount)
      .ok { d with accountPower := updateFirst (isMelt o.account) (fun p => { p with powerValue }) d.accountPower }
    | none => d.createPower ⟨o.account, .melt, powerAmount⟩)
  khdPrice.validate
  let chain ← d.chain.adjustBalance o.account o.amount.neg
  return { d with chain := ← chain.adjustBalance grapheneNullAccount o.amount }

/-- `validate`, `evaluator::evaluate` and `evaluator::apply` of the operation -/
def apply (d : PowerDatabase) (o : PowerConvertOperation) : Eval PowerDatabase := do
  fcAssert (o.fee.amount ≥ 0) .feeNegative
  fcAssert (o.amount.amount > 0) .amountNotPositive
  let coreFeePaid ← d.chain.prepareFee o.account o.fee
  fcAssert (coreFeePaid ≥ d.convertFee) .insufficientFeePaid
  doEvaluate d o
  let chain ← d.chain.convertFee o.fee coreFeePaid
  let d ← doApply { d with chain } o
  return { d with chain := ← d.chain.adjustBalance o.account o.fee.neg }

end PowerConvert

/-! ### Steps -/

/-- What happens to power: a step of the chain, which may lock or unlock some, a new account, a conversion, and a new
    median feed. -/
inductive PowerStep
  | chain (s : Step)
  | accountCreate (a : AccountObject)
  | powerConvert (o : PowerConvertOperation)
  | publishFeed (asset : AssetId) (settlementPrice : Price)

namespace PowerDatabase
variable (d : PowerDatabase)

/-- An operation that throws leaves the state as it was. -/
def step : PowerStep → PowerDatabase
  | .chain s => { d with chain := d.chain.step s }
  | .accountCreate a => (AccountCreate.doApply d a).toOption.getD d
  | .powerConvert o => (PowerConvert.apply d o).toOption.getD d
  | .publishFeed asset settlementPrice =>
    { d with chain := d.chain.modifyAsset asset fun a =>
      { a with bitassetData := a.bitassetData.map fun b => { b with settlementPrice } } }

/-- The power of an account from all sources -/
def owned (x : AccountId) : Int := (d.accountPower.map fun p => if p.owner = x then p.powerValue else 0).sum

/-- The power of an account that is locked at the head block, as `get_account_power` counts it -/
def locked (x : AccountId) : Int :=
  (d.chain.lockedPower.map fun l => if l.owner = x ∧ (d.chain.headBlockNumber : Int) < l.unlockHeight then l.powerValue else 0).sum

end PowerDatabase

end Khc.Chain

/-! What the steps of the chain do to the locks of power: a new project adds one, and a maintenance takes some away. -/

namespace Khc.Chain

open Lib Database

section
variable {d d' : Database} {now : Nat} {op : Operation}

/-- Nothing is locked or unlocked, and no block ends. -/
structure SameLocks (d d' : Database) : Prop where
  locks : d'.lockedPower = d.lockedPower
  head : d'.headBlockNumber = d.headBlockNumber

theorem SameLocks.trans {d'' : Database} (h : SameLocks d d') (h' : SameLocks d' d'') : SameLocks d d'' :=
  ⟨h'.locks.trans h.locks, h'.head.trans h.head⟩

theorem charge_sameLocks {fee : Asset} {core : Int} : SameLocks d (d.charge fee core) := by
  unfold charge
  split <;> exact ⟨rfl, rfl⟩

theorem convertFee_sameLocks {fee : Asset} {core : Int} (h : d.convertFee fee core = .ok d') : SameLocks d d' :=
  convertFee_inv h ▸ charge_sameLocks

theorem adjustBalance_sameLocks {x : AccountId} {δ : Asset} (h : d.adjustBalance x δ = .ok d') : SameLocks d d' := by
  obtain ⟨-, -, rfl⟩ := adjustBalance_eq_ok.mp h
  exact ⟨rfl, rfl⟩

theorem refundOne_sameLocks {o : RefundInvestmentOperation} {r : AssetInvestment} (h : RefundInvestment.refundOne o d r = .ok d') :
    SameLocks d d' := by
  simp only [RefundInvestment.refundOne, bind_eq_ok, pure_eq_ok] at h
  obtain ⟨a, -, current, -, d₁, h₁, rfl⟩ := h
  have hsame := adjustBalance_sameLocks h₁
  exact ⟨hsame.locks, hsame.head⟩

theorem powerRequiredForFinacing_nonneg {value required : Int} (h : powerRequiredForFinacing value = .ok required) : 0 ≤ required := by
  simp only [powerRequiredForFinacing, bind_eq_ok, fcAssert_eq_ok, pure_eq_ok] at h
  obtain ⟨_, -, _, -, -, -, rfl⟩ := h
  exact Int.emod_nonneg _ (by norm_num)

/-- A new project locks the power that it declares, which is not negative. -/
theorem newLocks_eq_ok {o : AssetCreateOperation} {state : ProjectState} {locks : List AccountLockedPower} {d₁ : Database}
    (he : AssetCreate.doEvaluate d o = .ok state) (h : AssetCreate.newLocks d₁ o = .ok locks) :
    (o.projectAssetOpts = none ∧ locks = []) ∨ ∃ opts power, o.projectAssetOpts = some opts ∧ o.power = some power ∧ 0 ≤ power ∧
      locks = [AssetCreate.newLock d₁ o opts power] := by
  unfold AssetCreate.newLocks at h
  split at h
  · rename_i opts power hopts hpower
    cases h
    refine .inr ⟨opts, power, hopts, hpower, ?_, rfl⟩
    unfold AssetCreate.doEvaluate at he
    simp only [bind_eq_ok, hopts, Option.elim_some] at he
    obtain ⟨-, -, -, -, -, -, -, -, -, -, -, -, _, hproject, -⟩ := he
    unfold AssetCreate.evaluateProject at hproject
    simp only [bind_eq_ok] at hproject
    obtain ⟨_, -, _, -, _, -, required, hrequired, _, hpower', -⟩ := hproject
    simp only [AssetCreate.evaluatePower, hpower, fcAssert_eq_ok] at hpower'
    exact (powerRequiredForFinacing_nonneg hrequired).trans hpower'
  · cases h
  · rename_i hopts
    cases h
    exact .inl ⟨hopts, rfl⟩

theorem assetCreate_locks {o : AssetCreateOperation} {state : ProjectState} {core : Int} (h : AssetCreate.doApply d o core state = .ok d') :
    ∃ locks, AssetCreate.newLocks d o = .ok locks ∧ d'.lockedPower = d.lockedPower ++ locks ∧
      d'.headBlockNumber = d.headBlockNumber := by
  obtain ⟨n, hodd⟩ := AssetCreate.countOddFee_eq d core
  unfold AssetCreate.doApply at h
  simp only at h
  split at h
  · simp only [bind_eq_ok, pure_eq_ok] at h
    obtain ⟨-, -, -, -, locks, hlocks, rfl⟩ := h
    exact ⟨locks, hlocks, by rw [hodd]; rfl, by rw [hodd]; rfl⟩
  · simp only [bind_eq_ok, pure_eq_ok] at h
    obtain ⟨locks, hlocks, rfl⟩ := h
    exact ⟨locks, hlocks, by rw [hodd]; rfl, by rw [hodd]; rfl⟩

theorem newLock_charge {o : AssetCreateOperation} {opts : ProjectAssetOptions} {fee : Asset} {core power : Int} :
    AssetCreate.newLock (d.charge fee core) o opts power = AssetCreate.newLock d o opts power := by
  rw [AssetCreate.newLock, AssetCreate.newLock, charge_length, charge_head, charge_parameters]

/-- The creation of an asset locks the power that it declares if the asset is a project. -/
theorem create_locks {o : AssetCreateOperation} (h : d.applyOperation now (.assetCreate o) = .ok d') :
    (o.projectAssetOpts = none ∧ SameLocks d d') ∨ ∃ opts power, o.projectAssetOpts = some opts ∧ o.power = some power ∧
      0 ≤ power ∧ d'.lockedPower = d.lockedPower ++ [AssetCreate.newLock d o opts power] ∧ d'.headBlockNumber = d.headBlockNumber := by
  unfold applyOperation at h
  obtain ⟨_, -, h⟩ := bind_eq_ok.mp h
  obtain ⟨core, state, d₂, -, he, hap, -, rfl⟩ := startEvaluate_inv h
  obtain ⟨locks, hlocks, hlocked, hhead⟩ := assetCreate_locks hap
  have hsame : SameLocks d (d.charge (Operation.assetCreate o).fee core) := charge_sameLocks
  rcases newLocks_eq_ok he hlocks with ⟨hopts, rfl⟩ | ⟨opts, power, hopts, hpower, hnonneg, rfl⟩
  · exact .inl ⟨hopts, hsame.trans ⟨by rw [credit, hlocked, List.append_nil], hhead⟩⟩
  · refine .inr ⟨opts, power, hopts, hpower, hnonneg, ?_, hhead.trans hsame.head⟩
    rw [credit, hlocked, hsame.locks, newLock_charge]

/-- No operation but the creation of an asset locks any. -/
theorem applyOperation_sameLocks (hop : ∀ o, op ≠ .assetCreate o) (h : d.applyOperation now op = .ok d') : SameLocks d d' := by
  unfold applyOperation at h
  obtain ⟨_, hval, h⟩ := bind_eq_ok.mp h
  cases op with
  | assetCreate o => exact absurd rfl (hop o)
  | transfer o =>
    obtain ⟨core, e, d₂, -, -, hap, -, rfl⟩ := startEvaluate_inv h
    obtain rfl := Transfer.doApply_inv hap
    exact charge_sameLocks.trans ⟨rfl, rfl⟩
  | assetUpdate o =>
    obtain ⟨core, e, d₂, -, -, hap, -, rfl⟩ := startEvaluate_inv h
    obtain rfl := AssetUpdate.doApply_inv hap
    exact charge_sameLocks.trans ⟨rfl, rfl⟩
  | assetUpdateIssuer o =>
    obtain ⟨core, e, d₂, -, -, hap, -, rfl⟩ := startEvaluate_inv h
    obtain rfl := AssetUpdateIssuer.doApply_inv hap
    exact charge_sameLocks.trans ⟨rfl, rfl⟩
  | assetIssue o =>
    obtain ⟨core, e, d₂, -, -, hap, -, rfl⟩ := startEvaluate_inv h
    obtain rfl := AssetIssue.doApply_inv hap
    exact charge_sameLocks.trans ⟨rfl, rfl⟩
  | assetReserve o =>
    obtain ⟨core, e, d₂, -, -, hap, -, rfl⟩ := startEvaluate_inv h
    obtain ⟨-, rfl⟩ := AssetReserve.doApply_inv (AssetReserveOperation.validate_inv hval) hap
    exact charge_sameLocks.trans ⟨rfl, rfl⟩
  | assetInvestment o =>
    obtain ⟨core, e, d₂, -, -, hap, -, rfl⟩ := startEvaluate_inv h
    obtain ⟨a, -, -, -, rfl⟩ := AssetInvestment.doApply_inv hap
    exact charge_sameLocks.trans ⟨rfl, rfl⟩
  | issueAssetToInvestors o =>
    obtain ⟨core, e, d₂, -, -, hap, -, rfl⟩ := startEvaluate_inv h
    obtain ⟨a, -, rfl⟩ := IssueAssetToInvestors.doApply_inv hap
    rw [IssueAssetToInvestors.giveTokens_eq]
    exact charge_sameLocks.trans ⟨rfl, rfl⟩
  | refundInvestment o =>
    obtain ⟨core, e, d₂, -, -, hap, -, rfl⟩ := startEvaluate_inv h
    have hsame : SameLocks (d.charge (Operation.refundInvestment o).fee core) d₂ :=
      foldlM_invariant (fun _ _ _ hsame hround => hsame.trans (refundOne_sameLocks hround)) ⟨rfl, rfl⟩ hap
    exact charge_sameLocks.trans (hsame.trans ⟨rfl, rfl⟩)
  | claimBitassetInvestment o =>
    obtain ⟨core, e, d₂, -, -, hap, -, rfl⟩ := startEvaluate_inv h
    obtain rfl := ClaimBitassetInvestment.doApply_inv hap
    exact charge_sameLocks.trans ⟨rfl, rfl⟩
  | claimAssetInvestment o =>
    obtain ⟨core, e, d₂, -, -, hap, -, rfl⟩ := startEvaluate_inv h
    obtain rfl := ClaimAssetInvestment.doApply_inv hap
    exact charge_sameLocks.trans ⟨rfl, rfl⟩

/-! ### Maintenance -/

/-- A lock is left as it was or is taken away. -/
theorem unlockPower_cases (assets : List AssetObject) (head : Nat) (l : AccountLockedPower) :
    unlockPower assets head l = l ∨ unlockPower assets head l = { l with unlockHeight := 0 } := by
  unfold unlockPower
  split
  · split
    · exact .inr rfl
    · exact .inl rfl
  · exact .inl rfl

theorem endBlock_locks (d : Database) (timestamp : Nat) (maintenance : Option ChainParameters) :
    ∃ f : AccountLockedPower → AccountLockedPower, (∀ l, f l = l ∨ f l = { l with unlockHeight := 0 }) ∧
      (d.endBlock timestamp maintenance).lockedPower = d.lockedPower.map f ∧
      (d.endBlock timestamp maintenance).headBlockNumber = d.headBlockNumber + 1 := by
  cases maintenance with
  | none => exact ⟨id, fun _ => .inl rfl, (List.map_id _).symm, rfl⟩
  | some parameters => exact ⟨_, unlockPower_cases d.assets (d.headBlockNumber + 1), rfl, rfl⟩

end

end Khc.Chain
