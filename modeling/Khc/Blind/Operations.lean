import Khc.Auth.Authority
import Khc.Fees.Objects
import Khc.Market.Evaluators

/-! Balances whose amounts are hidden in commitments, and the three operations on them (`protocol/confidential.cpp`,
    `confidential_evaluator.cpp`). -/

namespace Khc.Blind

open Lib
open Auth (Authority)
open Chain (Asset AccountId AssetId hasFlag maxShareSupply)
open Fees (FbaAccumulatorId)
open Market (Eval PaidFee fcAssert safe)

/-! ### Commitments -/

/-- The order of the group of secp256k1 -/
def groupOrder : Nat := 115792089237316195423570985008687907852837564279074904382605163141518161494337

instance : NeZero groupOrder := ⟨by decide⟩

/-- A commitment hides a value, which is taken modulo the group order, behind a blinding factor. -/
structure Commitment where
  value : Fin groupOrder
  blinding : Fin groupOrder
  deriving DecidableEq

/-- `fc::ecc::blind` -/
def blind (blindingFactor value : Nat) : Commitment := ⟨Fin.ofNat groupOrder value, Fin.ofNat groupOrder blindingFactor⟩

/-- The amount that a commitment hides -/
def Commitment.hidden (c : Commitment) : Int := (c.value : Nat)

def sumHidden (cs : List Commitment) : Int := (cs.map (·.hidden)).sum

def sumBlinding (cs : List Commitment) : Int := (cs.map fun c => ((c.blinding : Nat) : Int)).sum

/-- `fc::ecc::verify_sum`: the sums are the same in the group. -/
def verifySum (commitsIn negCommitsIn : List Commitment) (excess : Int) : Prop :=
  (groupOrder : Int) ∣ sumHidden commitsIn - sumHidden negCommitsIn - excess ∧
    (groupOrder : Int) ∣ sumBlinding commitsIn - sumBlinding negCommitsIn

instance (cs ns : List Commitment) (excess : Int) : Decidable (verifySum cs ns excess) := inferInstanceAs (Decidable (_ ∧ _))

/-- The data that are said to prove the range of a hidden value -/
class RangeProof (P : Type) where
  /-- `max_value` of `fc::ecc::range_get_info`, which throws where the data are none of a proof -/
  maxValue : P → Option Nat

/-! ### Operations -/

section
variable (P K A : Type) [LinearOrder K] [LinearOrder A]

structure BlindInput where
  commitment : Commitment
  owner : Authority K A

structure BlindOutput where
  commitment : Commitment
  rangeProof : P
  owner : Authority K A

structure TransferToBlind where
  fee : Asset
  amount : Asset
  «from» : AccountId
  blindingFactor : Nat
  outputs : List (BlindOutput P K A)

structure TransferFromBlind where
  fee : Asset
  amount : Asset
  «to» : AccountId
  blindingFactor : Nat
  inputs : List (BlindInput K A)

structure BlindTransfer where
  fee : Asset
  inputs : List (BlindInput K A)
  outputs : List (BlindOutput P K A)

inductive Operation
  | transferToBlind (o : TransferToBlind P K A)
  | transferFromBlind (o : TransferFromBlind K A)
  | blindTransfer (o : BlindTransfer P K A)

/-! ### State -/

/-- `blinded_balance_object` -/
structure BlindedBalance where
  commitment : Commitment
  assetId : AssetId
  owner : Authority K A

/-- An `fba_accumulator_object`, and whether it is configured; none of the operations changes that. -/
structure FbaAccumulator where
  configured : Bool
  accumulatedFbaFees : Int

structure Database where
  market : Market.Database
  blindedBalances : List (BlindedBalance K A)
  /-- `confidential_supply` of each asset -/
  confidentialSupply : AssetId → Int
  fbaAccumulators : FbaAccumulatorId → FbaAccumulator
  /-- `current_fee_schedule().calculate_fee( op ).amount` -/
  currentFees : Operation P K A → Int

end

/-- `GRAPHENE_TEMP_ACCOUNT` -/
def grapheneTempAccount : AccountId := 4

def hardfork563Time : Nat := 1456250400

def disableConfidential : Chain.Flag := 0x40

variable {P K A : Type} [LinearOrder K] [LinearOrder A]

/-! ### Checks of the data alone -/

/-- The loop over the commitments. Its counter has 32 bits, so it does not end where there are more of them. -/
def checkSorted [LinearOrder Commitment] (cs : List Commitment) : Eval Unit := do
  fcAssert (cs.length < 2 ^ 32) .outOfFuel
  fcAssert (cs.IsChain (· < ·)) .invalidOperation

/-- The proofs are read where there is more than one output. -/
def checkRanges [RangeProof P] (outputs : List (BlindOutput P K A)) : Eval Unit :=
  if outputs.length > 1 then
    outputs.forM fun out =>
      match RangeProof.maxValue out.rangeProof with
      | none => .error .invalidOperation
      | some maxValue => fcAssert (maxValue ≤ maxShareSupply) .invalidOperation
  else .ok ()

/-- What `blind` takes of a number of 64 bits with a sign -/
def toUInt64 (x : Int) : Nat := (x % 2 ^ 64).toNat

def TransferToBlind.validate [LinearOrder Commitment] [RangeProof P] (o : TransferToBlind P K A) : Eval Unit := do
  fcAssert (o.fee.amount ≥ 0) .invalidOperation
  fcAssert (o.amount.amount > 0) .invalidOperation
  let out := o.outputs.map (·.commitment)
  checkSorted out
  fcAssert (∀ x ∈ o.outputs, ¬x.owner.isImpossible) .invalidOperation
  fcAssert (out ≠ []) .invalidOperation
  fcAssert (verifySum [blind o.blindingFactor (toUInt64 o.amount.amount)] out 0) .invalidOperation
  checkRanges o.outputs

def TransferFromBlind.validate [LinearOrder Commitment] (o : TransferFromBlind K A) : Eval Unit := do
  fcAssert (o.amount.amount > 0) .invalidOperation
  fcAssert (o.fee.amount ≥ 0) .invalidOperation
  fcAssert (o.inputs ≠ []) .invalidOperation
  fcAssert (o.amount.assetId = o.fee.assetId) .invalidOperation
  let ins := o.inputs.map (·.commitment)
  checkSorted ins
  fcAssert (verifySum ins [blind o.blindingFactor (toUInt64 (o.fee.amount + o.amount.amount))] 0) .invalidOperation

def BlindTransfer.validate [LinearOrder Commitment] [RangeProof P] (o : BlindTransfer P K A) : Eval Unit := do
  let ins := o.inputs.map (·.commitment)
  let out := o.outputs.map (·.commitment)
  checkSorted ins
  checkSorted out
  fcAssert (∀ x ∈ o.outputs, ¬x.owner.isImpossible) .invalidOperation
  fcAssert (ins ≠ []) .invalidOperation
  fcAssert (verifySum ins out o.fee.amount) .invalidOperation
  checkRanges o.outputs
  fcAssert (verifySum ins out o.fee.amount) .invalidOperation

namespace Database
variable [DecidableEq (Authority K A)] (d : Database P K A)

/-! ### Fees -/

/-- `generic_evaluator::convert_fee` -/
def convertFee (paid : PaidFee) : Eval (Database P K A) :=
  if paid.fee.assetId = 0 then .ok d
  else do
    let market ← d.market.accumulateFees paid.fee
    return { d with market := ← market.fundFeePool paid.fee.assetId (-paid.core) }

/-- `pay_fba_fee`, and `generic_evaluator::pay_fee` in its place before the hardfork or without a configuration -/
def payFee (id : FbaAccumulatorId) (payer : AccountId) (core : Int) : Eval (Database P K A) :=
  let fba := d.fbaAccumulators id
  if d.market.headBlockTime ≥ hardfork563Time ∧ fba.configured then do
    let accumulatedFbaFees ← safe (fba.accumulatedFbaFees + core)
    return { d with fbaAccumulators := Function.update d.fbaAccumulators id { fba with accumulatedFbaFees } }
  else do return { d with market := ← d.market.payFee payer core }

def adjustBalance (account : AccountId) (delta : Asset) : Eval (Database P K A) := do
  return { d with market := ← d.market.adjustBalance account delta }

/-- `evaluator::evaluate` and `evaluator::apply` of an operation, given its `do_evaluate` and `do_apply` -/
def startEvaluate (op : Operation P K A) (payer : AccountId) (fee : Asset) (id : FbaAccumulatorId) (doEvaluate : Eval Unit)
    (doApply : Database P K A → Eval (Database P K A)) : Eval (Database P K A) := do
  let paid ← d.market.prepareFee payer fee
  fcAssert (paid.core ≥ d.currentFees op) .fee
  doEvaluate
  let d ← d.convertFee paid
  let d ← d.payFee id payer paid.core
  let d ← doApply d
  d.adjustBalance payer fee.neg

/-! ### Blinded balances -/

/-- `by_commitment` -/
def findBlinded (c : Commitment) : Option (BlindedBalance K A) := d.blindedBalances.find? (·.commitment = c)

/-- `create< blinded_balance_object >`; there is one for a commitment. -/
def createBlinded (assetId : AssetId) (out : BlindOutput P K A) : Eval (Database P K A) := do
  fcAssert (d.findBlinded out.commitment = none) .notUnique
  return { d with blindedBalances := d.blindedBalances ++ [⟨out.commitment, assetId, out.owner⟩] }

/-- An input is removed. -/
def removeBlinded (i : BlindInput K A) : Eval (Database P K A) := do
  fcAssert (d.findBlinded i.commitment ≠ none) .objectNotFound
  return { d with blindedBalances := d.blindedBalances.eraseP (·.commitment = i.commitment) }

/-- `confidential_supply += delta` -/
def changeConfidential (delta : Asset) : Eval (Database P K A) := do
  let _ ← d.market.getDynamicData delta.assetId
  let supply ← safe (d.confidentialSupply delta.assetId + delta.amount)
  fcAssert (supply ≥ 0) .fundTooSmall
  return { d with confidentialSupply := Function.update d.confidentialSupply delta.assetId supply }

/-- All accounts of an output's owner exist. -/
def checkAccounts (out : BlindOutput P K A) : Eval Unit := out.owner.accountAuths.keys.forM fun a => do
  let _ ← d.market.getAccount a

/-- An input is of the asset and of the owner that it says. -/
def checkInput (assetId : AssetId) (i : BlindInput K A) : Eval Unit :=
  match d.findBlinded i.commitment with
  | none => .error .objectNotFound
  | some b => do
    fcAssert (b.assetId = assetId) .assetMismatch
    fcAssert (b.owner = i.owner) .notOwner

end Database

/-! ### Evaluators -/

section
variable [DecidableEq (Authority K A)] (d : Database P K A)

namespace TransferToBlind
variable (o : TransferToBlind P K A)

def doEvaluate : Eval Unit := do
  let atype ← d.market.getAsset o.amount.assetId
  fcAssert (¬hasFlag atype.options.flags disableConfidential) .unauthorized
  fcAssert (¬hasFlag atype.options.flags Chain.transferRestricted) .unauthorized
  fcAssert (¬hasFlag atype.options.flags Chain.whiteList) .unauthorized
  o.outputs.forM d.checkAccounts

def doApply : Eval (Database P K A) := do
  let d ← d.adjustBalance o.«from» o.amount.neg
  let d ← d.changeConfidential o.amount
  o.outputs.foldlM (fun d out => d.createBlinded o.amount.assetId out) d

end TransferToBlind

namespace TransferFromBlind
variable (o : TransferFromBlind K A)

def doEvaluate : Eval Unit := do
  let _ ← d.market.getAsset o.fee.assetId
  o.inputs.forM (d.checkInput o.fee.assetId)

def doApply : Eval (Database P K A) := do
  let d ← d.adjustBalance grapheneTempAccount o.fee
  let d ← d.adjustBalance o.«to» o.amount
  let d ← o.inputs.foldlM (fun d i => d.removeBlinded i) d
  let spent ← safe (o.amount.amount + o.fee.amount)
  d.changeConfidential ⟨-spent, o.amount.assetId⟩

end TransferFromBlind

namespace BlindTransfer
variable (o : BlindTransfer P K A)

def doEvaluate : Eval Unit := do
  let _ ← d.market.getAsset o.fee.assetId
  o.outputs.forM d.checkAccounts
  o.inputs.forM (d.checkInput o.fee.assetId)

def doApply : Eval (Database P K A) := do
  let d ← d.adjustBalance grapheneTempAccount o.fee
  let d ← o.inputs.foldlM (fun d i => d.removeBlinded i) d
  let d ← o.outputs.foldlM (fun d out => d.createBlinded o.fee.assetId out) d
  d.changeConfidential o.fee.neg

end BlindTransfer

/-- An accepted operation and what it makes of the state -/
def Database.apply [LinearOrder Commitment] [RangeProof P] : Operation P K A → Eval (Database P K A)
  | .transferToBlind o => do
    o.validate
    d.startEvaluate (.transferToBlind o) o.«from» o.fee .transferToBlind (o.doEvaluate d) o.doApply
  | .transferFromBlind o => do
    o.validate
    d.startEvaluate (.transferFromBlind o) grapheneTempAccount o.fee .transferFromBlind (o.doEvaluate d) o.doApply
  | .blindTransfer o => do
    o.validate
    d.startEvaluate (.blindTransfer o) grapheneTempAccount o.fee .blindTransfer (o.doEvaluate d) o.doApply

end

end Khc.Blind
