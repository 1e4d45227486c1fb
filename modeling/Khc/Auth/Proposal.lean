import Khc.Auth.Verify

/-! Proposals: transactions that wait for approvals, from `proposal_object` and `proposal_update_evaluator`. -/

namespace Khc.Auth

open Lib

variable (K A : Type) [LinearOrder K] [LinearOrder A]

/-- The authority of an account. It lists no addresses, and no more members than a `uint16_t` counts. -/
structure AccountAuthority extends Authority K A where
  addresses : addressAuths.entries = []
  membership : toAuthority.numAuths ≤ 65535

/-- What the authorisation of a proposal reads of the chain -/
structure Database where
  active : AccountId → AccountAuthority K A
  owner : AccountId → AccountAuthority K A
  maxAuthorityDepth : Nat
  headBlockTime : Nat

/-- The approvals a proposal has, or is given: of keys, and of accounts by their active and their owner authority -/
structure Approvals where
  key : FlatSet K
  active : FlatSet AccountId
  owner : FlatSet AccountId

/-- A `proposal_object`. The operations are what they require, and none of them requires other authorities: the proposal would not
    have been created. -/
structure ProposalObject where
  proposedOps : List (RequiredAuthorities K A)
  reviewPeriodTime : Option Nat
  available : Approvals K
  noOther : proposedOps.flatMap (·.other) = []

/-- A `proposal_update_operation` -/
structure ProposalUpdateOperation where
  toAdd : Approvals K
  toRemove : Approvals K

variable {K A}

namespace ProposalObject

/-- The authorities that a transaction of the proposed operations would be checked for -/
def verification (p : ProposalObject K A) (db : Database K A) : Verification K A where
  ops := p.proposedOps
  sigs := p.available.key
  getActive id := some (db.active id).toAuthority
  getOwner id := some (db.owner id).toAuthority
  maxRecursionDepth := db.maxAuthorityDepth
  allowCommitte := true
  activeAprovals := p.available.active
  ownerApprovals := p.available.owner

/-- Whether the check of the authorities throws; only undefined behaviour is not caught. -/
def isAuthorizedToExecute [AddressHash K A] (p : ProposalObject K A) (db : Database K A) : Eval K A Bool :=
  match (p.verification db).verifyAuthority with
  | .ok () => .ok true
  | .error .undefinedBehavior => .error .undefinedBehavior
  | .error _ => .ok false

end ProposalObject

/-- Why a proposal is not updated -/
inductive UpdateError where
  /-- This proposal is in its review period. No new approvals may be added. -/
  | inReviewPeriod
  | activeNotAvailable (id : AccountId)
  | ownerNotAvailable (id : AccountId)
  /-- Cannot add and remove approval at the same time. -/
  | addedAndRemoved
  | empty

namespace Approvals

/-- The account counts as approved where its active authority is asked for; the temporary account always does. -/
def Counts (a : Approvals K) (x : AccountId) : Prop := x = grapheneTempAccount ∨ x ∈ a.active ∨ x ∈ a.owner

def isEmpty (a : Approvals K) : Bool := a.key.elems.isEmpty && a.active.elems.isEmpty && a.owner.elems.isEmpty

def union (a b : Approvals K) : Approvals K := ⟨a.key.union b.key, a.active.union b.active, a.owner.union b.owner⟩

/-- Nothing is approved. -/
def none : Approvals K := ⟨.ofList [], .ofList [], .ofList []⟩

end Approvals

namespace ProposalUpdateOperation
variable (o : ProposalUpdateOperation K)

def validate : Except UpdateError Unit := do
  ensure (¬(o.toAdd.isEmpty ∧ o.toRemove.isEmpty)) .empty
  ensure (∀ a ∈ o.toAdd.active.elems, a ∉ o.toRemove.active) .addedAndRemoved
  ensure (∀ a ∈ o.toAdd.owner.elems, a ∉ o.toRemove.owner) .addedAndRemoved
  ensure (∀ a ∈ o.toAdd.key.elems, a ∉ o.toRemove.key) .addedAndRemoved

def doEvaluate (db : Database K A) (p : ProposalObject K A) : Except UpdateError Unit := do
  if p.reviewPeriodTime.any (· ≤ db.headBlockTime) then
    ensure (o.toAdd.active.elems.isEmpty ∧ o.toAdd.owner.elems.isEmpty) .inReviewPeriod
  o.toRemove.active.elems.forM fun id => ensure (id ∈ p.available.active) (.activeNotAvailable id)
  o.toRemove.owner.elems.forM fun id => ensure (id ∈ p.available.owner) (.ownerNotAvailable id)

/-- The change that `do_apply` makes to the proposal -/
def modify (p : ProposalObject K A) : ProposalObject K A :=
  { p with
    available :=
      { key := (p.available.key.union o.toAdd.key).diff o.toRemove.key
        active := (p.available.active.union o.toAdd.active).diff o.toRemove.active
        owner := (p.available.owner.union o.toAdd.owner).diff o.toRemove.owner } }

/-- The proposal after the update, before it is tried to be executed -/
def update (db : Database K A) (p : ProposalObject K A) : Except UpdateError (ProposalObject K A) := do
  o.validate
  o.doEvaluate db p
  return o.modify p

end ProposalUpdateOperation

end Khc.Auth
