import Khc.Auth.Proposal
import Khc.Db.Steady

/-! # The indexes of who refers to an account, and of what it is to approve -/

/-! The index of the accounts that refer to an account, a key or an address (`account_object.cpp`). -/

namespace Khc.Auth

open Db Lib

structure AccountOptions (K : Type) where
  memoKey : K

/-- An `account_object`, as far as it is indexed -/
structure AccountObject (K A : Type) [LinearOrder K] [LinearOrder A] where
  name : String
  owner : Authority K A
  active : Authority K A
  options : AccountOptions K

/-- One of the maps from members to accounts, and the members before a modification -/
structure Memberships (M : Type) where
  toAccounts : Entries Unit M := ∅
  before : Finset M := ∅

namespace Memberships
variable {V M : Type} [DecidableEq M] (i : Memberships M)

/-- The members that are no longer there are taken out, and those that were not there before are put in. -/
def update (after : Finset M) (id : ObjectId Unit) : Memberships M :=
  { i with toAccounts := (i.toAccounts.erase (i.before \ after) id).insert (after \ i.before) id }

def hooks (members : V → Finset M) : Hooks Unit V (Memberships M) where
  objectInserted o i := { i with toAccounts := i.toAccounts.insert (members o.value) o.id }
  objectRemoved o i := { i with toAccounts := i.toAccounts.erase (members o.value) o.id }
  aboutToModify o i := { i with before := members o.value }
  objectModified o i := i.update (members o.value) o.id

def listed : ObjectId Unit → Finset M := i.toAccounts.listed

variable {i} {after : Finset M} {id : ObjectId Unit}

theorem listed_update : (i.update after id).listed = Function.update i.listed id (i.listed id \ (i.before \ after) ∪ after \ i.before) := by
  unfold listed update
  rw [Entries.listed_insert, Entries.listed_erase, Function.update_self, Function.update_idem]

theorem follows (members : V → Finset M) : (hooks members).Follows listed before members where
  inserted o i := Entries.listed_insert
  removed o i := Entries.listed_erase
  about o i := rfl
  others o i id hid := by
    show (i.update _ _).listed id = _
    rw [listed_update, Function.update_of_ne hid]
  kept o i := rfl
  modified o i := by
    show (i.update _ _).listed o.id = _
    rw [listed_update, Function.update_self]

end Memberships

variable {K A : Type} [LinearOrder K] [LinearOrder A]

namespace AccountObject
variable [AddressHash K A] (a : AccountObject K A)

/-- `get_account_members` -/
def accountMembers : Finset AccountId := a.owner.accountAuths.keys.toFinset ∪ a.active.accountAuths.keys.toFinset

/-- `get_key_members` -/
def keyMembers : Finset K := Insert.insert a.options.memoKey (a.owner.keyAuths.keys.toFinset ∪ a.active.keyAuths.keys.toFinset)

/-- `get_address_members` -/
def addressMembers : Finset A :=
  Insert.insert (AddressHash.address a.options.memoKey) (a.owner.addressAuths.keys.toFinset ∪ a.active.addressAuths.keys.toFinset)

end AccountObject

/-- `account_member_index` -/
structure AccountMemberIndex (K A : Type) where
  accounts : Memberships AccountId := {}
  keys : Memberships K := {}
  addresses : Memberships A := {}

variable (K A) in
/-- No two accounts have the same name. -/
def accountSchema : Schema Unit (AccountObject K A) String := ⟨fun _ => [fun o => o.value.name]⟩

section
variable [AddressHash K A]

/-- What a hook does to each of the maps -/
def AccountMemberIndex.each (hook : {M : Type} → [DecidableEq M] → (AccountObject K A → Finset M) → Memberships M → Memberships M)
    (i : AccountMemberIndex K A) : AccountMemberIndex K A where
  accounts := hook AccountObject.accountMembers i.accounts
  keys := hook AccountObject.keyMembers i.keys
  addresses := hook AccountObject.addressMembers i.addresses

variable (K A) in
def accountMemberHooks : Hooks Unit (AccountObject K A) (AccountMemberIndex K A) where
  objectInserted o := AccountMemberIndex.each fun members => (Memberships.hooks members).objectInserted o
  objectRemoved o := AccountMemberIndex.each fun members => (Memberships.hooks members).objectRemoved o
  aboutToModify o := AccountMemberIndex.each fun members => (Memberships.hooks members).aboutToModify o
  objectModified o := AccountMemberIndex.each fun members => (Memberships.hooks members).objectModified o

end

end Khc.Auth

/-! The index of the proposals that an account is to approve, and what is done to proposals (`proposal_object.cpp`,
    `proposal_evaluator.cpp`). -/

namespace Khc.Auth

open Db Lib

variable (K A : Type) [LinearOrder K] [LinearOrder A]

/-- A `proposal_object` with what it is indexed by -/
structure IndexedProposal extends ProposalObject K A where
  expirationTime : Nat
  requiredActiveApprovals : FlatSet AccountId
  requiredOwnerApprovals : FlatSet AccountId

/-- A `proposal_create_operation` that has been evaluated -/
structure ProposalCreateOperation where
  proposedOps : List (RequiredAuthorities K A)
  expirationTime : Nat
  reviewPeriodSeconds : Option Nat
  noOther : proposedOps.flatMap (·.other) = []

/-- `required_approval_index`: a map from accounts to proposals -/
structure RequiredApprovalIndex where
  accountToProposals : Entries Unit AccountId := ∅

/-- What is done to proposals: a proposal is removed when it is executed, has expired or is deleted. -/
inductive ProposalCommand
  | create (o : ProposalCreateOperation K A)
  | update (id : ObjectId Unit) (o : ProposalUpdateOperation K) (db : Database K A)
  | remove (id : ObjectId Unit)
  | start
  | commit
  | merge (order : IterationOrder Unit (IndexedProposal K A))
  | undo (order : IterationOrder Unit (IndexedProposal K A))
  | popCommit (order : IterationOrder Unit (IndexedProposal K A))
  | setMaxSize (size : Nat)

/-- The proposals by id, and in the order in which they expire -/
def proposalSchema : Schema Unit (IndexedProposal K A) (Nat × Nat) := ⟨fun _ => [fun p => (p.value.expirationTime, p.id.instanceNumber)]⟩

variable {K A}

/-- Those who must give both authorities are left out of the active ones. -/
def ProposalCreateOperation.proposal (o : ProposalCreateOperation K A) : IndexedProposal K A :=
  let owner := FlatSet.ofList (o.proposedOps.flatMap (·.owner))
  { proposedOps := o.proposedOps
    reviewPeriodTime := o.reviewPeriodSeconds.map (o.expirationTime - ·)
    available := .none
    noOther := o.noOther
    expirationTime := o.expirationTime
    requiredActiveApprovals := (FlatSet.ofList (o.proposedOps.flatMap (·.active))).diff owner
    requiredOwnerApprovals := owner }

/-- The update that the evaluator makes; an operation that it refuses is not applied. -/
def ProposalUpdateOperation.updateIndexed (o : ProposalUpdateOperation K) (db : Database K A) (p : IndexedProposal K A) :
    Except (IndexedProposal K A) (IndexedProposal K A) :=
  match o.update db p.toProposalObject with
  | .ok p' => .ok { p with toProposalObject := p' }
  | .error _ => .error p

namespace IndexedProposal
variable (p : IndexedProposal K A)

def Requires (a : AccountId) : Prop := a ∈ p.requiredActiveApprovals ∨ a ∈ p.requiredOwnerApprovals

def HasApproval (a : AccountId) : Prop := a ∈ p.available.active ∨ a ∈ p.available.owner

instance (a : AccountId) : Decidable (p.Requires a) := inferInstanceAs (Decidable (_ ∨ _))

instance (a : AccountId) : Decidable (p.HasApproval a) := inferInstanceAs (Decidable (_ ∨ _))

/-- The accounts of the four loops of `object_inserted` and of `object_removed` -/
def accounts : Finset AccountId :=
  p.requiredActiveApprovals.elems.toFinset ∪ p.requiredOwnerApprovals.elems.toFinset ∪
    (p.available.active.elems.toFinset ∪ p.available.owner.elems.toFinset)

/-- Only required approvals are available. -/
def Within : Prop := ∀ a, p.HasApproval a → p.Requires a

variable {p}

theorem mem_accounts {a : AccountId} : a ∈ p.accounts ↔ p.Requires a ∨ p.HasApproval a := by
  simp only [accounts, Finset.mem_union, List.mem_toFinset]
  rfl

theorem Within.mem_accounts (h : p.Within) {a : AccountId} : a ∈ p.accounts ↔ p.Requires a :=
  IndexedProposal.mem_accounts.trans (or_iff_left_of_imp (h a))

end IndexedProposal

variable (K A) in
/-- The hooks; those of a modification are empty. -/
def requiredApprovalHooks : Hooks Unit (IndexedProposal K A) RequiredApprovalIndex where
  objectInserted p i := { i with accountToProposals := i.accountToProposals.insert p.value.accounts p.id }
  objectRemoved p i := { i with accountToProposals := i.accountToProposals.erase p.value.accounts p.id }
  aboutToModify _ i := i
  objectModified _ i := i

theorem requiredApproval_lists :
    (requiredApprovalHooks K A).Lists (fun i => i.accountToProposals.listed) IndexedProposal.accounts where
  inserted _ _ := Entries.listed_insert
  removed _ _ := Entries.listed_erase
  about _ _ := rfl
  others _ _ _ _ := rfl

def ProposalCommand.command : ProposalCommand K A → WatchedCommand Unit (IndexedProposal K A)
  | .create o => .call (.create () fun _ => o.proposal)
  | .update id o db => .call (.modify id (o.updateIndexed db))
  | .remove id => .call (.remove id)
  | .start => .start
  | .commit => .commit
  | .merge order => .merge order
  | .undo order => .undo order
  | .popCommit order => .popCommit order
  | .setMaxSize size => .setMaxSize size

end Khc.Auth
