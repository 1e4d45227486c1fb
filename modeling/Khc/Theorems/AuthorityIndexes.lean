import Khc.Auth.Indexes

/-! # What the secondary indexes of accounts and proposals find -/

/-! Who refers to whom: that the index of the members of the accounts is what the accounts make it. A callback that throws leaves the
    account as it has changed it so far, and the undoing takes the members of that for those which the index has. -/

namespace Khc.Auth

open Db Lib Watched

section
variable {K A : Type} [LinearOrder K] [LinearOrder A] [AddressHash K A]

variable (K A) in
abbrev IndexedAccounts := Watched Unit (AccountObject K A) (AccountMemberIndex K A)

variable (K A) in
/-- No account is there, and nothing is indexed. -/
def noAccounts (maxSize : Nat) : IndexedAccounts K A where
  db :=
    { objects := ∅
      nextId := fun _ => ⟨(), 0⟩
      activeSessions := 0
      disabled := false
      stack := []
      maxSize := maxSize }
  index := {}

/-- The maps are those that the accounts make. -/
structure Faithful (w : IndexedAccounts K A) : Prop where
  accounts : ∀ m id, (m, id) ∈ w.index.accounts.toAccounts ↔ ∃ a, w.db.objects.lookup id = some a ∧ m ∈ a.accountMembers
  keys : ∀ m id, (m, id) ∈ w.index.keys.toAccounts ↔ ∃ a, w.db.objects.lookup id = some a ∧ m ∈ a.keyMembers
  addresses : ∀ m id, (m, id) ∈ w.index.addresses.toAccounts ↔ ∃ a, w.db.objects.lookup id = some a ∧ m ∈ a.addressMembers

/-- The undoing of an interrupted modification, and the end of one in which others were made, make the changes that are needed. -/
structure Clear (w : IndexedAccounts K A) (c : WatchedCommand Unit (AccountObject K A)) : Prop where
  accounts : w.Clears (accountSchema K A) (accountMemberHooks K A) (fun i => i.accounts.before) AccountObject.accountMembers c
  keys : w.Clears (accountSchema K A) (accountMemberHooks K A) (fun i => i.keys.before) AccountObject.keyMembers c
  addresses : w.Clears (accountSchema K A) (accountMemberHooks K A) (fun i => i.addresses.before) AccountObject.addressMembers c

theorem accounts_follow : (accountMemberHooks K A).Follows (fun i => i.accounts.listed) (fun i => i.accounts.before) AccountObject.accountMembers :=
  (Memberships.follows AccountObject.accountMembers).comap (fun _ _ => rfl) (fun _ _ => rfl) (fun _ _ => rfl) fun _ _ => rfl

theorem keys_follow : (accountMemberHooks K A).Follows (fun i => i.keys.listed) (fun i => i.keys.before) AccountObject.keyMembers :=
  (Memberships.follows AccountObject.keyMembers).comap (fun _ _ => rfl) (fun _ _ => rfl) (fun _ _ => rfl) fun _ _ => rfl

theorem addresses_follow :
    (accountMemberHooks K A).Follows (fun i => i.addresses.listed) (fun i => i.addresses.before) AccountObject.addressMembers :=
  (Memberships.follows AccountObject.addressMembers).comap (fun _ _ => rfl) (fun _ _ => rfl) (fun _ _ => rfl) fun _ _ => rfl

omit [AddressHash K A] in
theorem Memberships.mem_iff {M : Type} [DecidableEq M] {w : IndexedAccounts K A} {part : AccountMemberIndex K A → Memberships M}
    {members : AccountObject K A → Finset M} {id : ObjectId Unit} (h : w.ListedAt (fun i => (part i).listed) members id) (m : M) :
    (m, id) ∈ (part w.index).toAccounts ↔ ∃ a, w.db.objects.lookup id = some a ∧ m ∈ members a := by
  rw [← Entries.mem_listed, show (part w.index).toAccounts.listed id = _ from h, membersOf]
  cases w.db.objects.lookup id with
  | none => simp
  | some a => simp

/-- A state of a run from no accounts -/
abbrev AccountsReach (P : IndexedAccounts K A → WatchedCommand Unit (AccountObject K A) → Prop) (maxSize : Nat) : IndexedAccounts K A → Prop :=
  Reaches (accountSchema K A) (accountMemberHooks K A) P (noAccounts K A maxSize)

/-- In every state that a run reaches whose interruptions and nested modifications are clear -/
theorem memberships_kept {maxSize : Nat} {w : IndexedAccounts K A} (h : AccountsReach Clear maxSize w) : Faithful w where
  accounts m _ := Memberships.mem_iff (h.listedAt accounts_follow (fun _ _ hc => hc.accounts) rfl) m
  keys m _ := Memberships.mem_iff (h.listedAt keys_follow (fun _ _ hc => hc.keys) rfl) m
  addresses m _ := Memberships.mem_iff (h.listedAt addresses_follow (fun _ _ hc => hc.addresses) rfl) m

end

section

def memoAccount (key : Nat) : AccountObject Nat Nat := ⟨"alice", ⟨0, ∅, ∅, ∅⟩, ⟨0, ∅, ∅, ∅⟩, ⟨key⟩⟩

def createAccount : WatchedCommand Unit (AccountObject Nat Nat) := .call (.create () fun _ => memoAccount 1)

/-- The memo key has become 2 when the callback throws. -/
def interruptAccount (order : IterationOrder Unit (AccountObject Nat Nat)) : WatchedCommand Unit (AccountObject Nat Nat) :=
  .interrupted ⟨(), 0⟩ (fun a => .error { a with options := ⟨2⟩ }) order

def indexedAfter : List (WatchedCommand Unit (AccountObject Nat Nat)) → IndexedAccounts Nat Nat :=
  List.foldl (fun w c => (step (accountSchema Nat Nat) (accountMemberHooks Nat Nat) w c).getD w) (noAccounts Nat Nat 256)

/-- The account was there before the session. -/
def oldInterrupted : WatchedCommand Unit (AccountObject Nat Nat) := interruptAccount ⟨[⟨⟨(), 0⟩, memoAccount 1⟩], [], []⟩

/-- The account was created in the session. -/
def newInterrupted : WatchedCommand Unit (AccountObject Nat Nat) := interruptAccount ⟨[], [⟨(), 0⟩], []⟩

variable {P : IndexedAccounts Nat Nat → WatchedCommand Unit (AccountObject Nat Nat) → Prop} {l : List (WatchedCommand Unit (AccountObject Nat Nat))}
  {c : WatchedCommand Unit (AccountObject Nat Nat)}

theorem reaches_indexedAfter (h : AccountsReach P 256 (indexedAfter l))
    (hproper : (indexedAfter l).Proper (accountSchema Nat Nat) (accountMemberHooks Nat Nat) c) (hP : P (indexedAfter l) c)
    (hs : (step (accountSchema Nat Nat) (accountMemberHooks Nat Nat) (indexedAfter l) c).isSome) :
    AccountsReach P 256 (indexedAfter (l ++ [c])) := by
  unfold indexedAfter
  rw [List.foldl_append]
  exact h.getD hproper hP hs

/-- The key 1 stays with the account that is not there. -/
theorem memberships_stale : ∃ w, AccountsReach (K := Nat) (A := Nat) (fun _ _ => True) 256 w ∧ ¬Faithful w := by
  refine ⟨indexedAfter [.start, createAccount, newInterrupted], ?_, fun h => ?_⟩
  · have h₁ := reaches_indexedAfter (P := fun _ _ => True) (l := []) (c := .start) .start trivial trivial (by decide)
    have h₂ := reaches_indexedAfter (c := createAccount) h₁ trivial trivial (by decide)
    refine reaches_indexedAfter h₂ (proper_interrupted (v := memoAccount 1) (by rfl) ?_) trivial (by decide)
    rintro s ⟨⟩
    exact ⟨rfl, rfl, rfl⟩
  · obtain ⟨a, ha, -⟩ := (h.keys 1 ⟨(), 0⟩).mp (by decide)
    have hnone : (indexedAfter [.start, createAccount, newInterrupted]).db.objects.lookup ⟨(), 0⟩ = none := by decide
    rw [hnone] at ha
    cases ha

theorem memberships_kept_interrupted : Faithful (indexedAfter [createAccount, .start, oldInterrupted]) := by
  have h₁ := reaches_indexedAfter (P := Clear) (l := []) (c := createAccount) .start trivial ⟨trivial, trivial, trivial⟩ (by decide)
  have h₂ := reaches_indexedAfter (c := .start) h₁ trivial ⟨trivial, trivial, trivial⟩ (by decide)
  have hclear : Clear (indexedAfter [createAccount, .start]) oldInterrupted :=
    ⟨clears_of_unrecorded (by decide) (by decide), clears_of_unrecorded (by decide) (by decide), clears_of_unrecorded (by decide) (by decide)⟩
  refine memberships_kept (reaches_indexedAfter (c := oldInterrupted) h₂ (proper_interrupted (v := memoAccount 1) (by rfl) ?_) hclear (by decide))
  rintro s ⟨⟩
  exact ⟨rfl, rfl, rfl⟩

end

end Khc.Auth

/-! Which proposals an account is found by: that they are those in which it is to approve or has approved, as long as only those approve
    who are to. Modifications do not reach the index, so an approval of another account is in it only after an undoing. -/

namespace Khc.Auth

open Db Lib Watched

section
variable {K A : Type} [LinearOrder K] [LinearOrder A]

variable (K A) in
abbrev IndexedProposals := Watched Unit (IndexedProposal K A) RequiredApprovalIndex

variable (K A) in
def noProposals (maxSize : Nat) : IndexedProposals K A where
  db :=
    { objects := ∅
      nextId := fun _ => ⟨(), 0⟩
      activeSessions := 0
      disabled := false
      stack := []
      maxSize := maxSize }
  index := {}

/-- A state of a run from no proposals -/
abbrev ProposalsReach (P : IndexedProposals K A → ProposalCommand K A → Prop) (maxSize : Nat) : IndexedProposals K A → Prop :=
  Reaches (proposalSchema K A) (requiredApprovalHooks K A) (fun w c => ∃ p, c = p.command ∧ P w p) (noProposals K A maxSize)

/-- The index is the one that the proposals make. -/
def Indexed (w : IndexedProposals K A) : Prop := ∀ a id, (a, id) ∈ w.index.accountToProposals ↔
  ∃ p, w.db.objects.lookup id = some p ∧ (p.Requires a ∨ p.HasApproval a)

/-- Only those approve whose approval is required. -/
def AddsRequired (w : IndexedProposals K A) : ProposalCommand K A → Prop
  | .update id o _ => ∀ p ∈ w.getObject id, ∀ a, a ∈ o.toAdd.active ∨ a ∈ o.toAdd.owner → p.value.Requires a
  | _ => True

theorem within_create (o : ProposalCreateOperation K A) : o.proposal.Within := by
  rintro a (h | h)
  · exact absurd (FlatSet.mem_ofList.mp h) List.not_mem_nil
  · exact absurd (FlatSet.mem_ofList.mp h) List.not_mem_nil

/-- An update by required approvals leaves the accounts as they are. -/
theorem update_within {o : ProposalUpdateOperation K} {db : Database K A} {p p' : IndexedProposal K A} (hp : p.Within)
    (hadds : ∀ a, a ∈ o.toAdd.active ∨ a ∈ o.toAdd.owner → p.Requires a) (h : o.updateIndexed db p = .ok p') :
    p'.Within ∧ p'.accounts = p.accounts := by
  unfold ProposalUpdateOperation.updateIndexed at h
  split at h
  · rename_i p₁ hupdate
    obtain rfl := Except.ok.inj h
    simp only [ProposalUpdateOperation.update, bind_eq_ok] at hupdate
    obtain ⟨_, -, _, -, hmodify⟩ := hupdate
    obtain rfl := Except.ok.inj hmodify
    have hwithin : IndexedProposal.Within { p with toProposalObject := o.modify p.toProposalObject } := by
      rintro a (h | h)
      · rcases FlatSet.mem_union.mp (FlatSet.mem_diff.mp h).1 with h | h
        · exact hp a (.inl h)
        · exact hadds a (.inl h)
      · rcases FlatSet.mem_union.mp (FlatSet.mem_diff.mp h).1 with h | h
        · exact hp a (.inr h)
        · exact hadds a (.inr h)
    refine ⟨hwithin, Finset.ext fun a => ?_⟩
    rw [hwithin.mem_accounts, hp.mem_accounts]
    rfl
  · cases h

theorem steadies_of_addsRequired {w : IndexedProposals K A} {c : ProposalCommand K A} (h : AddsRequired w c) :
    w.Steadies IndexedProposal.Within IndexedProposal.accounts c.command := by
  cases c with
  | create o => exact fun _ => within_create o
  | update id o db => exact fun p hp hwithin p' hp' => update_within hwithin (h p hp) hp'
  | _ => trivial

theorem noProposals_level {maxSize : Nat} : (noProposals K A maxSize).Level (proposalSchema K A) (fun i => i.accountToProposals.listed)
    IndexedProposal.Within IndexedProposal.accounts where
  enabled := rfl
  wellFormed :=
    { unique := fun a b v w hv => by cases hv
      fresh := fun id hid => by cases hid
      home := fun _ => rfl }
  good id v hv := by cases hv
  chain := .nil
  listed _ := rfl

/-- In every state that a run reaches in which only those approve whose approval is required -/
theorem approvals_indexed {maxSize : Nat} {w : IndexedProposals K A} (h : ProposalsReach AddsRequired maxSize w) : Indexed w := by
  have hlevel := h.level (fun _ _ => rfl) requiredApproval_lists
    (fun w c ⟨p, hc, hadds⟩ => hc ▸ steadies_of_addsRequired hadds) noProposals_level
  intro a id
  rw [← Entries.mem_listed, show w.index.accountToProposals.listed id = _ from hlevel.listed id, membersOf]
  cases w.db.objects.lookup id with
  | none => simp
  | some p => simpa using IndexedProposal.mem_accounts

end

section

/-- A proposal that account 1 is to approve -/
def proposeTo1 : ProposalCommand Nat Nat := .create ⟨[⟨[1], [], []⟩], 100, none, rfl⟩

def nobody : Database Nat Nat :=
  { active := fun _ => ⟨⟨0, ∅, ∅, ∅⟩, rfl, by decide⟩
    owner := fun _ => ⟨⟨0, ∅, ∅, ∅⟩, rfl, by decide⟩
    maxAuthorityDepth := 2
    headBlockTime := 0 }

def approveBy (a : AccountId) : ProposalCommand Nat Nat := .update ⟨(), 0⟩ ⟨⟨.ofList [], .ofList [a], .ofList []⟩, .none⟩ nobody

def proposalsAfter : List (ProposalCommand Nat Nat) → IndexedProposals Nat Nat :=
  List.foldl (fun w c => (step (proposalSchema Nat Nat) (requiredApprovalHooks Nat Nat) w c.command).getD w) (noProposals Nat Nat 256)

variable {P : IndexedProposals Nat Nat → ProposalCommand Nat Nat → Prop} {l : List (ProposalCommand Nat Nat)} {c : ProposalCommand Nat Nat}

theorem reaches_proposalsAfter (h : ProposalsReach P 256 (proposalsAfter l))
    (hproper : (proposalsAfter l).Proper (proposalSchema Nat Nat) (requiredApprovalHooks Nat Nat) c.command) (hP : P (proposalsAfter l) c)
    (hs : (step (proposalSchema Nat Nat) (requiredApprovalHooks Nat Nat) (proposalsAfter l) c.command).isSome) :
    ProposalsReach P 256 (proposalsAfter (l ++ [c])) := by
  unfold proposalsAfter
  rw [List.foldl_append]
  exact h.getD hproper ⟨c, rfl, hP⟩ hs

/-- The approval of account 2, which is not required, is not indexed. -/
theorem approvals_not_indexed : ∃ w, ProposalsReach (K := Nat) (A := Nat) (fun _ _ => True) 256 w ∧ ¬Indexed w := by
  refine ⟨proposalsAfter [proposeTo1, approveBy 2], ?_, fun h => ?_⟩
  · have h₁ := reaches_proposalsAfter (P := fun _ _ => True) (l := []) (c := proposeTo1) .start trivial trivial (by decide)
    exact reaches_proposalsAfter (c := approveBy 2) h₁ trivial trivial (by decide)
  · have hindexed := (h 2 ⟨(), 0⟩).mpr ⟨_, rfl, .inr (by decide)⟩
    revert hindexed
    decide

theorem approvals_indexed_required : Indexed (proposalsAfter [proposeTo1, approveBy 1]) := by
  have h₁ := reaches_proposalsAfter (P := AddsRequired) (l := []) (c := proposeTo1) .start trivial trivial (by decide)
  refine approvals_indexed (reaches_proposalsAfter (c := approveBy 1) h₁ trivial ?_ (by decide))
  rintro p ⟨⟩ a ha
  have h1 : a = 1 := by
    rcases ha with ha | ha
    · exact List.mem_singleton.mp (FlatSet.mem_ofList.mp ha)
    · exact absurd (FlatSet.mem_ofList.mp ha) List.not_mem_nil
  subst h1
  decide

end

end Khc.Auth
