import Khc.Auth.KeyedProposals

/-! Approvals that are added to a proposal: whether what was sufficient stays so. -/

namespace Khc.Auth

open Lib SignState Authority

variable {K A : Type} [LinearOrder K] [LinearOrder A]

/-! ### Proposals without keys and levels -/

section
variable [AddressHash K A] {p p' : ProposalObject K A} {db : Database K A}

end

/-! ### Main result -/

namespace Approvals
variable {given added : Approvals K} {x : AccountId} {first : Nat}

theorem counts_union : (given.union added).Counts x ↔ given.Counts x ∨ x ∈ added.active ∨ x ∈ added.owner := by
  simp only [Counts, union, FlatSet.mem_union]
  tauto

end Approvals

section
variable {keys : List K} {first : Nat} {f : AccountId → Option K} {x : AccountId} {k : K}

end

theorem Before.not_counts {a : Approvals K} {first x : Nat} (h : Before a first) (hx : first ≤ x) : ¬a.Counts x := by
  rintro (heq | hy | hy)
  · exact Nat.not_lt.mpr hx (heq ▸ h.1)
  · exact Nat.not_lt.mpr hx (h.2.1 _ hy)
  · exact Nat.not_lt.mpr hx (h.2.2 _ hy)

section
variable [AddressHash K A] {given added : Approvals K} {depth : Nat} {x : AccountId} {k : K}

/-- Whatever the proposal and the accounts, the added approvals keep it authorised. -/
def Keeps (A : Type) [LinearOrder A] [AddressHash K A] (given added : Approvals K) (depth : Nat) : Prop :=
  ∀ (p p' : ProposalObject K A) (db : Database K A), p.available = given → db.maxAuthorityDepth = depth →
    ProposalUpdateOperation.update { toAdd := added, toRemove := .none } db p = .ok p' →
      p.isAuthorizedToExecute db = .ok true → p'.isAuthorizedToExecute db = .ok true

/-- An account that approves as it had not before. -/
structure Newly (byOwner : Bool) (given added : Approvals K) (x : AccountId) : Prop where
  before : ¬ApprovedAs byOwner given x
  after : ApprovedAs byOwner (given.union added) x

omit [AddressHash K A] [LinearOrder A] in
theorem Newly.lt {byOwner : Bool} {first : Nat} (h : Newly byOwner given added x) (hfirst : Before (given.union added) first) : x < first := by
  cases byOwner with
  | true => exact hfirst.2.2 x h.after
  | false => exact Nat.lt_of_not_le fun hle => hfirst.not_counts hle h.after

omit [AddressHash K A] [LinearOrder A] in
theorem Newly.isEmpty {byOwner : Bool} (h : Newly byOwner given added x) : added.isEmpty = false := by
  have hmem : x ∈ added.active ∨ x ∈ added.owner := by
    cases byOwner with
    | true => exact .inr ((FlatSet.mem_union.mp h.after).resolve_left h.before)
    | false => exact (Approvals.counts_union.mp h.after).resolve_left h.before
  have hne : added.active.elems ≠ [] ∨ added.owner.elems ≠ [] :=
    hmem.imp (fun hx hnil => List.not_mem_nil (hnil ▸ (show x ∈ added.active.elems from hx)))
      fun hx hnil => List.not_mem_nil (hnil ▸ (show x ∈ added.owner.elems from hx))
  rcases hne with hne | hne <;> simp [Approvals.isEmpty, hne]

end

/-! ### A concrete case -/

end Khc.Auth
