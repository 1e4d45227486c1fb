import Khc.Auth.Unused

/-! Proposals whose accounts have one key each. They are authorised when every key is needed, and not when one is not. -/

namespace Khc.Auth

open Lib SignState Authority

variable {K A : Type} [LinearOrder K] [LinearOrder A]

/-- The authority of one key -/
def single (k : K) : AccountAuthority K A where
  weightThreshold := 1
  accountAuths := ∅
  keyAuths := FlatMap.set ∅ k 1
  addressAuths := ∅
  addresses := rfl
  membership := (by decide : 1 ≤ 65535)

/-- The authority of one account -/
def link (x : AccountId) : AccountAuthority K A where
  weightThreshold := 1
  accountAuths := FlatMap.set ∅ x 1
  keyAuths := ∅
  addressAuths := ∅
  addresses := rfl
  membership := (by decide : 1 ≤ 65535)

section
variable [AddressHash K A] {c : SignContext K A} {n : Nat} {s s' : SignState K A} {k u : K} {x y : AccountId}

end

/-! ### Proposals that need every key -/

/-- A proposal that requires active authorities and owner authorities -/
def requiring (rs os : List AccountId) (a : Approvals K) : ProposalObject K A where
  proposedOps := [{ active := rs, owner := os, other := [] }]
  reviewPeriodTime := none
  available := a
  noOther := rfl

section
variable {rs os : List AccountId} {a : Approvals K} {db : Database K A} {f g : AccountId → Option K} {depth : Nat} {id : AccountId}
  {k : K} {s : SignState K A}

variable [AddressHash K A]

end

end Khc.Auth

/-! Proposals whose last account is authorised by a chain of accounts longer than the recursion limit, when an earlier check has found
    where the chain starts. -/

namespace Khc.Auth

open Lib SignState Authority

variable {K A : Type} [LinearOrder K] [LinearOrder A]

/-- A chain of accounts that ends at the temporary account, longer than the recursion limit, and an account whose authority is the
    first of the chain -/
def chained (x first depth : Nat) : Database K A where
  active y := if y = x then link first else if y = first then link grapheneTempAccount else link (y - 1)
  owner y := if y = x then link first else link (y - 1)
  maxAuthorityDepth := depth
  headBlockTime := 0

/-- The check of a proposal with such accounts -/
def chainCheck (rs os : List AccountId) (a : Approvals K) (x first depth : Nat) : Verification K A :=
  (requiring rs os a).verification (chained x first depth)

section
variable [AddressHash K A] {rs os : List AccountId} {a : Approvals K} {x first depth n j : Nat} {s : SignState K A}

/-- Every approval is of an account before the chain. -/
def Before (a : Approvals K) (first : Nat) : Prop := grapheneTempAccount < first ∧ (∀ y ∈ a.active, y < first) ∧ ∀ y ∈ a.owner, y < first

omit [AddressHash K A] in
theorem Before.start (h : Before a first) (i : Nat) : first + i ∉ (chainCheck rs os a x first depth : Verification K A).start.approvedBy := by
  intro hmem
  have hle : ¬first + i < first := Nat.not_lt.mpr (Nat.le_add_right first i)
  rcases Verification.mem_start_approvedBy.mp hmem with heq | hy | hy
  · exact hle (heq ▸ h.1)
  · exact hle (h.2.1 _ hy)
  · exact hle (h.2.2 _ hy)

/-- The account has approved with the authority that is asked for, the owner or the active one. -/
def ApprovedAs (byOwner : Bool) (a : Approvals K) (x : AccountId) : Prop := if byOwner then x ∈ a.owner else a.Counts x

end

end Khc.Auth
