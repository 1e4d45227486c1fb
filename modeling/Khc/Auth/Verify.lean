import Khc.Auth.Authority

/-! The check of the authorities that a transaction requires, from `sign_state` and `verify_authority`. -/

namespace Khc.Auth

open Lib

variable {K A : Type} [LinearOrder K] [LinearOrder A]

/-- What can go wrong; `undefinedBehavior` is a null pointer or the end of a map dereferenced. -/
inductive Error (K A : Type) [LinearOrder K] [LinearOrder A] where
  | undefinedBehavior
  /-- Committee account may only propose transactions -/
  | invalidCommitteeApproval
  /-- Missing Authority -/
  | txMissingOtherAuth (auth : Authority K A)
  /-- Missing Active Authority ${id} -/
  | txMissingActiveAuth (id : AccountId) (auth owner : Authority K A)
  /-- Missing Owner Authority ${id} -/
  | txMissingOwnerAuth (id : AccountId) (auth : Authority K A)
  /-- Unnecessary signature(s) detected -/
  | txIrrelevantSig

abbrev Eval (K A : Type) [LinearOrder K] [LinearOrder A] := Except (Error K A)

/-- The members of `sign_state` that a check leaves as they are -/
structure SignContext (K A : Type) [LinearOrder K] [LinearOrder A] where
  getActive : AccountId → Option (Authority K A)
  availableKeys : FlatSet K
  maxRecursion : Nat

/-- The members of `sign_state` that a check writes -/
structure SignState (K A : Type) [LinearOrder K] [LinearOrder A] where
  /-- The keys that have signed, with whether they were looked for -/
  providedSignatures : FlatMap K Bool
  approvedBy : FlatSet AccountId
  availableAddressSigs : Option (FlatMap A K)
  providedAddressSigs : Option (FlatMap A K)

/-- The keys by their addresses, each under every encoding -/
def addressSigs [AddressHash K A] (keys : List K) : FlatMap A K :=
  keys.foldl (fun m k => (encodings k).foldl (fun m a => m.set a k) m) ∅

namespace SignState

/-- The constructor, with a signature for each of the keys. -/
def init (sigs : FlatSet K) : SignState K A where
  providedSignatures := sigs.elems.foldl (fun m k => m.set k false) ∅
  approvedBy := FlatSet.ofList [grapheneTempAccount]
  availableAddressSigs := none
  providedAddressSigs := none

/-- `provided_signatures[ k ] = true` -/
def mark (s : SignState K A) (k : K) : SignState K A := { s with providedSignatures := s.providedSignatures.set k true }

def approve (s : SignState K A) (x : AccountId) : SignState K A := { s with approvedBy := s.approvedBy.insert x }

/-- `signed_by`, of a key -/
def signedByKey (c : SignContext K A) (k : K) (s : SignState K A) : Bool × SignState K A :=
  match s.providedSignatures.find? k with
  | none => if k ∈ c.availableKeys then (true, s.mark k) else (false, s)
  | some _ => (true, s.mark k)

/-- The two maps of addresses are made when the first address is looked for. -/
def fillAddressSigs [AddressHash K A] (c : SignContext K A) (s : SignState K A) : SignState K A :=
  match s.availableAddressSigs with
  | none => { s with
      availableAddressSigs := some (addressSigs c.availableKeys.elems)
      providedAddressSigs := some (addressSigs s.providedSignatures.keys) }
  | some _ => s

/-- `signed_by`, of an address -/
def signedByAddress [AddressHash K A] (c : SignContext K A) (a : A) (s : SignState K A) : Eval K A (Bool × SignState K A) :=
  let s := s.fillAddressSigs c
  match s.providedAddressSigs, s.availableAddressSigs with
  | some provided, some available =>
    match provided.find? a with
    | none =>
      match available.find? a with
      | some k => if k ∈ c.availableKeys then .ok (true, s.mark k) else .ok (false, s)
      -- the iterator that is dereferenced here is the end of the provided addresses
      | none => .error .undefinedBehavior
    | some k => .ok (true, s.mark k)
  | _, _ => .error .undefinedBehavior

/-- The test of an account in an authority: it has approved already, or the check of its active authority, one deeper, succeeds.
    There is no deeper check at the recursion limit. -/
def approvedByAccount (c : SignContext K A)
    (deeper : Option (Option (Authority K A) → SignState K A → Eval K A (Bool × SignState K A))) (x : AccountId) (s : SignState K A) :
    Eval K A (Bool × SignState K A) :=
  if x ∈ s.approvedBy then .ok (true, s)
  else
    match deeper with
    | none => .ok (false, s)
    | some check => do
      let (yes, s) ← check (c.getActive x) s
      if yes then .ok (true, s.approve x) else .ok (false, s)

/-- One of the three loops of `check_authority`, over the entries of a map; `total_weight` is a `uint32_t`. -/
def addWeights {κ : Type} (auth : Authority K A) (test : κ → SignState K A → Eval K A (Bool × SignState K A)) :
    List (κ × Weight) → Nat → SignState K A → Eval K A (Option Nat × SignState K A) :=
  accumulate (2 ^ 32) auth.weightThreshold.toNat (·.2.toNat) fun e => test e.1

/-- The body of `check_authority`, given what it calls one deeper -/
def walk [AddressHash K A] (c : SignContext K A)
    (deeper : Option (Option (Authority K A) → SignState K A → Eval K A (Bool × SignState K A))) (au : Option (Authority K A))
    (s : SignState K A) : Eval K A (Bool × SignState K A) :=
  match au with
  | none => .ok (false, s)
  | some auth => do
    match ← addWeights auth (fun k s => .ok (signedByKey c k s)) auth.keyAuths.entries 0 s with
    | (none, s) => return (true, s)
    | (some total, s) =>
      match ← addWeights auth (signedByAddress c) auth.addressAuths.entries total s with
      | (none, s) => return (true, s)
      | (some total, s) =>
        match ← addWeights auth (approvedByAccount c deeper) auth.accountAuths.entries total s with
        | (none, s) => return (true, s)
        | (some total, s) => return (decide (auth.weightThreshold.toNat ≤ total), s)

/-- `check_authority`, with as many levels left as there are between its depth and the recursion limit. -/
def checkAuthority [AddressHash K A] (c : SignContext K A) : Nat → Option (Authority K A) → SignState K A → Eval K A (Bool × SignState K A)
  | 0 => walk c none
  | n + 1 => walk c (some (checkAuthority c n))

/-- `check_authority`, of an account -/
def checkAccount [AddressHash K A] (c : SignContext K A) (id : AccountId) (s : SignState K A) : Eval K A (Bool × SignState K A) :=
  if id ∈ s.approvedBy then .ok (true, s) else checkAuthority c c.maxRecursion (c.getActive id) s

/-- Whether there are signatures that were not looked for. -/
def removeUnusedSignatures (s : SignState K A) : Bool := s.providedSignatures.entries.any fun e => !e.2

end SignState

open SignState

/-- What `operation_get_required_authorities` finds in an operation. -/
structure RequiredAuthorities (K A : Type) [LinearOrder K] [LinearOrder A] where
  active : List AccountId
  owner : List AccountId
  other : List (Authority K A)

/-- The check of an authority that an operation carries -/
def requireOther [AddressHash K A] (c : SignContext K A) (s : SignState K A) (auth : Authority K A) : Eval K A (SignState K A) := do
  let (yes, s) ← checkAuthority c c.maxRecursion (some auth) s
  if yes then .ok s else .error (.txMissingOtherAuth auth)

/-- The check of an account whose active authority is required; the message dereferences the account's authorities. -/
def requireActive [AddressHash K A] (c : SignContext K A) (getOwner : AccountId → Option (Authority K A)) (s : SignState K A) (id : AccountId) :
    Eval K A (SignState K A) := do
  let (yes, s) ← checkAccount c id s
  if yes then return s
  let (yes, s) ← checkAuthority c c.maxRecursion (getOwner id) s
  if yes then return s
  match c.getActive id, getOwner id with
  | some auth, some owner => .error (.txMissingActiveAuth id auth owner)
  | _, _ => .error .undefinedBehavior

/-- The check of an account whose owner authority is required -/
def requireOwner [AddressHash K A] (c : SignContext K A) (getOwner : AccountId → Option (Authority K A)) (ownerApprovals : FlatSet AccountId)
    (s : SignState K A) (id : AccountId) : Eval K A (SignState K A) := do
  if id ∈ ownerApprovals then return s
  let (yes, s) ← checkAuthority c c.maxRecursion (getOwner id) s
  if yes then return s
  match getOwner id with
  | some auth => .error (.txMissingOwnerAuth id auth)
  | none => .error .undefinedBehavior

/-- The parameters of `verify_authority`, the operations as what they require -/
structure Verification (K A : Type) [LinearOrder K] [LinearOrder A] where
  ops : List (RequiredAuthorities K A)
  sigs : FlatSet K
  getActive : AccountId → Option (Authority K A)
  getOwner : AccountId → Option (Authority K A)
  maxRecursionDepth : Nat
  allowCommitte : Bool
  activeAprovals : FlatSet AccountId
  ownerApprovals : FlatSet AccountId

namespace Verification
variable (v : Verification K A)

def requiredActive : FlatSet AccountId := .ofList (v.ops.flatMap (·.active))

def requiredOwner : FlatSet AccountId := .ofList (v.ops.flatMap (·.owner))

def other : List (Authority K A) := v.ops.flatMap (·.other)

def context : SignContext K A where
  getActive := v.getActive
  availableKeys := .ofList []
  maxRecursion := v.maxRecursionDepth

/-- The `sign_state` before the first check -/
def start : SignState K A :=
  { SignState.init v.sigs with
    approvedBy := ((SignState.init v.sigs : SignState K A).approvedBy.union v.activeAprovals).union v.ownerApprovals }

def verifyAuthority [AddressHash K A] : Eval K A Unit := do
  ensure (v.allowCommitte ∨ grapheneCommitteeAccount ∉ v.requiredActive) .invalidCommitteeApproval
  let s ← v.other.foldlM (requireOther v.context) v.start
  let s ← v.requiredActive.elems.foldlM (requireActive v.context v.getOwner) s
  let s ← v.requiredOwner.elems.foldlM (requireOwner v.context v.getOwner v.ownerApprovals) s
  ensure (s.removeUnusedSignatures = false) .txIrrelevantSig

end Verification

end Khc.Auth
