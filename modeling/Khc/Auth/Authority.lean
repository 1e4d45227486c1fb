import Khc.Lib.Flat
import Khc.Lib.Threshold

/-! # Authorities, and those that votes make -/

/-! Authorities: weighted sets of keys, addresses and accounts that must approve what is done. -/

namespace Khc.Auth

open Lib

abbrev AccountId := Nat

/-- The account that nobody owns. -/
def grapheneNullAccount : AccountId := 3

/-- The account that stands for everybody. -/
def grapheneTempAccount : AccountId := 4

def grapheneCommitteeAccount : AccountId := 0

/-- `weight_type` -/
abbrev Weight := UInt16

variable (K A : Type) [LinearOrder K] [LinearOrder A]

/-- An `authority`, over the keys and the addresses -/
structure Authority where
  weightThreshold : UInt32
  accountAuths : FlatMap AccountId Weight
  keyAuths : FlatMap K Weight
  addressAuths : FlatMap A Weight

/-- Who is listed in an authority. -/
inductive Member where
  | key (k : K)
  | address (a : A)
  | account (x : AccountId)

/-- How addresses are taken from keys: `pts_address`, compressed or not and with a version, and `address` itself. -/
class AddressHash where
  ptsAddress : K → Bool → Nat → A
  address : K → A

variable {K A}

/-- The encodings of a key that are looked for -/
def encodings [AddressHash K A] (k : K) : List A :=
  [AddressHash.ptsAddress k false 56, AddressHash.ptsAddress k true 56, AddressHash.ptsAddress k false 0,
    AddressHash.ptsAddress k true 0, AddressHash.address k]

/-- Keys that are numbers and their own addresses, for concrete cases -/
instance : AddressHash Nat Nat where
  ptsAddress k _ _ := k
  address k := k

namespace Authority

/-- The members in the order in which they are looked at, with their weights. -/
def members (au : Authority K A) : List (Member K A × Weight) :=
  au.keyAuths.entries.map (fun e => (.key e.1, e.2)) ++
    (au.addressAuths.entries.map (fun e => (.address e.1, e.2)) ++ au.accountAuths.entries.map fun e => (.account e.1, e.2))

/-- The weight of a member -/
def weightOf (e : Member K A × Weight) : Nat := e.2.toNat

/-- The sum is taken in 64 bits, which the weights of a `flat_map` that fits in memory do not fill. -/
def isImpossible (au : Authority K A) : Bool := (au.members.map weightOf).sum < au.weightThreshold.toNat

def numAuths (au : Authority K A) : Nat := au.members.length

variable {au : Authority K A}

theorem nodup_fst_members : (au.members.map Prod.fst).Nodup := by
  have hkeys : au.members.map Prod.fst = au.keyAuths.keys.map .key ++ (au.addressAuths.keys.map .address ++ au.accountAuths.keys.map .account) := by
    simp [members, FlatMap.keys, Function.comp_def]
  rw [hkeys]
  refine List.nodup_append'.mpr ⟨au.keyAuths.nodup_keys.map fun _ _ => Member.key.inj, List.nodup_append'.mpr
    ⟨au.addressAuths.nodup_keys.map fun _ _ => Member.address.inj, au.accountAuths.nodup_keys.map fun _ _ => Member.account.inj, ?_⟩, ?_⟩
  · intro e he he'
    obtain ⟨_, -, rfl⟩ := List.mem_map.mp he
    obtain ⟨_, -, h⟩ := List.mem_map.mp he'
    cases h
  · intro e he he'
    obtain ⟨_, -, rfl⟩ := List.mem_map.mp he
    rcases List.mem_append.mp he' with he' | he' <;>
    · obtain ⟨_, -, h⟩ := List.mem_map.mp he'
      cases h

theorem nodup_members : au.members.Nodup := nodup_fst_members.of_map _

theorem weightOf_lt {K A : Type} (e : Member K A × Weight) : weightOf e < 2 ^ 16 := e.2.toNat_lt

theorem sum_weightOf_le {K A : Type} (es : List (Member K A × Weight)) : (es.map weightOf).sum ≤ es.length * 65535 := by
  induction es with
  | nil => exact Nat.zero_le _
  | cons e es ih =>
    have hlt := weightOf_lt e
    rw [List.map_cons, List.sum_cons, List.length_cons]
    omega

/-- Of members listed once, an account weighs as much as one weight at most. -/
theorem weightSum_account_lt {K A : Type} {x : AccountId} {p : Member K A × Weight → Prop} (hp : ∀ e, p e → e.1 = .account x)
    {es : List (Member K A × Weight)} (h : (es.map Prod.fst).Nodup) : weightSum weightOf p es < 2 ^ 16 := by
  induction es with
  | nil => exact Nat.two_pow_pos 16
  | cons e es ih =>
    obtain ⟨hfirst, hrest⟩ := List.nodup_cons.mp h
    by_cases he : p e
    · have hzero : weightSum weightOf p es = 0 :=
        weightSum_eq_zero fun e' he' hpe' => hfirst ((hp e he).trans (hp e' hpe').symm ▸ List.mem_map_of_mem he')
      rw [weightSum_cons_of_pos he, hzero]
      exact weightOf_lt e
    · rw [weightSum_cons_of_neg he]
      exact ih hrest

/-- An authority with at most as many members as a `uint16_t` counts: its weights add up to less than 32 bits hold. -/
theorem sum_lt_of_numAuths (h : au.numAuths ≤ 65535) : (au.members.map weightOf).sum < 2 ^ 32 := by
  have hle := sum_weightOf_le au.members
  unfold numAuths at h
  omega

end Authority

end Khc.Auth

/-! `vote_counter`: an authority whose members weigh as much as they have votes (`vote_count.hpp`). -/

namespace Khc.Auth

open Lib

variable {K A : Type} [LinearOrder K] [LinearOrder A]

/-- The assertions of `vote_counter` -/
inductive VoteError
  | order
  | weight
  | total
  deriving DecidableEq, Repr

abbrev VoteEval := Except VoteError

/-- `add_authority` of a key, an address or an account -/
def Authority.addAuthority (au : Authority K A) (w : Weight) : Member K A → Authority K A
  | .key k => { au with keyAuths := au.keyAuths.set k w }
  | .address a => { au with addressAuths := au.addressAuths.set a w }
  | .account x => { au with accountAuths := au.accountAuths.set x w }

variable (K A) in
structure VoteCounter where
  lastVotes : UInt64 := 0xffffffffffffffff
  totalVotes : UInt64 := 0
  bitshift : Int := -1
  auth : Authority K A := ⟨0, ∅, ∅, ∅⟩

/-- Read as an `int8_t` -/
def toInt8 (x : Int) : Int := Int.bmod x 256

namespace VoteCounter

def add (vc : VoteCounter K A) (who : Member K A) (votes : UInt64) : VoteEval (VoteCounter K A) :=
  if votes = 0 then return vc
  else do
    ensure (votes ≤ vc.lastVotes) .order
    let bitshift := if vc.bitshift = -1 then toInt8 (max ((Nat.log2 votes.toNat : Int) - 15) 0) else vc.bitshift
    let scaledVotes := max (votes >>> UInt64.ofNat bitshift.toNat) 1
    ensure (scaledVotes ≤ 65535) .weight
    let totalVotes := vc.totalVotes + scaledVotes
    ensure (totalVotes ≤ 4294967295) .total
    return ⟨votes, totalVotes, bitshift, vc.auth.addAuthority scaledVotes.toUInt16 who⟩

/-- The authority is written only where it has a member. -/
def finish (vc : VoteCounter K A) (outAuth : Authority K A) : VoteEval (Authority K A) :=
  if vc.totalVotes = 0 then return outAuth
  else do
    ensure (vc.totalVotes ≤ 4294967295) .total
    let weight := vc.totalVotes.toUInt32
    return { vc.auth with weightThreshold := (weight >>> 1) + 1 }

end VoteCounter

/-- Candidates and their votes are added one after the other. -/
def countVotes (candidates : List (Member K A × UInt64)) : VoteEval (VoteCounter K A) :=
  candidates.foldlM (fun vc c => vc.add c.1 c.2) {}

end Khc.Auth
