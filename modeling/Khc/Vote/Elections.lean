import Khc.Auth.Authority
import Khc.Lib.Ballot
import Mathlib.Data.Finset.Dedup
import Mathlib.Data.Finset.Empty

/-! The votes that a maintenance counts, and whom they elect (`vote_tally_helper`, `sort_votable_objects`, `update_active_witnesses` and
    `update_active_committee_members` of `db_maint.cpp`). The stakes are amounts of the core asset, whose sums fit into an `int64_t`. All hard
    forks are active. -/

namespace Khc.Vote

open Lib

/-! ### Accounts -/

/-- `account_options`, as far as they are an opinion. Votes are compared by their instances, so that a `flat_set` has one of each. -/
structure AccountOptions where
  votingAccount : Nat
  numWitness : Nat
  numCommittee : Nat
  votes : List Nat
  sorted : votes.Pairwise (· < ·)

/-- `account_object`, with what its statistics, its cashback and its balance of the core asset are when its votes are counted -/
structure AccountObject where
  id : Nat
  membershipExpirationDate : Nat
  options : AccountOptions
  totalCoreInOrders : Nat
  cashbackVb : Option Nat
  balance : Nat

/-- `GRAPHENE_PROXY_TO_SELF_ACCOUNT` -/
def grapheneProxyToSelfAccount : Nat := 5

def AccountObject.isMember (a : AccountObject) (now : Nat) : Bool := ¬a.membershipExpirationDate < now

def AccountObject.votingStake (a : AccountObject) : Nat := a.totalCoreInOrders + a.cashbackVb.getD 0 + a.balance

/-- `witness_object` or `committee_member_object` -/
structure Votable where
  id : Nat
  /-- `witness_account` or `committee_member_account` -/
  account : Nat
  voteId : Nat
  totalVotes : Nat
  deriving DecidableEq

structure ChainParameters where
  countNonMemberVotes : Bool
  maximumWitnessCount : Nat
  maximumCommitteeCount : Nat
  /-- These are immutable. -/
  minWitnessCount : Nat
  minCommitteeMemberCount : Nat

variable (K A : Type) [LinearOrder K] [LinearOrder A]

/-- The chain, with the active authorities of `GRAPHENE_WITNESS_ACCOUNT`, `GRAPHENE_COMMITTEE_ACCOUNT` and
    `GRAPHENE_RELAXED_COMMITTEE_ACCOUNT` -/
structure Database where
  headBlockTime : Nat
  parameters : ChainParameters
  nextAvailableVoteId : Nat
  accounts : List AccountObject
  witnesses : List Votable
  committeeMembers : List Votable
  activeWitnesses : Finset Nat
  activeCommitteeMembers : List Nat
  witnessActive : Auth.Authority K A
  committeeActive : Auth.Authority K A
  relaxedCommitteeActive : Auth.Authority K A

/-- The buffers in which votes are counted -/
structure Tally where
  voteTallyBuffer : List Nat
  witnessCountHistogramBuffer : List Nat
  committeeCountHistogramBuffer : List Nat
  totalVotingStake : Nat

/-! ### Counting votes -/

variable {K A}

namespace Database

/-- `d.get( account )`; none if it throws -/
def getAccount (d : Database K A) (id : Nat) : Option AccountObject := d.accounts.find? (·.id = id)

/-- The constructor of `vote_tally_helper` -/
def startTally (d : Database K A) : Tally where
  voteTallyBuffer := List.replicate d.nextAvailableVoteId 0
  witnessCountHistogramBuffer := List.replicate (d.parameters.maximumWitnessCount / 2 + 1) 0
  committeeCountHistogramBuffer := List.replicate (d.parameters.maximumCommitteeCount / 2 + 1) 0
  totalVotingStake := 0

/-- "`opinion_account`" -/
def opinionAccount (d : Database K A) (stakeAccount : AccountObject) : Option AccountObject :=
  if stakeAccount.options.votingAccount = grapheneProxyToSelfAccount then some stakeAccount
  else d.getAccount stakeAccount.options.votingAccount

/-- Whether the stake of an account votes -/
def isVoting (d : Database K A) (stakeAccount : AccountObject) : Bool :=
  d.parameters.countNonMemberVotes || stakeAccount.isMember d.headBlockTime

end Database

/-- The number that an account asks for is counted, unless it is above the maximum. -/
def countWish (maximum num votingStake : Nat) (histogram : List Nat) : List Nat :=
  if num ≤ maximum then histogram.modify (min (num / 2) (histogram.length - 1)) (· + votingStake) else histogram

/-- The stake is counted for the opinion. An illegal offset is ignored. -/
def Tally.add (p : ChainParameters) (t : Tally) (votingStake : Nat) (opinion : AccountOptions) : Tally where
  voteTallyBuffer := opinion.votes.foldl (fun buffer offset => buffer.modify offset (· + votingStake)) t.voteTallyBuffer
  witnessCountHistogramBuffer := countWish p.maximumWitnessCount opinion.numWitness votingStake t.witnessCountHistogramBuffer
  committeeCountHistogramBuffer := countWish p.maximumCommitteeCount opinion.numCommittee votingStake t.committeeCountHistogramBuffer
  totalVotingStake := t.totalVotingStake + votingStake

/-- `vote_tally_helper::operator ()`; none if it throws -/
def Database.tallyVotes (d : Database K A) (t : Tally) (stakeAccount : AccountObject) : Option Tally :=
  if d.isVoting stakeAccount then do
    let opinion ← d.opinionAccount stakeAccount
    some (t.add d.parameters stakeAccount.votingStake opinion.options)
  else some t

/-! ### Elections -/

/-- The number that is passed until more than half of the stake has been counted that asks for one: "accounts that vote for 0 or 1
    witness do not get to express an opinion" -/
def wishedCount (histogram : List Nat) (totalVotingStake : Nat) : Nat :=
  let stakeTarget := (totalVotingStake - histogram.headD 0) / 2
  if 0 < stakeTarget then crossing stakeTarget histogram.tail 0 else 0

/-- The accounts of those who are elected, with their votes -/
def candidates (votes : Votable → Nat) (elected : List Votable) : List (Auth.Member K A × UInt64) :=
  elected.map fun o => (.account o.account, UInt64.ofNat (votes o))

namespace Tally

/-- `_vote_tally_buffer[ o.vote_id ]` -/
def votesFor (t : Tally) (o : Votable) : Nat := t.voteTallyBuffer.getD o.voteId 0

/-- The comparison of `sort_votable_objects`, of different objects -/
def precedes (t : Tally) (a b : Votable) : Bool := t.votesFor b < t.votesFor a ∨ t.votesFor a = t.votesFor b ∧ a.voteId ≤ b.voteId

def sortVotableObjects (t : Tally) (objects : List Votable) (count : Nat) : List Votable := (objects.mergeSort t.precedes).take count

/-- The authority that `vote_counter` makes of those who are elected -/
def countElected (t : Tally) (elected : List Votable) (active : Auth.Authority K A) : Auth.VoteEval (Auth.Authority K A) := do
  let vc ← Auth.countVotes (candidates t.votesFor elected)
  vc.finish active

end Tally

namespace Database

def electedWitnesses (d : Database K A) (t : Tally) : List Votable :=
  let witnessCount := wishedCount t.witnessCountHistogramBuffer t.totalVotingStake
  t.sortVotableObjects d.witnesses (max (witnessCount * 2 + 1) d.parameters.minWitnessCount)

def electedCommitteeMembers (d : Database K A) (t : Tally) : List Votable :=
  let committeeMemberCount := wishedCount t.committeeCountHistogramBuffer t.totalVotingStake
  t.sortVotableObjects d.committeeMembers (max (committeeMemberCount * 2 + 1) d.parameters.minCommitteeMemberCount)

def updateActiveWitnesses (d : Database K A) (t : Tally) : Option (Database K A) := do
  let wits := d.electedWitnesses t
  let active ← (t.countElected wits d.witnessActive).toOption
  some { d with
    witnesses := d.witnesses.map fun wit => { wit with totalVotes := t.votesFor wit }
    witnessActive := active
    activeWitnesses := (wits.map (·.id)).toFinset }

/-- Only those who are elected get to know their votes. -/
def updateActiveCommitteeMembers (d : Database K A) (t : Tally) : Option (Database K A) := do
  let committeeMembers := d.electedCommitteeMembers t
  let (active, relaxed) ←
    if committeeMembers = [] then some (d.committeeActive, d.relaxedCommitteeActive)
    else do
      let active ← (t.countElected committeeMembers d.committeeActive).toOption
      some (active, active)
  some { d with
    committeeMembers := d.committeeMembers.map fun del => if del ∈ committeeMembers then { del with totalVotes := t.votesFor del } else del
    committeeActive := active
    relaxedCommitteeActive := relaxed
    activeCommitteeMembers := committeeMembers.map (·.id) }

/-- `perform_chain_maintenance`, where it counts votes and holds elections; none if it throws -/
def performElections (d : Database K A) : Option (Database K A) := do
  let t ← d.accounts.foldlM d.tallyVotes d.startTally
  let d ← d.updateActiveWitnesses t
  d.updateActiveCommitteeMembers t

end Database

end Khc.Vote
