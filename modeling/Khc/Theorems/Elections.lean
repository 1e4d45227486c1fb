import Khc.Theorems.VoteCount
import Khc.Vote.Elections

/-! Elections: as many are elected as the median of the stake asks for, those with the most votes, and whom a majority votes for. -/

namespace Khc.Vote

open Lib

/-- A stake that votes, and what it votes for -/
structure Voter where
  stake : Nat
  opinion : AccountOptions

variable {K A : Type} [LinearOrder K] [LinearOrder A] {d : Database K A} {es : List Voter} {t : Tally} {num : AccountOptions → Nat}
  {maximum least k : Nat} {histogram : List Nat} {objects elected : List Votable}

/-- The account as a voter, none if there is no account that it leaves its opinion to -/
def Database.voter (d : Database K A) (a : AccountObject) : Option Voter := (d.opinionAccount a).map fun o => ⟨a.votingStake, o.options⟩

def Database.voters (d : Database K A) : Option (List Voter) := (d.accounts.filter d.isVoting).mapM d.voter

/-! ### Counting -/

/-- The histogram counts the stakes that ask for a number up to the maximum, by its half. -/
structure Counts (num : AccountOptions → Nat) (maximum : Nat) (es : List Voter) (histogram : List Nat) : Prop where
  length : histogram.length = maximum / 2 + 1
  sum_take : ∀ k, (histogram.take k).sum = weightSum Voter.stake (fun e => num e.opinion ≤ maximum ∧ num e.opinion / 2 < k) es

theorem Counts.start : Counts num maximum [] (List.replicate (maximum / 2 + 1) 0) :=
  ⟨List.length_replicate, fun k => by simp⟩

theorem Counts.countWish (h : Counts num maximum es histogram) (e : Voter) :
    Counts num maximum (es ++ [e]) (countWish maximum (num e.opinion) e.stake histogram) := by
  have hlength := h.length
  unfold Vote.countWish
  split
  · next hle =>
    have hhalf : num e.opinion / 2 ≤ maximum / 2 := Nat.div_le_div_right hle
    rw [min_eq_left (by omega)]
    refine ⟨by rw [List.length_modify, hlength], fun k => ?_⟩
    rw [sum_take_modify (by omega), h.sum_take, weightSum_concat]
    simp only [hle, true_and]
  · next hgt =>
    refine ⟨hlength, fun k => ?_⟩
    rw [h.sum_take, weightSum_concat, if_neg fun h => hgt h.1, Nat.add_zero]

/-- The buffers count the votes of the voters. -/
structure Tallied (d : Database K A) (es : List Voter) (t : Tally) : Prop where
  length : t.voteTallyBuffer.length = d.nextAvailableVoteId
  votes : ∀ i < d.nextAvailableVoteId, t.voteTallyBuffer.getD i 0 = weightSum Voter.stake (i ∈ ·.opinion.votes) es
  witnesses : Counts (·.numWitness) d.parameters.maximumWitnessCount es t.witnessCountHistogramBuffer
  committeeMembers : Counts (·.numCommittee) d.parameters.maximumCommitteeCount es t.committeeCountHistogramBuffer
  total : t.totalVotingStake = (es.map Voter.stake).sum

theorem Tallied.start (d : Database K A) : Tallied d [] d.startTally :=
  ⟨List.length_replicate, fun i hi => by simp [Database.startTally, hi], .start, .start, rfl⟩

theorem Tallied.add (h : Tallied d es t) (e : Voter) : Tallied d (es ++ [e]) (t.add d.parameters e.stake e.opinion) := by
  refine ⟨length_foldl_modify.trans h.length, fun i hi => ?_, h.witnesses.countWish e, h.committeeMembers.countWish e, ?_⟩
  · have hnodup : e.opinion.votes.Nodup := e.opinion.sorted.imp fun hlt => hlt.ne
    have hbuffer : (t.add d.parameters e.stake e.opinion).voteTallyBuffer.getD i 0 =
        t.voteTallyBuffer.getD i 0 + if i ∈ e.opinion.votes ∧ i < t.voteTallyBuffer.length then e.stake else 0 := getD_foldl_modify hnodup
    rw [hbuffer, h.votes i hi, h.length, weightSum_concat]
    simp only [hi, and_true]
  · show t.totalVotingStake + e.stake = _
    rw [h.total, List.map_append, List.sum_append, List.map_singleton, List.sum_singleton]

theorem Tallied.run (h : Tallied d es t) (l : List Voter) :
    Tallied d (es ++ l) (l.foldl (fun t e => t.add d.parameters e.stake e.opinion) t) := by
  induction l generalizing es t with
  | nil => rwa [List.append_nil]
  | cons e l ih =>
    have hrest := ih (h.add e)
    rwa [List.append_assoc, List.singleton_append] at hrest

/-- The loop over the accounts is one over the voters. -/
theorem foldlM_tallyVotes (d : Database K A) (l : List AccountObject) (t : Tally) : l.foldlM d.tallyVotes t =
    ((l.filter d.isVoting).mapM d.voter).map (List.foldl (fun t e => t.add d.parameters e.stake e.opinion) t) := by
  induction l generalizing t with
  | nil => rfl
  | cons a l ih =>
    rw [List.foldlM_cons]
    by_cases hvoting : d.isVoting a
    · rw [List.filter_cons_of_pos hvoting, List.mapM_cons, Database.tallyVotes, if_pos hvoting, Database.voter]
      cases d.opinionAccount a with
      | none => rfl
      | some o =>
        show l.foldlM d.tallyVotes _ = _
        rw [ih]
        cases (l.filter d.isVoting).mapM d.voter <;> rfl
    · rw [List.filter_cons_of_neg hvoting, Database.tallyVotes, if_neg hvoting]
      exact ih t

def Database.tally (d : Database K A) (es : List Voter) : Tally := es.foldl (fun t e => t.add d.parameters e.stake e.opinion) d.startTally

theorem tallied (d : Database K A) (es : List Voter) : Tallied d es (d.tally es) := (Tallied.start d).run es

theorem foldlM_startTally (d : Database K A) : d.accounts.foldlM d.tallyVotes d.startTally = d.voters.map d.tally := foldlM_tallyVotes ..

/-! ### The number of those who are elected -/

/-- Those who ask for some number -/
def asking (num : AccountOptions → Nat) (es : List Voter) : List Voter := es.filter fun e => num e.opinion / 2 ≠ 0

/-- Half the number that is asked for: the median, where numbers above the maximum are taken for the maximum. -/
structure IsWished (num : AccountOptions → Nat) (maximum : Nat) (es : List Voter) (k : Nat) : Prop where
  le : k ≤ maximum / 2
  median : 1 < ((asking num es).map Voter.stake).sum →
    IsWeightedMedian Voter.stake (fun e => min (num e.opinion / 2) (maximum / 2)) (asking num es) k
  zero : ((asking num es).map Voter.stake).sum ≤ 1 → k = 0

theorem sum_asking : ((asking num es).map Voter.stake).sum = weightSum Voter.stake (fun e => ¬num e.opinion / 2 = 0) es := by
  rw [← weightSum_true, asking, weightSum_filter]
  exact weightSum_congr fun e _ => by rw [and_true]

/-- The first entry counts those who ask for no number. -/
theorem Counts.head {n : Nat} {l : List Nat} (h : Counts num maximum es (n :: l)) (hpos : 0 < maximum / 2) :
    n = weightSum Voter.stake (fun e => num e.opinion / 2 = 0) es := by
  have hfirst := h.sum_take 1
  rw [List.take_succ_cons, List.take_zero, List.sum_singleton] at hfirst
  rw [hfirst]
  exact weightSum_congr fun e _ => by omega

/-- The other ones count those who ask for some. Below the last one it does not matter that a number above the maximum is not counted. -/
theorem Counts.sum_take_tail {n : Nat} {l : List Nat} (h : Counts num maximum es (n :: l)) (hk : k < maximum / 2) :
    (l.take k).sum = weightSum Voter.stake (fun e => min (num e.opinion / 2) (maximum / 2) ≤ k) (asking num es) := by
  have hhead := h.head (by omega)
  have htake := h.sum_take (k + 1)
  rw [List.take_succ_cons, List.sum_cons, weightSum_and_add (q := fun e => num e.opinion / 2 = 0)] at htake
  have hnone : weightSum Voter.stake (fun e => num e.opinion / 2 = 0 ∧ num e.opinion ≤ maximum ∧ num e.opinion / 2 < k + 1) es =
      weightSum Voter.stake (fun e => num e.opinion / 2 = 0) es := weightSum_congr fun e _ => by omega
  have hsome : weightSum Voter.stake (fun e => min (num e.opinion / 2) (maximum / 2) ≤ k) (asking num es) =
      weightSum Voter.stake (fun e => ¬num e.opinion / 2 = 0 ∧ num e.opinion ≤ maximum ∧ num e.opinion / 2 < k + 1) es := by
    rw [asking, weightSum_filter]
    exact weightSum_congr fun e _ => by omega
  omega

theorem Counts.isWished (h : Counts num maximum es histogram) : IsWished num maximum es (wishedCount histogram (es.map Voter.stake).sum) := by
  have hlength := h.length
  obtain ⟨n, l, rfl⟩ := List.exists_cons_of_length_eq_add_one hlength
  rw [List.length_cons, Nat.add_right_cancel_iff] at hlength
  unfold wishedCount
  rw [List.headD_cons, List.tail_cons]
  rcases Nat.eq_zero_or_pos (maximum / 2) with hzero | hpos
  · obtain rfl := List.eq_nil_of_length_eq_zero (hlength.trans hzero)
    simp only [crossing, ite_self]
    refine ⟨Nat.zero_le _, fun hsome => ?_, fun _ => rfl⟩
    exact isWeightedMedian_crossing hlength (fun e _ => min_le_right _ _) (fun k hk => h.sum_take_tail hk) (by omega)
  · have hasking : (es.map Voter.stake).sum - n = ((asking num es).map Voter.stake).sum := by
      rw [sum_asking, h.head hpos, ← weightSum_add_not (p := fun e => num e.opinion / 2 = 0), Nat.add_sub_cancel_left]
    rw [hasking]
    refine ⟨?_, fun hsome => ?_, fun hfew => if_neg (by omega)⟩
    · dsimp only
      split
      · exact crossing_le_length.trans hlength.le
      · exact Nat.zero_le _
    · rw [if_pos (by omega)]
      exact isWeightedMedian_crossing hlength (fun e _ => min_le_right _ _) (fun k hk => h.sum_take_tail hk) (by omega)

/-! ### Those who are elected -/

/-- The stake that votes for an object -/
noncomputable def stakeFor (es : List Voter) (o : Votable) : Nat := weightSum Voter.stake (o.voteId ∈ ·.opinion.votes) es

/-- As many are elected as are asked for, an odd number, but not fewer than the least number: those with the most votes, and of those with
    equal votes who has been there first. -/
structure Elects (num : AccountOptions → Nat) (maximum least : Nat) (es : List Voter) (objects elected : List Votable) : Prop where
  number : ∃ k, IsWished num maximum es k ∧ elected.length = min (max (k * 2 + 1) least) objects.length
  subperm : elected.Subperm objects
  ordered : elected.Pairwise fun a b => stakeFor es b < stakeFor es a ∨ stakeFor es a = stakeFor es b ∧ a.voteId ≤ b.voteId
  most : ∀ a ∈ elected, ∀ b ∈ objects, b ∉ elected →
    stakeFor es b < stakeFor es a ∨ stakeFor es a = stakeFor es b ∧ a.voteId ≤ b.voteId

theorem sortVotableObjects_elects (hvotes : ∀ o ∈ objects, t.votesFor o = stakeFor es o) (hk : IsWished num maximum es k) :
    Elects num maximum least es objects (t.sortVotableObjects objects (max (k * 2 + 1) least)) := by
  have hperm := List.mergeSort_perm objects t.precedes
  have hpairwise : (objects.mergeSort t.precedes).Pairwise fun a b => t.precedes a b := by
    refine List.pairwise_mergeSort (fun a b c hab hbc => ?_) (fun a b => ?_) objects
    · simp only [Tally.precedes, decide_eq_true_eq] at hab hbc ⊢
      omega
    · simp only [Tally.precedes, Bool.or_eq_true, decide_eq_true_eq]
      omega
  have hsorted : (objects.mergeSort t.precedes).Pairwise fun a b =>
      stakeFor es b < stakeFor es a ∨ stakeFor es a = stakeFor es b ∧ a.voteId ≤ b.voteId := by
    refine hpairwise.imp_of_mem fun {a b} ha hb hle => ?_
    rw [← hvotes a (hperm.mem_iff.mp ha), ← hvotes b (hperm.mem_iff.mp hb)]
    simpa [Tally.precedes] using hle
  unfold Tally.sortVotableObjects
  rw [← List.take_append_drop (max (k * 2 + 1) least) (objects.mergeSort t.precedes)] at hsorted
  obtain ⟨hordered, -, hbetween⟩ := List.pairwise_append.mp hsorted
  refine ⟨⟨k, hk, by rw [List.length_take, List.length_mergeSort]⟩, (List.take_sublist ..).subperm.trans hperm.subperm, hordered,
    fun a ha b hb hnot => hbetween a ha b ?_⟩
  have hmem := hperm.mem_iff.mpr hb
  rw [← List.take_append_drop (max (k * 2 + 1) least) (objects.mergeSort t.precedes)] at hmem
  exact (List.mem_append.mp hmem).resolve_left hnot

/-- The authority consists of those of the elected who have votes; where nobody has votes, it stays as it was. -/
structure Represents (es : List Voter) (elected : List Votable) (active au : Auth.Authority K A) : Prop where
  tallied : (∃ o ∈ elected, 0 < stakeFor es o) → Auth.Tallied (candidates (stakeFor es) elected) au
  unchanged : (∀ o ∈ elected, stakeFor es o = 0) → au = active

theorem Elects.countElected (h : Elects num maximum least es objects elected) (hvotes : ∀ o ∈ objects, t.votesFor o = stakeFor es o)
    (haccounts : (objects.map (·.account)).Nodup) (hmaximum : maximum < 2 ^ 16) (hleast : least < 2 ^ 16)
    (hfit : (es.map Voter.stake).sum < 2 ^ 64) (active : Auth.Authority K A) :
    ∃ au, t.countElected elected active = .ok au ∧ Represents es elected active au := by
  have hcandidates : candidates (K := K) (A := A) t.votesFor elected = candidates (stakeFor es) elected :=
    List.map_congr_left fun o ho => by rw [hvotes o (h.subperm.subset ho)]
  have htoNat : ∀ o, (UInt64.ofNat (stakeFor es o)).toNat = stakeFor es o := fun o => by
    have hle : stakeFor es o ≤ (es.map Voter.stake).sum := weightSum_le_sum
    rw [UInt64.toNat_ofNat', Nat.mod_eq_of_lt (hle.trans_lt hfit)]
  have hzero : ∀ o, UInt64.ofNat (stakeFor es o) = 0 ↔ stakeFor es o = 0 := fun o => by
    rw [← UInt64.toNat_inj, htoNat, UInt64.toNat_zero]
  have hsorted : (candidates (K := K) (A := A) (stakeFor es) elected).Pairwise fun c c' => c'.2 ≤ c.2 := by
    refine List.pairwise_map.mpr (h.ordered.imp fun {a b} hle => UInt64.le_iff_toNat_le.mpr ?_)
    rw [htoNat, htoNat]
    exact hle.elim le_of_lt fun heq => heq.1.ge
  have hnodup : ((candidates (K := K) (A := A) (stakeFor es) elected).map Prod.fst).Nodup := by
    have hdistinct : (elected.map (·.account)).Nodup := by
      obtain ⟨l, hperm, hsublist⟩ := h.subperm
      exact (hperm.map _).nodup_iff.mp ((hsublist.map _).nodup haccounts)
    rw [candidates, List.map_map]
    have haccount := hdistinct.map (f := Auth.Member.account (K := K) (A := A)) fun _ _ => Auth.Member.account.inj
    rwa [List.map_map] at haccount
  have hlength : (candidates (K := K) (A := A) (stakeFor es) elected).length ≤ 65535 := by
    obtain ⟨k, hk, hnumber⟩ := h.number
    have hle := hk.le
    rw [candidates, List.length_map]
    omega
  obtain ⟨shift, vc, hle, hrun, hcounts⟩ := Auth.countVotes_counts hsorted hnodup hlength
  obtain ⟨au, hfinish, htallied, hsame⟩ := hcounts.finish hle hnodup hlength active
  refine ⟨au, bind_eq_ok.mpr ⟨vc, hcandidates ▸ hrun, hfinish⟩, fun hsome => ?_, fun hnone => hsame ?_⟩
  · obtain ⟨o, ho, hpos⟩ := hsome
    exact htallied ⟨_, List.mem_map_of_mem ho, fun h => hpos.ne' ((hzero o).mp h)⟩
  · intro c hc
    obtain ⟨o, ho, rfl⟩ := List.mem_map.mp hc
    exact (hzero o).mpr (hnone o ho)

/-! ### Runs of elections -/

/-- Numbers are those of their types, an account has one witness and one member of the committee at most, and votes may be for each. -/
structure Database.WellFormed (d : Database K A) : Prop where
  maximumWitnessCount : d.parameters.maximumWitnessCount < 2 ^ 16
  maximumCommitteeCount : d.parameters.maximumCommitteeCount < 2 ^ 16
  minWitnessCount : d.parameters.minWitnessCount < 2 ^ 16
  minCommitteeMemberCount : d.parameters.minCommitteeMemberCount < 2 ^ 16
  witnesses : (d.witnesses.map (·.account)).Nodup
  committeeMembers : (d.committeeMembers.map (·.account)).Nodup
  witnessVotes : ∀ o ∈ d.witnesses, o.voteId < d.nextAvailableVoteId
  committeeMemberVotes : ∀ o ∈ d.committeeMembers, o.voteId < d.nextAvailableVoteId

structure WitnessesElected (d : Database K A) (es : List Voter) (wits : List Votable) (d' : Database K A) : Prop where
  elects : Elects (·.numWitness) d.parameters.maximumWitnessCount d.parameters.minWitnessCount es d.witnesses wits
  active : d'.activeWitnesses = (wits.map (·.id)).toFinset
  totalVotes : d'.witnesses = d.witnesses.map fun wit => { wit with totalVotes := stakeFor es wit }
  represents : Represents es wits d.witnessActive d'.witnessActive

/-- The relaxed committee account follows the committee account once somebody is elected. -/
structure CommitteeMembersElected (d : Database K A) (es : List Voter) (dels : List Votable) (d' : Database K A) : Prop where
  elects : Elects (·.numCommittee) d.parameters.maximumCommitteeCount d.parameters.minCommitteeMemberCount es d.committeeMembers dels
  active : d'.activeCommitteeMembers = dels.map (·.id)
  totalVotes : d'.committeeMembers = d.committeeMembers.map fun del =>
    if del ∈ dels then { del with totalVotes := stakeFor es del } else del
  represents : Represents es dels d.committeeActive d'.committeeActive
  relaxed : d'.relaxedCommitteeActive = if dels = [] then d.relaxedCommitteeActive else d'.committeeActive

theorem updateActiveCommitteeMembers_eq {dels : List Votable} {au : Auth.Authority K A} (hdels : d.electedCommitteeMembers t = dels)
    (hau : t.countElected dels d.committeeActive = .ok au) : d.updateActiveCommitteeMembers t = some { d with
      committeeMembers := d.committeeMembers.map fun del => if del ∈ dels then { del with totalVotes := t.votesFor del } else del
      committeeActive := au
      relaxedCommitteeActive := if dels = [] then d.relaxedCommitteeActive else au
      activeCommitteeMembers := dels.map (·.id) } := by
  subst hdels
  unfold Database.updateActiveCommitteeMembers
  by_cases hnil : d.electedCommitteeMembers t = []
  · rw [hnil] at hau ⊢
    obtain rfl : d.committeeActive = au := Except.ok.inj hau
    rfl
  · dsimp only
    rw [if_neg hnil, if_neg hnil, hau]
    rfl

theorem performElections_of_voters (h : d.WellFormed) (hvoters : d.voters = some es) (hfit : (es.map Voter.stake).sum < 2 ^ 63) :
    ∃ d' wits dels, d.performElections = some d' ∧ WitnessesElected d es wits d' ∧ CommitteeMembersElected d es dels d' := by
  have ht := tallied d es
  have hwitVotes : ∀ o ∈ d.witnesses, (d.tally es).votesFor o = stakeFor es o := fun o ho => ht.votes _ (h.witnessVotes o ho)
  have hdelVotes : ∀ o ∈ d.committeeMembers, (d.tally es).votesFor o = stakeFor es o := fun o ho => ht.votes _ (h.committeeMemberVotes o ho)
  have hwits : Elects (·.numWitness) d.parameters.maximumWitnessCount d.parameters.minWitnessCount es d.witnesses
      (d.electedWitnesses (d.tally es)) := sortVotableObjects_elects hwitVotes (ht.total ▸ ht.witnesses.isWished)
  have hdels : Elects (·.numCommittee) d.parameters.maximumCommitteeCount d.parameters.minCommitteeMemberCount es d.committeeMembers
      (d.electedCommitteeMembers (d.tally es)) := sortVotableObjects_elects hdelVotes (ht.total ▸ ht.committeeMembers.isWished)
  have hfit' : (es.map Voter.stake).sum < 2 ^ 64 := by omega
  obtain ⟨au, hau, hrepresents⟩ := hwits.countElected hwitVotes h.witnesses h.maximumWitnessCount h.minWitnessCount hfit' d.witnessActive
  obtain ⟨au', hau', hrepresents'⟩ :=
    hdels.countElected hdelVotes h.committeeMembers h.maximumCommitteeCount h.minCommitteeMemberCount hfit' d.committeeActive
  have hfirst : d.updateActiveWitnesses (d.tally es) = some { d with
      witnesses := d.witnesses.map fun wit => { wit with totalVotes := (d.tally es).votesFor wit }
      witnessActive := au
      activeWitnesses := ((d.electedWitnesses (d.tally es)).map (·.id)).toFinset } := by
    rw [Database.updateActiveWitnesses, hau]
    rfl
  have hperform : d.performElections = (d.updateActiveWitnesses (d.tally es) >>= fun d' => d'.updateActiveCommitteeMembers (d.tally es)) := by
    rw [Database.performElections, foldlM_startTally, hvoters]
    rfl
  rw [hfirst] at hperform
  refine ⟨_, d.electedWitnesses (d.tally es), d.electedCommitteeMembers (d.tally es),
    hperform.trans (updateActiveCommitteeMembers_eq rfl hau'), ⟨hwits, rfl, ?_, hrepresents⟩, ⟨hdels, rfl, ?_, hrepresents', rfl⟩⟩
  · exact List.map_congr_left fun o ho => by rw [hwitVotes o ho]
  · refine List.map_congr_left fun o ho => ?_
    rw [hdelVotes o ho]
    rfl

namespace Sample

/-- Two accounts vote for three witnesses, one of them by what the other one says, and two for a fourth one, of which one is no member any
    more. -/
def database : Database Nat Nat where
  headBlockTime := 100
  parameters := ⟨false, 11, 11, 1, 1⟩
  nextAvailableVoteId := 5
  accounts := [⟨20, 100, ⟨5, 3, 0, [0, 1, 2], by decide⟩, 1, none, 4⟩, ⟨21, 200, ⟨20, 0, 0, [], by decide⟩, 0, some 1, 1⟩,
    ⟨22, 99, ⟨5, 1, 0, [3], by decide⟩, 0, none, 90⟩, ⟨23, 100, ⟨5, 1, 0, [3], by decide⟩, 0, none, 4⟩]
  witnesses := [⟨1, 31, 3, 0⟩, ⟨2, 32, 0, 0⟩, ⟨3, 33, 1, 0⟩, ⟨4, 34, 2, 0⟩]
  committeeMembers := [⟨1, 35, 4, 0⟩]
  activeWitnesses := ∅
  activeCommitteeMembers := []
  witnessActive := ⟨1, ∅, ∅, ∅⟩
  committeeActive := ⟨1, ∅, ∅, ∅⟩
  relaxedCommitteeActive := ⟨1, ∅, ∅, ∅⟩

theorem wellFormed : database.WellFormed :=
  ⟨by decide, by decide, by decide, by decide, by decide, by decide, by decide, by decide⟩

def voters : List Voter :=
  [⟨5, ⟨5, 3, 0, [0, 1, 2], by decide⟩⟩, ⟨2, ⟨5, 3, 0, [0, 1, 2], by decide⟩⟩, ⟨4, ⟨5, 1, 0, [3], by decide⟩⟩]

end Sample

/-- A maintenance elects witnesses and members of the committee, unless an account leaves its opinion to one that is not there. -/
theorem elections (h : d.WellFormed) : (d.voters = none → d.performElections = none) ∧
    ∀ es ∈ d.voters, (es.map Voter.stake).sum < 2 ^ 63 → ∃ d' wits dels, d.performElections = some d' ∧
      WitnessesElected d es wits d' ∧ CommitteeMembersElected d es dels d' := by
  refine ⟨fun hnone => ?_, fun es hvoters hfit => performElections_of_voters h hvoters hfit⟩
  rw [Database.performElections, foldlM_startTally, hnone]
  rfl

theorem elections_sample : ∃ d' wits, Sample.database.performElections = some d' ∧ WitnessesElected Sample.database Sample.voters wits d' := by
  obtain ⟨d', wits, -, hperform, hwits, -⟩ := (elections Sample.wellFormed).2 Sample.voters rfl (by decide)
  exact ⟨d', wits, hperform, hwits⟩

/-! ### Majorities -/

/-- Voters with more than half of the stake ask for the same number, and vote for the same objects, not more than they ask for. -/
structure Agree (num : AccountOptions → Nat) (maximum : Nat) (es : List Voter) (objects : List Votable) (P : Voter → Prop) (n : Nat)
    (ids : List Nat) : Prop where
  majority : (es.map Voter.stake).sum < 2 * weightSum Voter.stake P es
  some : 1 < weightSum Voter.stake P es
  number : ∀ e ∈ es, P e → num e.opinion / 2 = n
  most : n ≤ maximum / 2
  votes : ∀ e ∈ es, P e → ∀ o ∈ objects, o.voteId ∈ e.opinion.votes ↔ o.voteId ∈ ids
  few : (objects.filter (·.voteId ∈ ids)).length ≤ n * 2 + 1

variable {P : Voter → Prop} {n : Nat} {ids : List Nat}

/-- The number that they ask for is the median. -/
theorem Agree.le_of_isWished (h : Agree num maximum es objects P n ids) (hk : IsWished num maximum es k) : n ≤ k := by
  rcases Nat.eq_zero_or_pos n with rfl | hn
  · exact Nat.zero_le k
  · have hmost := h.most
    have hmono : weightSum Voter.stake P es ≤ weightSum Voter.stake (fun e => min (num e.opinion / 2) (maximum / 2) = n) (asking num es) := by
      rw [asking, weightSum_filter]
      refine weightSum_mono fun e he hP => ?_
      have hnumber := h.number e he hP
      omega
    have hasking : ((asking num es).map Voter.stake).sum ≤ (es.map Voter.stake).sum := sum_asking.trans_le weightSum_le_sum
    have hwished : weightSum Voter.stake (fun e => min (num e.opinion / 2) (maximum / 2) = n) (asking num es) ≤
        ((asking num es).map Voter.stake).sum := weightSum_le_sum
    have hmajority := h.majority
    have hsome := h.some
    exact ((hk.median (by omega)).eq_of_majority (by omega)).ge

theorem Elects.mem_of_agree (h : Elects num maximum least es objects elected) (hagree : Agree num maximum es objects P n ids)
    (hnodup : objects.Nodup) {o : Votable} (ho : o ∈ objects) (hid : o.voteId ∈ ids) : o ∈ elected := by
  by_contra hnot
  obtain ⟨k, hk, hlength⟩ := h.number
  have hle := hagree.le_of_isWished hk
  have hfew := hagree.few
  -- Whoever is elected has at least as many votes, and they are not all from the minority.
  have hall : ∀ a ∈ elected, a.voteId ∈ ids := by
    intro a ha
    by_contra hother
    have hmost : stakeFor es o ≤ stakeFor es a := (h.most a ha o ho hnot).elim le_of_lt fun heq => heq.1.ge
    have hmajor : weightSum Voter.stake P es ≤ stakeFor es o := weightSum_mono fun e he hP => (hagree.votes e he hP o ho).mpr hid
    have hminor : stakeFor es a ≤ weightSum Voter.stake (¬P ·) es :=
      weightSum_mono fun e he hvote hP => hother ((hagree.votes e he hP a (h.subperm.subset ha)).mp hvote)
    have hsum : weightSum Voter.stake P es + weightSum Voter.stake (¬P ·) es = (es.map Voter.stake).sum := weightSum_add_not
    have hmajority := hagree.majority
    omega
  have hsubset : o :: elected ⊆ objects.filter (·.voteId ∈ ids) := by
    refine List.cons_subset.mpr ⟨List.mem_filter.mpr ⟨ho, decide_eq_true hid⟩, fun a ha => ?_⟩
    exact List.mem_filter.mpr ⟨h.subperm.subset ha, decide_eq_true (hall a ha)⟩
  obtain ⟨l, hperm, hsublist⟩ := h.subperm
  have hcons : (o :: elected).Nodup := List.nodup_cons.mpr ⟨hnot, hperm.nodup_iff.mp (hsublist.nodup hnodup)⟩
  have hcount := (List.subperm_of_subset hcons hsubset).length_le
  have hfilter := List.length_filter_le (fun o : Votable => decide (o.voteId ∈ ids)) objects
  rw [List.length_cons] at hcount
  omega

/-- Whom voters with more than half of the stake vote for are elected. -/
theorem majority_elects (h : d.WellFormed) (hvoters : d.voters = some es) (hfit : (es.map Voter.stake).sum < 2 ^ 63) :
    ∃ d', d.performElections = some d' ∧
      (∀ P n ids, Agree (·.numWitness) d.parameters.maximumWitnessCount es d.witnesses P n ids →
        ∀ o ∈ d.witnesses, o.voteId ∈ ids → o.id ∈ d'.activeWitnesses) ∧
      ∀ P n ids, Agree (·.numCommittee) d.parameters.maximumCommitteeCount es d.committeeMembers P n ids →
        ∀ o ∈ d.committeeMembers, o.voteId ∈ ids → o.id ∈ d'.activeCommitteeMembers := by
  obtain ⟨d', wits, dels, hperform, hwits, hdels⟩ := performElections_of_voters h hvoters hfit
  refine ⟨d', hperform, fun P n ids hagree o ho hid => ?_, fun P n ids hagree o ho hid => ?_⟩
  · rw [hwits.active, List.mem_toFinset]
    exact List.mem_map_of_mem (hwits.elects.mem_of_agree hagree h.witnesses.of_map ho hid)
  · rw [hdels.active]
    exact List.mem_map_of_mem (hdels.elects.mem_of_agree hagree h.committeeMembers.of_map ho hid)

theorem majority_elects_sample : ∃ d', Sample.database.performElections = some d' ∧
    2 ∈ d'.activeWitnesses ∧ 3 ∈ d'.activeWitnesses ∧ 4 ∈ d'.activeWitnesses := by
  have hvoters : Sample.database.voters = some Sample.voters := rfl
  obtain ⟨d', hperform, hwits, -⟩ := majority_elects Sample.wellFormed hvoters (by decide)
  have hagree : Agree (·.numWitness) 11 Sample.voters Sample.database.witnesses (fun e => e.opinion.numWitness = 3) 1 [0, 1, 2] :=
    ⟨by simp [weightSum, Sample.voters], by simp [weightSum, Sample.voters], by decide, by decide, by decide, by decide⟩
  have helected := hwits _ _ _ hagree
  exact ⟨d', hperform, helected ⟨2, 32, 0, 0⟩ (by decide) (by decide), helected ⟨3, 33, 1, 0⟩ (by decide) (by decide),
    helected ⟨4, 34, 2, 0⟩ (by decide) (by decide)⟩

end Khc.Vote
