import Khc.Auth.Authority
import Mathlib.Data.Nat.Log
import Mathlib.Tactic.Linarith

/-! The authorities that votes make: who has votes is a member, weighed by them, and all members together can act but no half of them. -/

namespace Khc.Auth

open Lib Authority

variable {K A : Type} [LinearOrder K] [LinearOrder A] {au : Authority K A} {vc vc' : VoteCounter K A} {who : Member K A} {shift : Nat}
  {votes votes' : UInt64} {w : Weight} {cs rest : List (Member K A × UInt64)}

/-- The members are the candidates with votes, whose weights are their votes but for the last bits, which are shifted out. -/
structure Tallied (cs : List (Member K A × UInt64)) (au : Authority K A) : Prop where
  members : ∀ m, m ∈ au.members.map Prod.fst ↔ ∃ votes, (m, votes) ∈ cs ∧ votes ≠ 0
  scaled : ∃ shift, ∀ e ∈ au.members, ∀ votes, (e.1, votes) ∈ cs → weightOf e = max (votes.toNat >>> shift) 1
  positive : ∀ e ∈ au.members, 1 ≤ weightOf e ∧ weightOf e ≤ 65535
  ordered : ∀ e ∈ au.members, ∀ e' ∈ au.members, ∀ votes votes', (e.1, votes) ∈ cs → (e'.1, votes') ∈ cs → votes' ≤ votes →
    weightOf e' ≤ weightOf e
  threshold_le : au.weightThreshold.toNat ≤ (au.members.map weightOf).sum
  threshold_gt : (au.members.map weightOf).sum < 2 * au.weightThreshold.toNat

/-! ### Scaled votes -/

/-- The votes without the bits that are shifted out, but at least one -/
def scaledVotes (shift : Nat) (votes : UInt64) : UInt64 := max (votes >>> UInt64.ofNat shift) 1

theorem toNat_scaledVotes (h : shift ≤ 48) : (scaledVotes shift votes).toNat = max (votes.toNat >>> shift) 1 := by
  have hshift : (votes >>> UInt64.ofNat shift).toNat = votes.toNat >>> shift := by
    rw [UInt64.toNat_shiftRight, UInt64.toNat_ofNat', Nat.mod_eq_of_lt (by omega : shift < 2 ^ 64), Nat.mod_eq_of_lt (by omega)]
  rw [← hshift, scaledVotes]
  show (if votes >>> UInt64.ofNat shift ≤ 1 then (1 : UInt64) else votes >>> UInt64.ofNat shift).toNat = _
  split
  · rename_i hle
    exact (max_eq_right (UInt64.le_iff_toNat_le.mp hle)).symm
  · rename_i hle
    exact (max_eq_left (Nat.le_of_not_le fun h => hle (UInt64.le_iff_toNat_le.mpr h))).symm

theorem scaledVotes_mono (h : shift ≤ 48) (hle : votes' ≤ votes) : (scaledVotes shift votes').toNat ≤ (scaledVotes shift votes).toNat := by
  rw [toNat_scaledVotes h, toNat_scaledVotes h]
  rw [Nat.shiftRight_eq_div_pow, Nat.shiftRight_eq_div_pow]
  exact max_le_max_right _ (Nat.div_le_div_right (UInt64.le_iff_toNat_le.mp hle))

theorem scaledVotes_pos (votes : UInt64) (h : shift ≤ 48) : 1 ≤ (scaledVotes shift votes).toNat := by
  rw [toNat_scaledVotes h]
  exact le_max_right _ _

/-- The shift that the most votes determine -/
def shiftOf (votes : UInt64) : Nat := Nat.log2 votes.toNat - 15

theorem shiftOf_le (votes : UInt64) : shiftOf votes ≤ 48 := by
  have hlog : Nat.log2 votes.toNat < 64 := by
    by_cases hzero : votes.toNat = 0
    · rw [hzero]
      decide
    · exact (Nat.log2_lt hzero).mpr votes.toNat_lt
  unfold shiftOf
  omega

theorem toInt8_shiftOf : toInt8 (max ((Nat.log2 votes.toNat : Int) - 15) 0) = shiftOf votes := by
  have hle := shiftOf_le votes
  have hmax : max ((Nat.log2 votes.toNat : Int) - 15) 0 = shiftOf votes := by
    unfold shiftOf
    omega
  rw [hmax, toInt8, Int.bmod_eq_of_le (by omega) (by omega)]

/-- Sixteen bits are left of the most votes. -/
theorem scaledVotes_shiftOf : (scaledVotes (shiftOf votes) votes).toNat ≤ 65535 := by
  rw [toNat_scaledVotes (shiftOf_le _), Nat.shiftRight_eq_div_pow]
  refine max_le ?_ (by omega)
  have hlt : votes.toNat < 2 ^ (Nat.log2 votes.toNat + 1) := Nat.lt_log2_self
  have hbits : Nat.log2 votes.toNat + 1 ≤ shiftOf votes + 16 := by
    unfold shiftOf
    omega
  have hpow : votes.toNat < 2 ^ shiftOf votes * 2 ^ 16 := by
    calc votes.toNat < 2 ^ (Nat.log2 votes.toNat + 1) := hlt
      _ ≤ 2 ^ (shiftOf votes + 16) := Nat.pow_le_pow_right (by omega) hbits
      _ = 2 ^ shiftOf votes * 2 ^ 16 := pow_add ..
  have hdiv := Nat.div_lt_of_lt_mul hpow
  omega

/-! ### Adding a candidate -/

theorem addAuthority_members (h : who ∉ au.members.map Prod.fst) : (au.addAuthority w who).members.Perm ((who, w) :: au.members) := by
  unfold Authority.members at *
  cases who with
  | key k =>
    have hput := (FlatMap.put_perm au.keyAuths.entries k w fun e he heq => h ?_).map
      fun e => ((.key e.1, e.2) : Member K A × Weight)
    · exact hput.append_right _
    · simp only [List.map_append, List.map_map, List.mem_append, List.mem_map, Function.comp_apply]
      exact .inl ⟨e, he, by rw [heq]⟩
  | address a =>
    have hput := (FlatMap.put_perm au.addressAuths.entries a w fun e he heq => h ?_).map
      fun e => ((.address e.1, e.2) : Member K A × Weight)
    · exact ((hput.append_right _).append_left _).trans List.perm_middle
    · simp only [List.map_append, List.map_map, List.mem_append, List.mem_map, Function.comp_apply]
      exact .inr (.inl ⟨e, he, by rw [heq]⟩)
  | account x =>
    have hput := (FlatMap.put_perm au.accountAuths.entries x w fun e he heq => h ?_).map
      fun e => ((.account e.1, e.2) : Member K A × Weight)
    · rw [← List.append_assoc, ← List.append_assoc]
      exact (hput.append_left _).trans List.perm_middle
    · simp only [List.map_append, List.map_map, List.mem_append, List.mem_map, Function.comp_apply]
      exact .inr (.inr ⟨e, he, by rw [heq]⟩)

/-- What the counter holds after candidates with votes -/
structure Counts (shift : Nat) (cs : List (Member K A × UInt64)) (vc : VoteCounter K A) : Prop where
  members : vc.auth.members.Perm (cs.map fun c => (c.1, (scaledVotes shift c.2).toUInt16))
  total : vc.totalVotes.toNat = (cs.map fun c => (scaledVotes shift c.2).toNat).sum
  small : ∀ c ∈ cs, (scaledVotes shift c.2).toNat ≤ 65535

theorem Counts.empty : Counts shift [] ({} : VoteCounter K A) := ⟨.refl _, rfl, fun _ hc => absurd hc List.not_mem_nil⟩

theorem Counts.total_le (h : Counts shift cs vc) : vc.totalVotes.toNat ≤ cs.length * 65535 := by
  rw [h.total]
  have hle := List.sum_le_card_nsmul (cs.map fun c => (scaledVotes shift c.2).toNat) 65535 fun n hn => by
    obtain ⟨_, hc, hn⟩ := List.mem_map.mp hn
    exact hn ▸ h.small _ hc
  simpa using hle

/-- The next candidate is added where it has no more votes than the one before. -/
theorem Counts.add (who : Member K A) (h : Counts shift cs vc)
    (hshift : (if vc.bitshift = -1 then toInt8 (max ((Nat.log2 votes.toNat : Int) - 15) 0) else vc.bitshift) = shift)
    (hvotes : votes ≠ 0) (hlast : votes ≤ vc.lastVotes) (hsmall : (scaledVotes shift votes).toNat ≤ 65535)
    (hnew : who ∉ cs.map Prod.fst) (hlength : cs.length < 65535) :
    ∃ vc', vc.add who votes = .ok vc' ∧ Counts shift (cs ++ [(who, votes)]) vc' ∧ vc'.bitshift = shift ∧ vc'.lastVotes = votes := by
  have hmax := h.total_le
  have hsum : (vc.totalVotes + scaledVotes shift votes).toNat = vc.totalVotes.toNat + (scaledVotes shift votes).toNat := by
    rw [UInt64.toNat_add, Nat.mod_eq_of_lt (by omega)]
  have hweight : scaledVotes shift votes ≤ 65535 := UInt64.le_iff_toNat_le.mpr hsmall
  have htotal : vc.totalVotes + scaledVotes shift votes ≤ 4294967295 := by
    rw [UInt64.le_iff_toNat_le, hsum]
    show _ ≤ 4294967295
    omega
  have hnew' : who ∉ vc.auth.members.map Prod.fst := by
    rw [(h.members.map Prod.fst).mem_iff, List.map_map]
    exact hnew
  refine ⟨⟨votes, vc.totalVotes + scaledVotes shift votes, shift, vc.auth.addAuthority (scaledVotes shift votes).toUInt16 who⟩,
    ?_, ⟨?_, ?_, ?_⟩, rfl, rfl⟩
  · rw [VoteCounter.add, if_neg hvotes, hshift]
    exact bind_eq_ok.mpr ⟨(), ensure_eq_ok.mpr hlast, bind_eq_ok.mpr ⟨(), ensure_eq_ok.mpr hweight,
      bind_eq_ok.mpr ⟨(), ensure_eq_ok.mpr htotal, rfl⟩⟩⟩
  · rw [List.map_append, List.map_singleton]
    exact ((addAuthority_members hnew').trans (h.members.cons _)).trans (List.perm_append_singleton _ _).symm
  · rw [List.map_append, List.sum_append, List.map_singleton, List.sum_singleton, ← h.total]
    exact hsum
  · intro c hc
    rcases List.mem_append.mp hc with hc | hc
    · exact h.small c hc
    · rw [List.mem_singleton.mp hc]
      exact hsmall

/-- The candidates with votes -/
def voted (cs : List (Member K A × UInt64)) : List (Member K A × UInt64) := cs.filter (·.2 ≠ 0)

omit [LinearOrder K] [LinearOrder A] in
theorem mem_voted {c : Member K A × UInt64} : c ∈ voted cs ↔ c ∈ cs ∧ c.2 ≠ 0 := by
  simp [voted]

theorem Counts.more (h : Counts shift cs vc) (hle : shift ≤ 48) (hshift : vc.bitshift = shift)
    (hsmall : (scaledVotes shift vc.lastVotes).toNat ≤ 65535) (hlast : ∀ c ∈ rest, c.2 ≤ vc.lastVotes)
    (hsorted : rest.Pairwise fun c c' => c'.2 ≤ c.2) (hnodup : ((cs ++ rest).map Prod.fst).Nodup) (hlength : (cs ++ rest).length ≤ 65535) :
    ∃ vc', rest.foldlM (fun vc c => vc.add c.1 c.2) vc = .ok vc' ∧ Counts shift (cs ++ voted rest) vc' := by
  induction rest generalizing cs vc with
  | nil => exact ⟨vc, rfl, by rwa [voted, List.filter_nil, List.append_nil]⟩
  | cons c rest ih =>
    obtain ⟨hfirst, hsorted⟩ := List.pairwise_cons.mp hsorted
    by_cases hvotes : c.2 = 0
    · have hsub : (cs ++ rest).Sublist (cs ++ c :: rest) := (List.sublist_cons_self c rest).append_left cs
      obtain ⟨vc', hrun, hcounts⟩ := ih h hshift hsmall (fun c' hc' => hlast c' (.tail _ hc')) hsorted
        (hnodup.sublist (hsub.map _)) (hsub.length_le.trans hlength)
      refine ⟨vc', bind_eq_ok.mpr ⟨vc, if_pos hvotes, hrun⟩, ?_⟩
      rwa [voted, List.filter_cons_of_neg (by simpa using hvotes)]
    · have hc := hlast c List.mem_cons_self
      have hnew : c.1 ∉ cs.map Prod.fst := by
        rw [List.map_append, List.map_cons] at hnodup
        intro hmem
        exact (List.nodup_append.mp hnodup).2.2 c.1 hmem c.1 List.mem_cons_self rfl
      have hstays : (if vc.bitshift = -1 then toInt8 (max ((Nat.log2 c.2.toNat : Int) - 15) 0) else vc.bitshift) = shift := by
        rw [if_neg (by omega), hshift]
      rw [List.length_append, List.length_cons] at hlength
      obtain ⟨vc₁, hadd, hcounts, hshift₁, hlast₁⟩ := h.add c.1 hstays hvotes hc ((scaledVotes_mono hle hc).trans hsmall) hnew (by omega)
      obtain ⟨vc', hrun, hcounts'⟩ := ih hcounts hshift₁ (by rw [hlast₁]; exact (scaledVotes_mono hle hc).trans hsmall)
        (fun c' hc' => by rw [hlast₁]; exact hfirst c' hc') hsorted (by simpa using hnodup) (by simp; omega)
      refine ⟨vc', bind_eq_ok.mpr ⟨vc₁, hadd, hrun⟩, ?_⟩
      rw [voted, List.filter_cons_of_pos (by simpa using hvotes)]
      rwa [List.append_assoc, List.singleton_append] at hcounts'

/-- The shift is the one that the first candidate with votes determines. -/
theorem countVotes_counts (hsorted : cs.Pairwise fun c c' => c'.2 ≤ c.2) (hnodup : (cs.map Prod.fst).Nodup) (hlength : cs.length ≤ 65535) :
    ∃ shift vc, shift ≤ 48 ∧ countVotes cs = .ok vc ∧ Counts shift (voted cs) vc := by
  induction cs with
  | nil => exact ⟨0, {}, by omega, rfl, .empty⟩
  | cons c cs ih =>
    obtain ⟨hfirst, hrest⟩ := List.pairwise_cons.mp hsorted
    rw [List.length_cons] at hlength
    by_cases hvotes : c.2 = 0
    · obtain ⟨shift, vc, hle, hrun, hcounts⟩ := ih hrest (List.nodup_cons.mp hnodup).2 (by omega)
      refine ⟨shift, vc, hle, bind_eq_ok.mpr ⟨{}, if_pos hvotes, hrun⟩, ?_⟩
      rwa [voted, List.filter_cons_of_neg (by simpa using hvotes)]
    · have hmost : c.2 ≤ ({} : VoteCounter K A).lastVotes := UInt64.le_iff_toNat_le.mpr (by have := c.2.toNat_lt; show _ ≤ 2 ^ 64 - 1; omega)
      obtain ⟨vc₁, hadd, hcounts, hshift, hlast⟩ := Counts.empty.add c.1 (by rw [if_pos rfl, toInt8_shiftOf]) hvotes hmost scaledVotes_shiftOf
        List.not_mem_nil (by simp)
      obtain ⟨vc, hrun, hcounts'⟩ := hcounts.more (shiftOf_le _) hshift (by rw [hlast]; exact scaledVotes_shiftOf)
        (fun c' hc' => by rw [hlast]; exact hfirst c' hc') hrest hnodup (by simp; omega)
      refine ⟨shiftOf c.2, vc, shiftOf_le _, bind_eq_ok.mpr ⟨vc₁, hadd, hrun⟩, ?_⟩
      rw [voted, List.filter_cons_of_pos (by simpa using hvotes)]
      exact hcounts'

/-! ### The finished authority -/

theorem Counts.weights (h : Counts shift cs vc) : (vc.auth.members.map weightOf).sum = vc.totalVotes.toNat := by
  rw [(h.members.map weightOf).sum_eq, List.map_map, h.total]
  refine congrArg List.sum (List.map_congr_left fun c hc => ?_)
  have hsmall := h.small c hc
  show (scaledVotes shift c.2).toUInt16.toNat = _
  rw [UInt64.toNat_toUInt16, Nat.mod_eq_of_lt (by omega)]

theorem Counts.tallied (h : Counts shift (voted cs) vc) (hle : shift ≤ 48) (hnodup : (cs.map Prod.fst).Nodup)
    (hpos : 0 < vc.totalVotes.toNat) (hmax : vc.totalVotes.toNat < 2 ^ 32) :
    Tallied cs { vc.auth with weightThreshold := (vc.totalVotes.toUInt32 >>> 1) + 1 } := by
  have hmem : ∀ e ∈ vc.auth.members, ∀ votes, (e.1, votes) ∈ cs → weightOf e = max (votes.toNat >>> shift) 1 := by
    intro e he votes hvotes
    obtain ⟨c, hc, rfl⟩ := List.mem_map.mp (h.members.mem_iff.mp he)
    have hsmall := h.small c hc
    have hsame : votes = c.2 := congrArg Prod.snd (List.inj_on_of_nodup_map hnodup hvotes (mem_voted.mp hc).1 rfl)
    show (scaledVotes shift c.2).toUInt16.toNat = _
    rw [UInt64.toNat_toUInt16, Nat.mod_eq_of_lt (by omega), toNat_scaledVotes hle, hsame]
  have hlisted : ∀ e ∈ vc.auth.members, ∃ votes, (e.1, votes) ∈ cs := by
    intro e he
    obtain ⟨c, hc, rfl⟩ := List.mem_map.mp (h.members.mem_iff.mp he)
    exact ⟨c.2, (mem_voted.mp hc).1⟩
  have hthreshold : ((vc.totalVotes.toUInt32 >>> 1) + 1).toNat = vc.totalVotes.toNat / 2 + 1 := by
    rw [UInt32.toNat_add, UInt32.toNat_shiftRight, UInt64.toNat_toUInt32, Nat.mod_eq_of_lt hmax, Nat.shiftRight_eq_div_pow]
    show (vc.totalVotes.toNat / 2 + 1) % 2 ^ 32 = _
    omega
  refine ⟨fun m => ?_, ⟨shift, hmem⟩, fun e he => ?_, fun e he e' he' votes votes' hvotes hvotes' hfewer => ?_, ?_, ?_⟩
  · show m ∈ vc.auth.members.map Prod.fst ↔ _
    rw [(h.members.map Prod.fst).mem_iff, List.map_map, List.mem_map]
    constructor
    · rintro ⟨c, hc, rfl⟩
      exact ⟨c.2, mem_voted.mp hc⟩
    · rintro ⟨votes, hvotes⟩
      exact ⟨(m, votes), mem_voted.mpr hvotes, rfl⟩
  · obtain ⟨votes, hvotes⟩ := hlisted e he
    rw [hmem e he votes hvotes]
    have hlt := weightOf_lt e
    rw [hmem e he votes hvotes] at hlt
    exact ⟨le_max_right _ _, by omega⟩
  · rw [hmem e he votes hvotes, hmem e' he' votes' hvotes', Nat.shiftRight_eq_div_pow, Nat.shiftRight_eq_div_pow]
    exact max_le_max_right _ (Nat.div_le_div_right (UInt64.le_iff_toNat_le.mp hfewer))
  · show ((vc.totalVotes.toUInt32 >>> 1) + 1).toNat ≤ (vc.auth.members.map weightOf).sum
    rw [hthreshold, h.weights]
    omega
  · show (vc.auth.members.map weightOf).sum < 2 * ((vc.totalVotes.toUInt32 >>> 1) + 1).toNat
    rw [hthreshold, h.weights]
    omega

/-- What `finish` makes of the counter; where no candidate has votes, the authority stays as it was. -/
theorem Counts.finish (h : Counts shift (voted cs) vc) (hle : shift ≤ 48) (hnodup : (cs.map Prod.fst).Nodup) (hlength : cs.length ≤ 65535)
    (outAuth : Authority K A) : ∃ au, vc.finish outAuth = .ok au ∧
      ((∃ c ∈ cs, c.2 ≠ 0) → Tallied cs au) ∧ ((∀ c ∈ cs, c.2 = 0) → au = outAuth) := by
  have hmax : vc.totalVotes.toNat < 2 ^ 32 := by
    have hbound := h.total_le
    have hvoted : (voted cs).length ≤ cs.length := List.length_filter_le _ _
    omega
  by_cases hzero : vc.totalVotes = 0
  · refine ⟨outAuth, if_pos hzero, fun hsome => ?_, fun _ => rfl⟩
    obtain ⟨c, hc, hvotes⟩ := hsome
    have hle' := List.single_le_sum (fun n _ => Nat.zero_le n) _
      (List.mem_map_of_mem (f := fun c => (scaledVotes shift c.2).toNat) (mem_voted.mpr ⟨hc, hvotes⟩))
    rw [← h.total, hzero] at hle'
    have hpos := scaledVotes_pos c.2 hle
    exact absurd (hpos.trans hle') (by decide)
  · have hpos : 0 < vc.totalVotes.toNat := Nat.pos_of_ne_zero fun h => hzero (UInt64.toNat_inj.mp h)
    have hle' : vc.totalVotes ≤ 4294967295 := by
      rw [UInt64.le_iff_toNat_le]
      show _ ≤ 4294967295
      omega
    refine ⟨_, (if_neg hzero).trans (bind_eq_ok.mpr ⟨(), ensure_eq_ok.mpr hle', rfl⟩), fun _ => h.tallied hle hnodup hpos hmax,
      fun hnone => ?_⟩
    have hempty : voted cs = [] := List.filter_eq_nil_iff.mpr fun c hc => by simpa using hnone c hc
    rw [h.total, hempty] at hpos
    exact absurd hpos (lt_irrefl 0)

/-- Candidates in the order of their votes are counted, no assertion fails and nothing is lost. Where none of them has votes, the authority
    stays as it was. -/
theorem countVotes_tallied (cs : List (Member K A × UInt64)) (hnodup : (cs.map Prod.fst).Nodup) (hlength : cs.length ≤ 65535)
    (hsorted : cs.Pairwise fun c c' => c'.2 ≤ c.2) :
    ∃ vc, countVotes cs = .ok vc ∧ ∀ outAuth, ∃ au, vc.finish outAuth = .ok au ∧
      ((∃ c ∈ cs, c.2 ≠ 0) → Tallied cs au) ∧ ((∀ c ∈ cs, c.2 = 0) → au = outAuth) := by
  obtain ⟨shift, vc, hle, hrun, hcounts⟩ := countVotes_counts hsorted hnodup hlength
  exact ⟨vc, hrun, hcounts.finish hle hnodup hlength⟩

/-- Three candidates: 70000 votes take 17 bits, of which one is shifted out. -/
theorem countVotes_tallied_three : ∃ vc : VoteCounter Nat Nat,
    countVotes [(.account 7, 70000), (.account 8, 3), (.account 9, 0)] = .ok vc ∧ ∃ au, vc.finish ⟨1, ∅, ∅, ∅⟩ = .ok au ∧
      Tallied [(.account 7, 70000), (.account 8, 3), (.account 9, 0)] au := by
  obtain ⟨vc, hrun, hfinish⟩ := countVotes_tallied (K := Nat) (A := Nat) [(.account 7, 70000), (.account 8, 3), (.account 9, 0)]
    (by simp) (by decide) (by decide)
  obtain ⟨au, hau, htallied, -⟩ := hfinish ⟨1, ∅, ∅, ∅⟩
  exact ⟨vc, hrun, au, hau, htallied ⟨_, List.mem_cons_self, by decide⟩⟩

/-- Without votes, the authority keeps an account that is no candidate. -/
theorem countVotes_unwritten : ¬∀ (cs : List (Member Nat Nat × UInt64)) (vc : VoteCounter Nat Nat) (outAuth au : Authority Nat Nat),
    (cs.map Prod.fst).Nodup → cs.length ≤ 65535 → cs.Pairwise (fun c c' => c'.2 ≤ c.2) → countVotes cs = .ok vc →
    vc.finish outAuth = .ok au → Tallied cs au := by
  intro h
  have htallied := h [(.account 7, 0)] {} ⟨1, (∅ : FlatMap AccountId Weight).set 5 1, ∅, ∅⟩ _ (by simp) (by decide) (by simp) rfl rfl
  have hfive : Member.account 5 ∈ (Authority.members (K := Nat) (A := Nat) ⟨1, (∅ : FlatMap AccountId Weight).set 5 1, ∅, ∅⟩).map Prod.fst := by
    rw [List.mem_map]
    exact ⟨(.account 5, 1), List.mem_append_right _ (List.mem_append_right _ (List.mem_map.mpr ⟨(5, 1), FlatMap.mem_set.mpr (.inl rfl), rfl⟩)), rfl⟩
  obtain ⟨votes, hmem, hne⟩ := (htallied.members (.account 5)).mp hfive
  simp at hmem

end Khc.Auth
