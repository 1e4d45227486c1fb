import Khc.Chain.WithdrawPermission
import Khc.Project.Run
import Khc.Lib.Run
import Mathlib.Tactic.Linarith

/-! What may be withdrawn under a permission in one period. -/

namespace Khc.Chain

open Lib

theorem toU32_natCast {n : Nat} (h : n < 2 ^ 32) : toU32 n = n := by
  unfold toU32
  omega

theorem Asset.le_eq_true {a b : Asset} (h : a.le b = .ok true) : a.assetId = b.assetId ∧ a.amount ≤ b.amount := by
  unfold Asset.le at h
  split at h
  · rename_i heq
    exact heq ▸ ⟨rfl, le_rfl⟩
  · obtain ⟨_, hasset, h⟩ := bind_eq_ok.mp h
    exact ⟨fcAssert_eq_ok.mp hasset, (of_decide_eq_true (Except.ok.inj h)).le⟩

namespace WithdrawPermission
variable {p : WithdrawPermission} {t : Nat}

/-- The start of the period that a time is in -/
def currentPeriod (p : WithdrawPermission) (t : Nat) : Nat :=
  p.periodStartTime + (t - p.periodStartTime) / p.withdrawalPeriodSec * p.withdrawalPeriodSec

theorem currentPeriod_le (h : p.periodStartTime ≤ t) : p.currentPeriod t ≤ t := by
  have := Nat.div_mul_le_self (t - p.periodStartTime) p.withdrawalPeriodSec
  unfold currentPeriod
  omega

theorem le_currentPeriod : p.periodStartTime ≤ p.currentPeriod t := Nat.le_add_right _ _

theorem lt_currentPeriod (hsec : 0 < p.withdrawalPeriodSec) : t < p.currentPeriod t + p.withdrawalPeriodSec := by
  have := Nat.lt_div_mul_add (a := t - p.periodStartTime) hsec
  unfold currentPeriod
  omega

/-- In the period that is stored, nothing has to be advanced. -/
theorem currentPeriod_of_lt (h : t < p.periodStartTime + p.withdrawalPeriodSec) : p.currentPeriod t = p.periodStartTime := by
  unfold currentPeriod
  rcases Nat.lt_or_ge t p.periodStartTime with hlt | hge
  · rw [Nat.sub_eq_zero_of_le hlt.le, Nat.zero_div, Nat.zero_mul, Nat.add_zero]
  · rw [Nat.div_eq_of_lt (by omega), Nat.zero_mul, Nat.add_zero]

/-- After the period that is stored comes a later one. -/
theorem currentPeriod_of_le (hsec : 0 < p.withdrawalPeriodSec) (h : p.periodStartTime + p.withdrawalPeriodSec ≤ t) :
    p.periodStartTime + p.withdrawalPeriodSec ≤ p.currentPeriod t := by
  have hpos : 1 ≤ (t - p.periodStartTime) / p.withdrawalPeriodSec := (Nat.one_le_div_iff hsec).mpr (by omega)
  have := Nat.mul_le_mul_right p.withdrawalPeriodSec hpos
  unfold currentPeriod
  omega

/-- The available amount in a period whose end is a time -/
theorem availableThisPeriod_of_lt (hend : p.periodStartTime + p.withdrawalPeriodSec < 2 ^ 32)
    (ht : t < p.periodStartTime + p.withdrawalPeriodSec)
    (hlimit : InInt64 p.withdrawalLimit.amount) (hclaimed : 0 ≤ p.claimedThisPeriod) :
    p.availableThisPeriod t = .ok ⟨max (p.withdrawalLimit.amount - p.claimedThisPeriod) 0, p.withdrawalLimit.assetId⟩ := by
  obtain ⟨-, hlimit⟩ := hlimit
  unfold availableThisPeriod
  rw [← Nat.cast_add, toU32_natCast hend, if_neg (not_le.mpr ht)]
  split
  · rename_i hlt
    have hrange : InInt64 (p.withdrawalLimit.amount - p.claimedThisPeriod) := by
      unfold InInt64
      omega
    rw [max_eq_left (by omega)]
    exact bind_eq_ok.mpr ⟨_, safe_eq_ok.mpr ⟨hrange, rfl⟩, rfl⟩
  · rw [max_eq_right (by omega)]

theorem availableThisPeriod_of_le (h : toU32 (p.periodStartTime + p.withdrawalPeriodSec) ≤ t) :
    p.availableThisPeriod t = .ok p.withdrawalLimit := if_pos h

/-- The end of a period beyond the last time is taken for one before its start. -/
theorem availableThisPeriod_of_wrap (hstart : p.periodStartTime ≤ t) (ht : t < 2 ^ 32) (hsec : p.withdrawalPeriodSec < 2 ^ 32)
    (hend : 2 ^ 32 ≤ p.periodStartTime + p.withdrawalPeriodSec) : p.availableThisPeriod t = .ok p.withdrawalLimit := by
  refine availableThisPeriod_of_le ?_
  unfold toU32
  omega

end WithdrawPermission

namespace WithdrawPermissionClaim
variable {d : Database} {p p' : WithdrawPermission} {o : WithdrawPermissionClaimOperation}

/-- The permission after a claim in a period that has begun -/
theorem advance_eq_ok (hstart : p.periodStartTime ≤ d.headBlockTime) (htime : d.headBlockTime < 2 ^ 32) (h : advance d p o = .ok p') :
    p' = { p with
      periodStartTime := p.currentPeriod d.headBlockTime
      claimedThisPeriod := o.amountToWithdraw.amount +
        if (d.headBlockTime - p.periodStartTime) / p.withdrawalPeriodSec = 0 then p.claimedThisPeriod else 0 } := by
  have hperiods : ((d.headBlockTime : Int) - p.periodStartTime).tdiv p.withdrawalPeriodSec =
      ((d.headBlockTime - p.periodStartTime) / p.withdrawalPeriodSec : Nat) := by
    rw [← Nat.cast_sub hstart, Int.ofNat_tdiv]
  have hcurrent : p.currentPeriod d.headBlockTime < 2 ^ 32 := (p.currentPeriod_le hstart).trans_lt htime
  obtain ⟨claimed, hclaimed, h⟩ := bind_eq_ok.mp h
  obtain rfl := Except.ok.inj h
  rw [hperiods] at hclaimed ⊢
  have hnew : toU32 (p.periodStartTime + ((d.headBlockTime - p.periodStartTime) / p.withdrawalPeriodSec : Nat) * p.withdrawalPeriodSec) =
      p.currentPeriod d.headBlockTime := by
    rw [← Nat.cast_mul, ← Nat.cast_add]
    exact toU32_natCast hcurrent
  rw [hnew]
  split at hclaimed
  · rename_i hzero
    obtain ⟨-, rfl⟩ := safe_eq_ok.mp hclaimed
    rw [if_pos (by exact_mod_cast hzero), add_comm]
  · rename_i hzero
    obtain rfl := Except.ok.inj hclaimed
    rw [if_neg (by exact_mod_cast hzero), add_zero]

end WithdrawPermissionClaim

namespace Permitted
variable {s s' : Permitted} {d : Database} {t start : Nat} {u : WithdrawPermissionTerms} {o : WithdrawPermissionClaimOperation}

theorem claimedSince_cons {c : Nat × Int} {permit : WithdrawPermission} {now : Nat} {claims : List (Nat × Int)} (h : start ≤ c.1) :
    claimedSince ⟨permit, now, c :: claims⟩ start = c.2 + claimedSince ⟨permit, now, claims⟩ start := by
  simp [claimedSince, h]

theorem claimedSince_eq_zero (h : ∀ c ∈ s.claims, c.1 < start) : s.claimedSince start = 0 := by
  have hnone : s.claims.filter (fun c => start ≤ c.1) = [] :=
    List.filter_eq_nil_iff.mpr fun c hc => by simpa using h c hc
  rw [claimedSince, hnone]
  rfl

/-- Nothing has been claimed yet when the terms are changed, and what is claimed is claimed in a period that has begun and ends before
    the last time. -/
def Exact (s : Permitted) (i : Database × PermissionOperation) : Prop :=
  match i.2 with
  | .update _ => s.permit.claimedThisPeriod = 0
  | .claim _ => s.permit.periodStartTime ≤ i.1.headBlockTime ∧
    s.permit.currentPeriod i.1.headBlockTime + s.permit.withdrawalPeriodSec < 2 ^ 32

/-- Not more than the limit has been claimed in the period, and the rest is available. -/
def Kept (s : Permitted) (t : Nat) : Prop :=
  s.claimedSince (s.permit.currentPeriod t) ≤ s.permit.withdrawalLimit.amount ∧ s.permit.availableThisPeriod t =
    .ok ⟨s.permit.withdrawalLimit.amount - s.claimedSince (s.permit.currentPeriod t), s.permit.withdrawalLimit.assetId⟩

/-- What has been claimed is counted in the period of the last claim. -/
structure Tracks (s : Permitted) : Prop where
  sec : 0 < s.permit.withdrawalPeriodSec
  sec_lt : s.permit.withdrawalPeriodSec < 2 ^ 32
  limit : 0 < s.permit.withdrawalLimit.amount
  limit_range : InInt64 s.permit.withdrawalLimit.amount
  fits : s.claims ≠ [] → s.permit.periodStartTime + s.permit.withdrawalPeriodSec < 2 ^ 32
  before : ∀ c ∈ s.claims, c.1 < s.permit.periodStartTime + s.permit.withdrawalPeriodSec
  claimed : s.permit.claimedThisPeriod = s.claimedSince s.permit.periodStartTime
  nonneg : 0 ≤ s.permit.claimedThisPeriod
  claimed_le : s.permit.claimedThisPeriod ≤ s.permit.withdrawalLimit.amount
  unclaimed : s.permit.claimedThisPeriod = 0 → s.claims = []

namespace Tracks

/-- What is carried over into the current period -/
theorem carried (h : s.Tracks) (hstart : s.permit.periodStartTime ≤ t) :
    (if (t - s.permit.periodStartTime) / s.permit.withdrawalPeriodSec = 0 then s.permit.claimedThisPeriod else 0) =
      s.claimedSince (s.permit.currentPeriod t) := by
  split
  · rename_i hzero
    have hlt := (Nat.div_eq_zero_iff_lt h.sec).mp hzero
    rw [WithdrawPermission.currentPeriod_of_lt (by omega), h.claimed]
  · rename_i hlater
    have hle := Nat.not_lt.mp fun hlt => hlater ((Nat.div_eq_zero_iff_lt h.sec).mpr hlt)
    have hcurrent := WithdrawPermission.currentPeriod_of_le (t := t) h.sec (by omega)
    exact (claimedSince_eq_zero fun c hc => (h.before c hc).trans_le hcurrent).symm

theorem claimedSince_bounds (h : s.Tracks) (hstart : s.permit.periodStartTime ≤ t) :
    0 ≤ s.claimedSince (s.permit.currentPeriod t) ∧ s.claimedSince (s.permit.currentPeriod t) ≤ s.permit.withdrawalLimit.amount := by
  rw [← h.carried hstart]
  split
  · exact ⟨h.nonneg, h.claimed_le⟩
  · exact ⟨le_rfl, h.limit.le⟩

theorem kept (h : s.Tracks) (hstart : s.permit.periodStartTime ≤ t) (ht : t < 2 ^ 32) : s.Kept t := by
  refine ⟨(h.claimedSince_bounds hstart).2, ?_⟩
  by_cases hend : s.permit.periodStartTime + s.permit.withdrawalPeriodSec < 2 ^ 32
  · rcases Nat.lt_or_ge t (s.permit.periodStartTime + s.permit.withdrawalPeriodSec) with hlt | hge
    · have hle := h.claimed_le
      rw [WithdrawPermission.currentPeriod_of_lt hlt, ← h.claimed,
        WithdrawPermission.availableThisPeriod_of_lt hend hlt h.limit_range h.nonneg, max_eq_left (by omega)]
    · have hcurrent := WithdrawPermission.currentPeriod_of_le h.sec hge
      rw [claimedSince_eq_zero fun c hc => (h.before c hc).trans_le hcurrent, sub_zero]
      refine WithdrawPermission.availableThisPeriod_of_le ?_
      rw [← Nat.cast_add, toU32_natCast hend]
      exact hge
  · -- nothing has been claimed
    have hnone : s.claims = [] := by
      by_contra hne
      exact hend (h.fits hne)
    rw [claimedSince_eq_zero (by rw [hnone]; exact fun _ hc => nomatch hc), sub_zero]
    exact WithdrawPermission.availableThisPeriod_of_wrap hstart ht h.sec_lt (not_lt.mp hend)

end Tracks

/-! ### Steps -/

theorem validate_terms (h : u.validate = .ok ()) : 0 < u.withdrawalLimit.amount ∧ 0 < u.withdrawalPeriodSec := by
  obtain ⟨_, hlimit, h⟩ := bind_eq_ok.mp h
  obtain ⟨_, -, h⟩ := bind_eq_ok.mp h
  obtain ⟨_, hsec, -⟩ := bind_eq_ok.mp h
  exact ⟨fcAssert_eq_ok.mp hlimit, fcAssert_eq_ok.mp hsec⟩

theorem step_update (h : s.step (d, .update u) = some s') :
    u.InRange ∧ 0 < u.withdrawalLimit.amount ∧ 0 < u.withdrawalPeriodSec ∧
      s' = ⟨WithdrawPermissionUpdate.doApply s.permit u, d.headBlockTime, s.claims⟩ := by
  unfold step at h
  split at h
  · rename_i hpossible
    obtain ⟨_, hvalid, h⟩ := bind_eq_ok.mp (toOption_eq_some.mp h)
    obtain ⟨_, -, h⟩ := bind_eq_ok.mp h
    obtain ⟨hlimit, hsec⟩ := validate_terms hvalid
    exact ⟨hpossible.2.2, hlimit, hsec, (Except.ok.inj h).symm⟩
  · cases h

/-- A claim of some amount, which was available -/
theorem step_claim (h : s.step (d, .claim o) = some s') (hstart : s.permit.periodStartTime ≤ d.headBlockTime) :
    d.headBlockTime < 2 ^ 32 ∧ 0 < o.amountToWithdraw.amount ∧
      (∃ available, s.permit.availableThisPeriod d.headBlockTime = .ok available ∧ o.amountToWithdraw.amount ≤ available.amount) ∧
      s'.permit = { s.permit with
        periodStartTime := s.permit.currentPeriod d.headBlockTime
        claimedThisPeriod := o.amountToWithdraw.amount +
          if (d.headBlockTime - s.permit.periodStartTime) / s.permit.withdrawalPeriodSec = 0 then s.permit.claimedThisPeriod else 0 } ∧
      s'.claims = (d.headBlockTime, o.amountToWithdraw.amount) :: s.claims := by
  unfold step at h
  split at h
  · rename_i hpossible
    obtain ⟨-, htime, -⟩ := hpossible
    obtain ⟨_, hvalid, h⟩ := bind_eq_ok.mp (toOption_eq_some.mp h)
    obtain ⟨_, hevaluate, h⟩ := bind_eq_ok.mp h
    obtain ⟨_, happly, h⟩ := bind_eq_ok.mp h
    obtain ⟨permit, hadvance, happly⟩ := bind_eq_ok.mp happly
    obtain ⟨_, -, happly⟩ := bind_eq_ok.mp happly
    obtain ⟨_, -, happly⟩ := bind_eq_ok.mp happly
    obtain rfl := Except.ok.inj happly
    obtain rfl := Except.ok.inj h
    obtain ⟨_, -, hvalid⟩ := bind_eq_ok.mp hvalid
    obtain ⟨_, hpos, -⟩ := bind_eq_ok.mp hvalid
    obtain ⟨_, -, hevaluate⟩ := bind_eq_ok.mp hevaluate
    obtain ⟨_, -, hevaluate⟩ := bind_eq_ok.mp hevaluate
    obtain ⟨_, -, hevaluate⟩ := bind_eq_ok.mp hevaluate
    obtain ⟨_, -, hevaluate⟩ := bind_eq_ok.mp hevaluate
    obtain ⟨available, havailable, hevaluate⟩ := bind_eq_ok.mp hevaluate
    obtain ⟨within, hwithin, hevaluate⟩ := bind_eq_ok.mp hevaluate
    obtain ⟨_, hassert, -⟩ := bind_eq_ok.mp hevaluate
    obtain rfl : within = true := fcAssert_eq_ok.mp hassert
    exact ⟨htime, fcAssert_eq_ok.mp hpos, ⟨available, havailable, (Asset.le_eq_true hwithin).2⟩,
      WithdrawPermissionClaim.advance_eq_ok hstart htime hadvance, rfl⟩
  · cases h

/-- What has been claimed in the period of the claim, with the claim -/
theorem claimedSince_claim (hs : s.Tracks) (hstart : s.permit.periodStartTime ≤ d.headBlockTime) {amount : Int}
    (hclaims : s'.claims = (d.headBlockTime, amount) :: s.claims) :
    s'.claimedSince (s.permit.currentPeriod d.headBlockTime) = amount +
      if (d.headBlockTime - s.permit.periodStartTime) / s.permit.withdrawalPeriodSec = 0 then s.permit.claimedThisPeriod else 0 := by
  rw [hs.carried hstart]
  obtain ⟨permit, now, claims⟩ := s'
  subst hclaims
  exact claimedSince_cons (WithdrawPermission.currentPeriod_le hstart)

theorem tracks_of_created (h : s.Created) : s.Tracks := by
  obtain ⟨d, o, -, hrange, hvalid, -, rfl⟩ := h
  obtain ⟨hlimit, hsec⟩ := validate_terms hvalid
  exact ⟨hsec, hrange.2.1, hlimit, hrange.1, fun hne => absurd rfl hne, (fun _ hc => nomatch hc), rfl, le_rfl,
    hlimit.le, fun _ => rfl⟩

theorem update_tracks (hs : s.Tracks) (hexact : s.Exact (d, .update u)) (h : s.step (d, .update u) = some s') : s'.Tracks := by
  obtain ⟨hrange, hlimit, hsec, rfl⟩ := step_update h
  have hnone : s.claims = [] := hs.unclaimed hexact
  have hzero : s.permit.claimedThisPeriod = 0 := hexact
  refine ⟨hsec, hrange.2.1, hlimit, hrange.1, fun hne => absurd hnone hne, ?_, ?_, hs.nonneg, hzero.trans_le hlimit.le, hs.unclaimed⟩
  · show ∀ c ∈ s.claims, _
    rw [hnone]
    exact fun _ hc => nomatch hc
  · refine hzero.trans (claimedSince_eq_zero ?_).symm
    show ∀ c ∈ s.claims, _
    rw [hnone]
    exact fun _ hc => nomatch hc

theorem claim_tracks (hs : s.Tracks) (hexact : s.Exact (d, .claim o)) (h : s.step (d, .claim o) = some s') : s'.Tracks := by
  obtain ⟨hstart, hend⟩ : s.permit.periodStartTime ≤ d.headBlockTime ∧
    s.permit.currentPeriod d.headBlockTime + s.permit.withdrawalPeriodSec < 2 ^ 32 := hexact
  obtain ⟨htime, hpos, ⟨available, havailable, hle⟩, hpermit, hclaims⟩ := step_claim h hstart
  have hsum := claimedSince_claim hs hstart hclaims
  have hbounds := hs.claimedSince_bounds hstart
  rw [← hs.carried hstart] at hbounds
  obtain rfl := Except.ok.inj ((hs.kept hstart htime).2.symm.trans havailable)
  rw [← hs.carried hstart] at hle
  refine ⟨?_, ?_, ?_, ?_, fun _ => ?_, fun c hc => ?_, ?_, ?_, ?_, fun hzero => ?_⟩ <;> rw [hpermit] at *
  · exact hs.sec
  · exact hs.sec_lt
  · exact hs.limit
  · exact hs.limit_range
  · exact hend
  · rw [hclaims] at hc
    rcases List.mem_cons.mp hc with rfl | hc
    · exact WithdrawPermission.lt_currentPeriod hs.sec
    · exact (hs.before c hc).trans_le (Nat.add_le_add_right WithdrawPermission.le_currentPeriod _)
  · exact hsum.symm
  · exact add_nonneg hpos.le hbounds.1
  · exact le_sub_iff_add_le.mp hle
  · exact absurd hzero (add_pos_of_pos_of_nonneg hpos hbounds.1).ne'

theorem tracks_of_reaches {s₀ : Permitted} (h₀ : s₀.Created) (h : Reaches step Exact s₀ s) : s.Tracks := by
  refine h.invariant (fun s i s' hs hexact hstep => ?_) (tracks_of_created h₀)
  obtain ⟨d, o⟩ := i
  cases o with
  | update u => exact update_tracks hs hexact hstep
  | claim o => exact claim_tracks hs hexact hstep

/-- The full limit is available under the new terms if and only if nothing has been claimed under the old ones. -/
theorem update_available_iff (hs : s.Tracks) (h : s.step (d, .update u) = some s')
    (hend : u.periodStartTime + u.withdrawalPeriodSec < 2 ^ 32) :
    (∀ t, u.periodStartTime ≤ t → t < 2 ^ 32 → s'.permit.availableThisPeriod t = .ok u.withdrawalLimit) ↔ s.Exact (d, .update u) := by
  obtain ⟨hrange, hlimit, hsec, rfl⟩ := step_update h
  have hnonneg := hs.nonneg
  constructor
  · intro hfull
    have hfirst := WithdrawPermission.availableThisPeriod_of_lt (p := WithdrawPermissionUpdate.doApply s.permit u) (t := u.periodStartTime)
      hend (Nat.lt_add_of_pos_right hsec) hrange.1 hnonneg
    have hamount := congrArg Asset.amount (Except.ok.inj (hfirst.symm.trans (hfull u.periodStartTime le_rfl (by omega))))
    replace hamount : max (u.withdrawalLimit.amount - s.permit.claimedThisPeriod) 0 = u.withdrawalLimit.amount := hamount
    show s.permit.claimedThisPeriod = 0
    omega
  · intro hexact t hstart ht
    obtain ⟨-, hkept⟩ := (update_tracks hs hexact h).kept hstart ht
    have hnone : s.claims = [] := hs.unclaimed hexact
    rw [claimedSince_eq_zero (by rw [hnone]; exact fun _ hc => nomatch hc), sub_zero] at hkept
    exact hkept

/-- The claim is counted if and only if its period ends before the last time. -/
theorem claim_kept_iff (hs : s.Tracks) (h : s.step (d, .claim o) = some s') (hstart : s.permit.periodStartTime ≤ d.headBlockTime) :
    s'.Kept d.headBlockTime ↔ s.Exact (d, .claim o) := by
  obtain ⟨htime, hpos, -, hpermit, hclaims⟩ := step_claim h hstart
  have hcurrent := WithdrawPermission.currentPeriod_le hstart
  have hlt := WithdrawPermission.lt_currentPeriod (t := d.headBlockTime) hs.sec
  have hperiod : s'.permit.currentPeriod d.headBlockTime = s.permit.currentPeriod d.headBlockTime := by
    rw [hpermit]
    exact WithdrawPermission.currentPeriod_of_lt hlt
  constructor
  · rintro ⟨-, hkept⟩
    refine ⟨hstart, ?_⟩
    by_contra hend
    have hwrap : s'.permit.availableThisPeriod d.headBlockTime = .ok s'.permit.withdrawalLimit := by
      refine WithdrawPermission.availableThisPeriod_of_wrap ?_ htime ?_ ?_ <;> rw [hpermit]
      · exact hcurrent
      · exact hs.sec_lt
      · exact not_lt.mp hend
    -- what has just been claimed is still available
    have hamount := congrArg Asset.amount (Except.ok.inj (hwrap.symm.trans hkept))
    have hbounds := hs.claimedSince_bounds hstart
    rw [hperiod, claimedSince_claim hs hstart hclaims, hs.carried hstart] at hamount
    dsimp only at hamount
    omega
  · intro hexact
    refine (claim_tracks hs hexact h).kept ?_ htime
    rw [hpermit]
    exact hcurrent

/-- The limit is kept along the runs of `Exact` operations, and by the operation after them if and only if it is `Exact`. -/
theorem withdrawalLimit_kept {s₀ : Permitted} (h₀ : s₀.Created) (h : Reaches step Exact s₀ s) :
    (∀ t, s.permit.periodStartTime ≤ t → t < 2 ^ 32 → s.Kept t) ∧
    (∀ d u s', s.step (d, .update u) = some s' → u.periodStartTime + u.withdrawalPeriodSec < 2 ^ 32 →
      ((∀ t, u.periodStartTime ≤ t → t < 2 ^ 32 → s'.permit.availableThisPeriod t = .ok u.withdrawalLimit) ↔ s.Exact (d, .update u))) ∧
    (∀ d o s', s.step (d, .claim o) = some s' → s.permit.periodStartTime ≤ d.headBlockTime →
      (s'.Kept d.headBlockTime ↔ s.Exact (d, .claim o))) := by
  have hs := tracks_of_reaches h₀ h
  exact ⟨fun t => hs.kept, fun d u s' => update_available_iff hs, fun d o s' => claim_kept_iff hs⟩

section
open Sample

def terms (limit : Int) (sec periods start : Nat) : WithdrawPermissionTerms := ⟨noFee, 2, 3, ⟨limit, 1⟩, sec, periods, start⟩

def claimOf (amount : Int) : WithdrawPermissionClaimOperation := ⟨noFee, 2, 3, ⟨amount, 1⟩⟩

def genesisAt (time : Nat) : Database := { genesis with headBlockTime := time }

def daily : Permitted := ⟨WithdrawPermissionCreate.doApply (terms 100 86400 30 1600000010), 1600000000, []⟩

theorem daily_created : daily.Created := ⟨genesis, terms 100 86400 30 1600000010, by decide, by decide, rfl, rfl, rfl⟩

/-- Sixty claimed on the first day, after the limit has been doubled -/
def claimed : Permitted := ⟨⟨2, 3, ⟨200, 1⟩, 86400, 1600000020, 1602592020, 60⟩, 1600000030, [(1600000030, 60)]⟩

theorem claimed_reached : Reaches step Exact daily claimed := by
  let doubled : Permitted := { daily with permit := WithdrawPermissionUpdate.doApply daily.permit (terms 200 86400 30 1600000020) }
  have hupdate : daily.step (genesis, .update (terms 200 86400 30 1600000020)) = some doubled := rfl
  have hclaim : doubled.step (genesisAt 1600000030, .claim (claimOf 60)) = some claimed := by decide +kernel
  exact .step (.step .refl (show daily.Exact (genesis, .update _) from rfl) hupdate)
    (show doubled.Exact (genesisAt 1600000030, .claim _) from ⟨by decide, by decide⟩) hclaim

theorem withdrawalLimit_kept_claimed : claimed.Kept 1600000040 :=
  (withdrawalLimit_kept daily_created claimed_reached).1 1600000040 (by decide) (by decide)

/-- After sixty have been claimed on the first day and the terms renewed for the next days, only forty are available on the first of them.
    And with periods of three billion seconds, everything is available again after a claim. -/
theorem withdrawalLimit_broken :
    (∃ s, daily.Created ∧ [(genesisAt 1600000030, PermissionOperation.claim (claimOf 60)),
        (genesisAt 1600000030, .update (terms 100 86400 30 1600086430))].foldlM step daily = some s ∧
      s.permit.availableThisPeriod 1600086430 = .ok ⟨40, 1⟩) ∧
    (∃ s₀ s, Created s₀ ∧ [(genesisAt 1600000010, PermissionOperation.claim (claimOf 100)),
        (genesisAt 1600000015, .claim (claimOf 100))].foldlM step s₀ = some s ∧
      s.permit.withdrawalLimit = ⟨100, 1⟩ ∧ s.claimedSince (s.permit.currentPeriod 1600000015) = 200) := by
  have hcreated : Created ⟨WithdrawPermissionCreate.doApply (terms 100 3000000000 3 1600000010), 1600000000, []⟩ :=
    ⟨genesis, terms 100 3000000000 3 1600000010, by decide, by decide, rfl, rfl, rfl⟩
  let twice : Permitted := ⟨⟨2, 3, ⟨100, 1⟩, 3000000000, 1600000010, 2010065418, 200⟩, 1600000015, [(1600000015, 100), (1600000010, 100)]⟩
  exact ⟨⟨_, daily_created, rfl, rfl⟩, ⟨_, twice, hcreated, rfl, rfl, by decide⟩⟩

end

end Permitted

end Khc.Chain
