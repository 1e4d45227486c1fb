import Khc.Payout.VestingBalance
import Khc.Lib.Run

/-! Linear vesting never overpays, as long as no deposit raises the balance above the one that it began with. -/

namespace Khc.Payout

open Lib
open Chain (Asset InInt64 toU128)

/-- A vesting balance with the time of its last change, and what has been put in and taken out since it began -/
structure VestingRun where
  object : VestingBalance
  now : Nat
  deposited : Int
  withdrawn : Int
  deriving DecidableEq, Repr

inductive VestingChange
  | deposit (now : Nat) (amount : Asset)
  | withdraw (now : Nat) (amount : Asset)

namespace VestingRun

/-- A deposit that is allowed, or a `vesting_balance_withdraw_operation` that is accepted; time does not go back. -/
def step (r : VestingRun) : VestingChange → Option VestingRun
  | .deposit now amount =>
    if r.now ≤ now ∧ r.object.isDepositAllowed now amount = .ok true then
      (r.object.deposit now amount).toOption.map fun object =>
        { r with object, now, deposited := r.deposited + amount.amount }
    else none
  | .withdraw now amount =>
    if r.now ≤ now ∧ 0 < amount.amount ∧ r.object.isWithdrawAllowed now amount = .ok true then
      (r.object.withdraw now amount).toOption.map fun object =>
        { r with object, now, withdrawn := r.withdrawn + amount.amount }
    else none

end VestingRun

namespace LinearVestingPolicy
variable (p : LinearVestingPolicy)

/-- The part of the begin balance that has vested at some time: all of it after the duration, and before it the part that
    has elapsed, rounded down -/
def vested (t : Nat) : Int :=
  if p.vestingDurationSeconds = 0 ∧ p.beginTimestamp < t then p.beginBalance
  else p.beginBalance * min (t - p.beginTimestamp : Nat) p.vestingDurationSeconds / p.vestingDurationSeconds

/-- The amounts and times are what their types hold, and there is something to vest or nothing. -/
structure Fits : Prop where
  nonneg : 0 ≤ p.beginBalance
  amount : InInt64 p.beginBalance
  duration : p.vestingDurationSeconds < 2 ^ 32

/-- The balance as it begins -/
structure Begins (r : VestingRun) : Prop where
  policy : r.object.policy = .linear p
  balance : r.object.balance.amount = p.beginBalance
  deposited : r.deposited = 0
  withdrawn : r.withdrawn = 0

/-- A deposit is of an amount that is not negative and leaves the balance at most the one that it began with. -/
def Within (r : VestingRun) : VestingChange → Prop
  | .deposit _ amount => 0 ≤ amount.amount ∧ r.object.balance.amount + amount.amount ≤ p.beginBalance
  | .withdraw _ _ => True

/-- What has been withdrawn is covered at some time, and what may be withdrawn then is calculated without an assertion that
    fails. -/
structure Covered (r : VestingRun) (t : Nat) : Prop where
  withdrawn : r.withdrawn ≤ r.deposited + p.vested t
  cliff : t - p.beginTimestamp < p.vestingCliffSeconds → r.withdrawn = 0
  balance : 0 ≤ r.object.balance.amount
  allowed : ∃ a, r.object.getAllowedWithdraw t = .ok a ∧ 0 ≤ a.amount

section
variable {p : LinearVestingPolicy} {r r' : VestingRun} {t t' : Nat}

/-! ### What has vested -/

theorem vested_bounds (hp : p.Fits) : 0 ≤ p.vested t ∧ p.vested t ≤ p.beginBalance := by
  have hnonneg := hp.nonneg
  unfold vested
  split
  · exact ⟨hnonneg, le_refl _⟩
  · have hpart : 0 ≤ p.beginBalance * min (t - p.beginTimestamp : Nat) p.vestingDurationSeconds :=
      Int.mul_nonneg hnonneg (Int.natCast_nonneg _)
    refine ⟨Int.ediv_nonneg hpart (Int.natCast_nonneg _), ?_⟩
    rcases p.vestingDurationSeconds.eq_zero_or_pos with hzero | hpos
    · rw [hzero, Nat.cast_zero, Int.ediv_zero]
      exact hnonneg
    · refine Int.ediv_le_of_le_mul (by omega) (mul_le_mul_of_nonneg_left ?_ hnonneg)
      exact_mod_cast min_le_right _ _

theorem vested_mono (hp : p.Fits) (h : t ≤ t') : p.vested t ≤ p.vested t' := by
  by_cases hall : p.vestingDurationSeconds = 0 ∧ p.beginTimestamp < t'
  · have hvested : p.vested t' = p.beginBalance := if_pos hall
    rw [hvested]
    exact (vested_bounds hp).2
  · rw [vested, vested, if_neg hall, if_neg fun hall' => hall ⟨hall'.1, hall'.2.trans_le h⟩]
    rcases p.vestingDurationSeconds.eq_zero_or_pos with hzero | hpos
    · rw [hzero, Nat.cast_zero, Int.ediv_zero, Int.ediv_zero]
    · refine Int.ediv_le_ediv (by omega) (mul_le_mul_of_nonneg_left ?_ hp.nonneg)
      exact_mod_cast min_le_min_right _ (Nat.sub_le_sub_right h _)

/-- What the policy calculates as vested once the time has begun -/
theorem totalVested_eq (hp : p.Fits) (h : p.beginTimestamp < t) : p.totalVested (t - p.beginTimestamp) = .ok (p.vested t) := by
  have hnonneg := hp.nonneg
  have hmax := hp.amount.2
  have hduration := hp.duration
  unfold totalVested
  split
  · rename_i hearly
    have hmin : min (t - p.beginTimestamp) p.vestingDurationSeconds = t - p.beginTimestamp := min_eq_left hearly.le
    have hpart : 0 ≤ p.beginBalance * (t - p.beginTimestamp : Nat) := Int.mul_nonneg hnonneg (Int.natCast_nonneg _)
    have hfits : p.beginBalance * (t - p.beginTimestamp : Nat) < 2 ^ 128 := by
      have : ((t - p.beginTimestamp : Nat) : Int) < 2 ^ 32 := by omega
      nlinarith
    have hvested : p.vested t = p.beginBalance * (t - p.beginTimestamp : Nat) / p.vestingDurationSeconds := by
      rw [vested, if_neg fun hall => by omega, hmin]
    have hle := (vested_bounds (t := t) hp).2
    rw [Chain.toU128_of_nonneg hnonneg hp.amount, toU128, Int.emod_eq_of_lt hpart hfits, ← hvested]
    exact toShare_of_lt (by omega)
  · rename_i hlate
    rcases p.vestingDurationSeconds.eq_zero_or_pos with hzero | hpos
    · rw [vested, if_pos ⟨hzero, h⟩]
    · rw [vested, if_neg (by omega), min_eq_right (by omega), Int.mul_ediv_cancel _ (by omega)]

/-- What may be withdrawn, as long as what is gone has vested -/
theorem getAllowedWithdraw_eq (hp : p.Fits) {b now amount} (hb : 0 ≤ b.amount) (hb' : b.amount ≤ p.beginBalance)
    (hgone : p.beginBalance - b.amount ≤ p.vested now) :
    p.getAllowedWithdraw ⟨b, now, amount⟩ =
      .ok ⟨if now > p.beginTimestamp ∧ now - p.beginTimestamp ≥ p.vestingCliffSeconds then p.vested now - (p.beginBalance - b.amount)
        else 0, b.assetId⟩ := by
  have hmax := hp.amount.2
  obtain ⟨hvested, hvested'⟩ := vested_bounds (t := now) hp
  unfold getAllowedWithdraw
  split
  · rename_i hpast
    simp only [bind_eq_ok, ensure_eq_ok, safe_eq_ok, pure_eq_ok]
    exact ⟨p.vested now, totalVested_eq hp hpast.1, (), hvested, _, ⟨⟨by omega, by omega⟩, rfl⟩, (), by omega, _,
      ⟨⟨by omega, by omega⟩, rfl⟩, (), by omega, rfl⟩
  · rfl

/-! ### Runs -/

/-- What holds of a balance whose deposits never raise it above the begin balance -/
structure Inv (p : LinearVestingPolicy) (r : VestingRun) : Prop where
  policy : r.object.policy = .linear p
  balance : r.object.balance.amount = p.beginBalance + r.deposited - r.withdrawn
  nonneg : 0 ≤ r.object.balance.amount
  le : r.object.balance.amount ≤ p.beginBalance
  withdrawn : r.withdrawn ≤ r.deposited + p.vested r.now
  cliff : r.now - p.beginTimestamp < p.vestingCliffSeconds → r.withdrawn = 0

theorem Begins.inv (h : p.Begins r) (hp : p.Fits) : Inv p r where
  policy := h.policy
  balance := by rw [h.balance, h.deposited, h.withdrawn, add_zero, sub_zero]
  nonneg := h.balance ▸ hp.nonneg
  le := h.balance.le
  withdrawn := by
    rw [h.deposited, h.withdrawn, zero_add]
    exact (vested_bounds hp).1
  cliff _ := h.withdrawn

theorem Inv.gone (h : Inv p r) (hp : p.Fits) (ht : r.now ≤ t) : p.beginBalance - r.object.balance.amount ≤ p.vested t := by
  have hbalance := h.balance
  have hwithdrawn := h.withdrawn
  have hmono := vested_mono hp ht
  omega

theorem Inv.covered (h : Inv p r) (hp : p.Fits) (ht : r.now ≤ t) : p.Covered r t where
  withdrawn := h.withdrawn.trans (add_le_add_right (vested_mono hp ht) _)
  cliff hearly := h.cliff ((Nat.sub_le_sub_right ht _).trans_lt hearly)
  balance := h.nonneg
  allowed := by
    have hgone := h.gone hp ht
    rw [VestingBalance.getAllowedWithdraw, h.policy]
    refine ⟨_, getAllowedWithdraw_eq hp h.nonneg h.le hgone, ?_⟩
    dsimp only
    split
    · omega
    · exact le_refl 0

theorem Inv.deposit {now : Nat} {amount : Asset} (h : Inv p r) (hp : p.Fits) (hw : p.Within r (.deposit now amount))
    (hs : r.step (.deposit now amount) = some r') : Inv p r' := by
  rw [VestingRun.step] at hs
  split at hs
  · rename_i hallowed
    obtain ⟨object, hobject, rfl⟩ := Option.map_eq_some_iff.mp hs
    rw [toOption_eq_some] at hobject
    simp only [VestingBalance.deposit, h.policy, VestingPolicy.onDeposit, Lib.ok_bind, bind_eq_ok, addTo, ensure_eq_ok, safe_eq_ok,
      pure_eq_ok] at hobject
    obtain ⟨balance, ⟨-, -, sum, ⟨-, rfl⟩, rfl⟩, rfl⟩ := hobject
    obtain ⟨hnonneg, hle⟩ := hw
    have hold := h.nonneg
    have hbalance := h.balance
    have hwithdrawn := h.withdrawn
    have hmono := vested_mono hp hallowed.1
    exact ⟨rfl, by dsimp only; omega, by dsimp only; omega, hle, by dsimp only; omega,
      fun hearly => h.cliff ((Nat.sub_le_sub_right hallowed.1 _).trans_lt hearly)⟩
  · cases hs

theorem Inv.withdraw {now : Nat} {amount : Asset} (h : Inv p r) (hp : p.Fits) (hs : r.step (.withdraw now amount) = some r') :
    Inv p r' := by
  rw [VestingRun.step] at hs
  split at hs
  · rename_i hallowed
    obtain ⟨hnow, hpos, hallowed⟩ := hallowed
    obtain ⟨object, hobject, rfl⟩ := Option.map_eq_some_iff.mp hs
    have hgone := h.gone hp hnow
    have hnonneg := h.nonneg
    have hle := h.le
    have hbalance := h.balance
    have hwithdrawn := h.withdrawn
    have hvested := (vested_bounds (t := now) hp).2
    simp only [VestingBalance.isWithdrawAllowed, h.policy, VestingPolicy.isWithdrawAllowed, bind_eq_ok, ensure_eq_ok, pure_eq_ok]
      at hallowed
    obtain ⟨result, hresult, -, -, -, -, rfl⟩ := hallowed
    unfold isWithdrawAllowed at hresult
    split at hresult
    · rename_i hasset
      dsimp only at hasset
      rw [getAllowedWithdraw_eq hp hnonneg hle hgone, Lib.ok_bind, le_of_assetId (by exact hasset)] at hresult
      have hamount := of_decide_eq_true (Except.ok.inj hresult)
      rw [toOption_eq_some] at hobject
      simp only [VestingBalance.withdraw, h.policy, VestingPolicy.onWithdraw, Lib.ok_bind, bind_eq_ok, subFrom, ensure_eq_ok, safe_eq_ok,
        pure_eq_ok] at hobject
      obtain ⟨-, -, -, -, balance, ⟨-, -, rest, ⟨-, rfl⟩, rfl⟩, rfl⟩ := hobject
      dsimp only at hamount
      split at hamount
      · rename_i hpast
        exact ⟨rfl, by dsimp only; omega, by dsimp only; omega, by dsimp only; omega, by dsimp only; omega,
          fun hearly => by dsimp only at hearly; omega⟩
      · omega
    · cases hresult
  · cases hs

end

end LinearVestingPolicy

/-- As long as no deposit raises a linear vesting balance above the one it began with, what has been withdrawn is at any time
    covered by what has been deposited and what has vested. -/
theorem linearVesting_covered {p : LinearVestingPolicy} {r₀ r : VestingRun} (hp : p.Fits) (h₀ : p.Begins r₀)
    (h : Reaches VestingRun.step p.Within r₀ r) {t : Nat} (ht : r.now ≤ t) : p.Covered r t := by
  refine (h.invariant (I := p.Inv) (fun r c r' hinv hw hs => ?_) (h₀.inv hp)).covered hp ht
  cases c with
  | deposit now amount => exact hinv.deposit hp hw hs
  | withdraw now amount => exact hinv.withdraw hp hs

section

/-- 100 that vest within 100 seconds, after a cliff of 10 -/
def Sample.policy : LinearVestingPolicy := ⟨0, 10, 100, 100⟩

def Sample.begins : VestingRun := ⟨⟨0, ⟨100, 0⟩, .linear Sample.policy⟩, 0, 0, 0⟩

theorem Sample.policy_fits : policy.Fits := ⟨by decide, by decide, by decide⟩

theorem Sample.begins_begins : policy.Begins begins := ⟨rfl, rfl, rfl, rfl⟩

/-- After a deposit of 50, the balance is greater than what it began with. -/
theorem linearVesting_uncovered : ¬∀ (p : LinearVestingPolicy) (r₀ r : VestingRun), p.Fits → p.Begins r₀ →
    Reaches VestingRun.step (fun _ _ => True) r₀ r → ∀ t, r.now ≤ t → p.Covered r t := by
  intro h
  have hdeposit : [.deposit 5 ⟨50, 0⟩].foldlM VestingRun.step Sample.begins =
      some ⟨⟨0, ⟨150, 0⟩, .linear Sample.policy⟩, 5, 50, 0⟩ := by decide
  have hreaches := Reaches.of_foldlM (P := fun _ _ => True) hdeposit fun _ _ _ => trivial
  obtain ⟨a, ha, -⟩ := (h _ _ _ Sample.policy_fits Sample.begins_begins hreaches 20 (by decide)).allowed
  rw [show VestingBalance.getAllowedWithdraw _ _ = .error .assertion by decide] at ha
  cases ha

/-- 30 are withdrawn and 20 of them deposited again. -/
theorem linearVesting_covered_redeposit : ∃ r : VestingRun, r.withdrawn = 30 ∧ r.deposited = 20 ∧ Sample.policy.Covered r 60 := by
  have hwithdraw : Reaches VestingRun.step Sample.policy.Within Sample.begins ⟨⟨0, ⟨70, 0⟩, .linear Sample.policy⟩, 40, 0, 30⟩ :=
    Reaches.refl.step (i := .withdraw 40 ⟨30, 0⟩) trivial (by decide)
  have hdeposit := hwithdraw.step (i := .deposit 50 ⟨20, 0⟩) (u := ⟨⟨0, ⟨90, 0⟩, .linear Sample.policy⟩, 50, 20, 30⟩)
    (by exact ⟨by decide, by decide⟩) (by decide)
  exact ⟨_, rfl, rfl, linearVesting_covered Sample.policy_fits Sample.begins_begins hdeposit (by decide)⟩

end

end Khc.Payout
