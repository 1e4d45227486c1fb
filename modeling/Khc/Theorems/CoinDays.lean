import Khc.Payout.CoinDays
import Mathlib.Tactic.Linarith

/-! Coin-days stay between nothing and the cap of the balance, and what is deposited as vested can be withdrawn at once. -/

namespace Khc.Payout

open Lib
open Chain (Asset AccountId InInt64 maxShareSupply toU128)

theorem le_eq_ok {x y : Asset} {r : Bool} : le x y = .ok r ↔ x.assetId = y.assetId ∧ r = decide (x.amount ≤ y.amount) := by
  by_cases hasset : x.assetId = y.assetId
  · rw [le_of_assetId hasset]
    constructor
    · intro hr
      exact ⟨hasset, (Except.ok.inj hr).symm⟩
    · rintro ⟨-, rfl⟩
      rfl
  · have hne : x ≠ y := fun h => hasset (congrArg Asset.assetId h)
    rw [le, if_neg hne]
    constructor
    · intro hr
      obtain ⟨_, hr, -⟩ := bind_eq_ok.mp hr
      exact absurd (ensure_eq_ok.mp hr) hasset
    · rintro ⟨h, -⟩
      exact absurd h hasset

/-- What holds of a balance at some time -/
structure HoldsCoins (b : VestingBalance) (p : CddVestingPolicy) (now : Nat) : Prop where
  policy : b.policy = .cdd p
  nonneg : 0 ≤ b.balance.amount
  amount_le : b.balance.amount ≤ maxShareSupply
  seconds : p.vestingSeconds < 2 ^ 32
  earned : 0 ≤ p.coinSecondsEarned
  earned_le : p.coinSecondsEarned ≤ b.balance.amount * max p.vestingSeconds 1
  updated : p.coinSecondsEarnedLastUpdate ≤ now

namespace HoldsCoins
variable {b b' : VestingBalance} {p : CddVestingPolicy} {t now : Nat} {a : Asset}

theorem mono (h : HoldsCoins b p t) (hnow : t ≤ now) : HoldsCoins b p now := { h with updated := h.updated.trans hnow }

/-- The coin-seconds up to some time, without those over the cap -/
def coinSeconds (b : VestingBalance) (p : CddVestingPolicy) (now : Nat) : Int :=
  min (p.coinSecondsEarned + b.balance.amount * (now - p.coinSecondsEarnedLastUpdate : Nat)) (b.balance.amount * max p.vestingSeconds 1)

theorem coinSeconds_bounds (h : HoldsCoins b p now) :
    p.coinSecondsEarned ≤ coinSeconds b p now ∧ coinSeconds b p now ≤ b.balance.amount * max p.vestingSeconds 1 := by
  have hdelta : 0 ≤ b.balance.amount * (now - p.coinSecondsEarnedLastUpdate : Nat) := Int.mul_nonneg h.nonneg (Int.natCast_nonneg _)
  exact ⟨le_min (by omega) h.earned_le, min_le_right _ _⟩

/-- The products of 128 bits do not wrap. -/
theorem toU128_mul {x y : Int} (hx : 0 ≤ x) (hx' : x ≤ maxShareSupply) (hy : 0 ≤ y) (hy' : y ≤ 2 ^ 32) : toU128 (toU128 x * y) = x * y := by
  have hle : x * y ≤ maxShareSupply * 2 ^ 32 := mul_le_mul hx' hy' hy (by decide)
  unfold maxShareSupply at hx' hle
  rw [toU128, toU128, Int.emod_eq_of_lt hx (by omega), Int.emod_eq_of_lt (mul_nonneg hx hy) (by omega)]

theorem computeCoinSecondsEarned_eq (h : HoldsCoins b p now) (hnow : now < 2 ^ 32) :
    p.computeCoinSecondsEarned ⟨b.balance, now, a⟩ = .ok (coinSeconds b p now) := by
  have hdelta : ((now - p.coinSecondsEarnedLastUpdate : Nat) : Int) ≤ 2 ^ 32 := by omega
  have hseconds := h.seconds
  have hcap : ((max p.vestingSeconds 1 : Nat) : Int) ≤ 2 ^ 32 := by omega
  have hpart : b.balance.amount * (now - p.coinSecondsEarnedLastUpdate : Nat) ≤ maxShareSupply * 2 ^ 32 :=
    mul_le_mul h.amount_le hdelta (Int.natCast_nonneg _) (by decide)
  have hall : b.balance.amount * max p.vestingSeconds 1 ≤ maxShareSupply * 2 ^ 32 := mul_le_mul h.amount_le hcap (by omega) (by decide)
  have hnonneg : 0 ≤ b.balance.amount * (now - p.coinSecondsEarnedLastUpdate : Nat) := Int.mul_nonneg h.nonneg (Int.natCast_nonneg _)
  have hearned := h.earned
  have hearned' := h.earned_le
  unfold maxShareSupply at hpart hall
  refine bind_eq_ok.mpr ⟨(), ensure_eq_ok.mpr h.updated, congrArg Except.ok ?_⟩
  dsimp only
  rw [toU128_mul h.nonneg h.amount_le (Int.natCast_nonneg _) hdelta, toU128_mul h.nonneg h.amount_le (by omega) hcap, toU128,
    Int.emod_eq_of_lt (by omega) (by omega), coinSeconds]

/-- What may be withdrawn -/
def allowed (b : VestingBalance) (p : CddVestingPolicy) (now : Nat) : Int :=
  if now ≤ p.startClaim then 0 else coinSeconds b p now / max p.vestingSeconds 1

theorem allowed_bounds (h : HoldsCoins b p now) : 0 ≤ allowed b p now ∧ allowed b p now ≤ b.balance.amount := by
  have hbounds := h.coinSeconds_bounds
  have hearned := h.earned
  unfold allowed
  split
  · exact ⟨le_rfl, h.nonneg⟩
  · exact ⟨Int.ediv_nonneg (by omega) (by omega), Int.ediv_le_of_le_mul (by omega) hbounds.2⟩

/-- What is allowed has been earned. -/
theorem needed_le (h : HoldsCoins b p now) (ha : a.amount ≤ allowed b p now) :
    a.amount * max p.vestingSeconds 1 ≤ coinSeconds b p now := by
  have hearned := h.earned.trans h.coinSeconds_bounds.1
  have hpos : 0 < ((max p.vestingSeconds 1 : Nat) : Int) := by omega
  unfold allowed at ha
  split at ha
  · exact (mul_nonpos_of_nonpos_of_nonneg ha hpos.le).trans hearned
  · exact (Int.le_ediv_iff_mul_le hpos).mp ha

theorem getAllowedWithdraw_eq (h : HoldsCoins b p now) (hnow : now < 2 ^ 32) :
    p.getAllowedWithdraw ⟨b.balance, now, a⟩ = .ok ⟨allowed b p now, b.balance.assetId⟩ := by
  have hle := h.amount_le
  unfold CddVestingPolicy.getAllowedWithdraw
  dsimp only
  split
  · rename_i hearly
    rw [allowed, if_pos hearly]
  · rename_i hlate
    have hbounds := h.allowed_bounds
    rw [allowed, if_neg hlate] at hbounds ⊢
    rw [h.computeCoinSecondsEarned_eq hnow, ok_bind]
    unfold maxShareSupply at hle
    have hbalance : toU128 b.balance.amount = b.balance.amount := Int.emod_eq_of_lt h.nonneg (by omega)
    rw [hbalance]
    exact bind_eq_ok.mpr ⟨(), ensure_eq_ok.mpr hbounds.2, bind_eq_ok.mpr ⟨_, toShare_of_lt (by omega), rfl⟩⟩

theorem isWithdrawAllowed_iff (h : HoldsCoins b p now) (hnow : now < 2 ^ 32) :
    b.isWithdrawAllowed now a = .ok true ↔ a.assetId = b.balance.assetId ∧ a.amount ≤ allowed b p now := by
  have hpolicy : b.policy.isWithdrawAllowed ⟨b.balance, now, a⟩ = le a ⟨allowed b p now, b.balance.assetId⟩ := by
    rw [h.policy, VestingPolicy.isWithdrawAllowed, CddVestingPolicy.isWithdrawAllowed, h.getAllowedWithdraw_eq hnow, ok_bind]
  rw [VestingBalance.isWithdrawAllowed, hpolicy]
  constructor
  · intro hok
    obtain ⟨r, hr, hok⟩ := bind_eq_ok.mp hok
    obtain ⟨_, -, hok⟩ := bind_eq_ok.mp hok
    obtain ⟨_, -, hok⟩ := bind_eq_ok.mp hok
    obtain rfl := Except.ok.inj hok
    obtain ⟨hasset, hle⟩ := le_eq_ok.mp hr
    exact ⟨hasset, of_decide_eq_true hle.symm⟩
  · rintro ⟨hasset, hle⟩
    have hbalance := hle.trans h.allowed_bounds.2
    refine bind_eq_ok.mpr ⟨true, le_eq_ok.mpr ⟨hasset, (decide_eq_true hle).symm⟩, ?_⟩
    refine bind_eq_ok.mpr ⟨true, le_eq_ok.mpr ⟨hasset, (decide_eq_true hbalance).symm⟩, ?_⟩
    exact bind_eq_ok.mpr ⟨(), ensure_eq_ok.mpr (.inl rfl), rfl⟩

/-- What is allowed to be withdrawn is withdrawn, without an assertion that fails. -/
theorem withdraw (h : HoldsCoins b p now) (hnow : now < 2 ^ 32) (hpos : 0 ≤ a.amount) (ha : b.isWithdrawAllowed now a = .ok true) :
    ∃ b' p', b.withdraw now a = .ok b' ∧ HoldsCoins b' p' now := by
  obtain ⟨hasset, hle⟩ := (h.isWithdrawAllowed_iff hnow).mp ha
  have hbalance := hle.trans h.allowed_bounds.2
  have hneeded := h.needed_le hle
  have hbounds := h.coinSeconds_bounds
  have hseconds := h.seconds
  have hmax := h.amount_le
  have hcap : ((max p.vestingSeconds 1 : Nat) : Int) ≤ 2 ^ 32 := by omega
  have hneeded128 : toU128 (toU128 a.amount * (max p.vestingSeconds 1 : Nat)) = a.amount * (max p.vestingSeconds 1 : Nat) :=
    toU128_mul hpos (hbalance.trans hmax) (Int.natCast_nonneg _) hcap
  have hrest : InInt64 (b.balance.amount - a.amount) := by
    unfold maxShareSupply at hmax
    unfold InInt64
    omega
  have hpolicy : b.policy.onWithdraw ⟨b.balance, now, a⟩ = .ok (.cdd { p with
      coinSecondsEarned := coinSeconds b p now - a.amount * (max p.vestingSeconds 1 : Nat), coinSecondsEarnedLastUpdate := now }) := by
    rw [h.policy, VestingPolicy.onWithdraw, CddVestingPolicy.onWithdraw, CddVestingPolicy.updateCoinSecondsEarned,
      h.computeCoinSecondsEarned_eq hnow, ok_bind, pure_bind]
    dsimp only
    rw [hneeded128, (ensure_eq_ok (u := ())).mpr hneeded]
    rfl
  refine ⟨_, _, bind_eq_ok.mpr ⟨true, le_eq_ok.mpr ⟨hasset, (decide_eq_true hbalance).symm⟩, bind_eq_ok.mpr ⟨(), ensure_eq_ok.mpr rfl,
    bind_eq_ok.mpr ⟨_, hpolicy, bind_eq_ok.mpr ⟨_, bind_eq_ok.mpr ⟨(), ensure_eq_ok.mpr hasset.symm,
      bind_eq_ok.mpr ⟨_, safe_eq_ok.mpr ⟨hrest, rfl⟩, rfl⟩⟩, rfl⟩⟩⟩⟩, rfl, ?_, ?_, h.seconds, ?_, ?_, le_refl now⟩
  · exact sub_nonneg.mpr hbalance
  · exact (sub_le_self _ hpos).trans hmax
  · exact sub_nonneg.mpr hneeded
  · show coinSeconds b p now - a.amount * (max p.vestingSeconds 1 : Nat) ≤ (b.balance.amount - a.amount) * (max p.vestingSeconds 1 : Nat)
    rw [sub_mul]
    omega

theorem addTo_eq (h : HoldsCoins b p now) (ha : CoinDays.Adds b a) :
    addTo b.balance a = .ok ⟨b.balance.amount + a.amount, b.balance.assetId⟩ := by
  obtain ⟨hasset, hnonneg, hle⟩ := ha
  have hbalance := h.nonneg
  have hrange : InInt64 (b.balance.amount + a.amount) := by
    unfold maxShareSupply at hle
    unfold InInt64
    omega
  exact bind_eq_ok.mpr ⟨(), ensure_eq_ok.mpr hasset.symm, bind_eq_ok.mpr ⟨_, safe_eq_ok.mpr ⟨hrange, rfl⟩, rfl⟩⟩

/-- The policy after a deposit, with the coin-seconds that come with it -/
def accrued (b : VestingBalance) (p : CddVestingPolicy) (now : Nat) (vested : Int) : CddVestingPolicy :=
  { p with coinSecondsEarned := coinSeconds b p now + vested, coinSecondsEarnedLastUpdate := now }

/-- The balance after a deposit -/
def toppedUp (b : VestingBalance) (a : Asset) (p : CddVestingPolicy) : VestingBalance :=
  { b with balance := ⟨b.balance.amount + a.amount, b.balance.assetId⟩, policy := .cdd p }

theorem toppedUp_holds {vested : Int} (h : HoldsCoins b p now) (ha : CoinDays.Adds b a) (hvested : 0 ≤ vested)
    (hle : vested ≤ a.amount * (max p.vestingSeconds 1 : Nat)) : HoldsCoins (toppedUp b a (accrued b p now vested)) (accrued b p now vested) now := by
  have hbounds := h.coinSeconds_bounds
  have hearned := h.earned
  refine ⟨rfl, add_nonneg h.nonneg ha.2.1, ha.2.2, h.seconds, ?_, ?_, le_refl now⟩
  · show 0 ≤ coinSeconds b p now + vested
    omega
  · show coinSeconds b p now + vested ≤ (b.balance.amount + a.amount) * (max p.vestingSeconds 1 : Nat)
    rw [add_mul]
    omega

theorem deposit (h : HoldsCoins b p now) (hnow : now < 2 ^ 32) (ha : CoinDays.Adds b a) :
    ∃ b' p', b.deposit now a = .ok b' ∧ HoldsCoins b' p' now := by
  have hpolicy : b.policy.onDeposit ⟨b.balance, now, a⟩ = .ok (.cdd (accrued b p now 0)) := by
    rw [h.policy, VestingPolicy.onDeposit, CddVestingPolicy.updateCoinSecondsEarned, h.computeCoinSecondsEarned_eq hnow, accrued, add_zero]
    rfl
  refine ⟨toppedUp b a (accrued b p now 0), accrued b p now 0, bind_eq_ok.mpr ⟨_, hpolicy, bind_eq_ok.mpr ⟨_, h.addTo_eq ha, rfl⟩⟩, ?_⟩
  exact h.toppedUp_holds ha le_rfl (mul_nonneg ha.2.1 (Int.natCast_nonneg _))

/-- What is deposited as vested may be withdrawn at once, if its coin-seconds are computed. -/
theorem depositVested (h : HoldsCoins b p now) (hnow : now < 2 ^ 32) (ha : CoinDays.Adds b a)
    (hfits : a.amount * (max p.vestingSeconds 1 : Nat) < 2 ^ 63) : ∃ b' p', b.depositVested now a = .ok b' ∧ HoldsCoins b' p' now ∧
      (p'.startClaim < now → b'.isWithdrawAllowed now a = .ok true) := by
  have hearned := h.earned.trans h.coinSeconds_bounds.1
  have hseconds := h.seconds
  have hvested : 0 ≤ a.amount * (max p.vestingSeconds 1 : Nat) := mul_nonneg ha.2.1 (Int.natCast_nonneg _)
  have hcap : coinSeconds b p now ≤ maxShareSupply * 2 ^ 32 :=
    h.coinSeconds_bounds.2.trans (mul_le_mul h.amount_le (by omega) (Int.natCast_nonneg _) (by decide))
  have hrange : InInt64 (a.amount * (max p.vestingSeconds 1 : Nat)) := by
    unfold InInt64
    omega
  have hsum : toU128 (coinSeconds b p now + toU128 (a.amount * (max p.vestingSeconds 1 : Nat))) =
      coinSeconds b p now + a.amount * (max p.vestingSeconds 1 : Nat) := by
    unfold maxShareSupply at hcap
    rw [toU128, toU128, Int.emod_eq_of_lt hvested (by omega), Int.emod_eq_of_lt (by omega) (by omega)]
  have hpolicy : b.policy.onDepositVested ⟨b.balance, now, a⟩ = .ok (.cdd (accrued b p now (a.amount * (max p.vestingSeconds 1 : Nat)))) := by
    rw [h.policy, VestingPolicy.onDepositVested, CddVestingPolicy.onDepositVested, CddVestingPolicy.updateCoinSecondsEarned,
      h.computeCoinSecondsEarned_eq hnow, ok_bind, pure_bind]
    dsimp only
    rw [(ensure_eq_ok (u := ())).mpr hrange, ok_bind, hsum]
    rfl
  have hholds := h.toppedUp_holds ha hvested le_rfl
  refine ⟨_, _, bind_eq_ok.mpr ⟨_, hpolicy, bind_eq_ok.mpr ⟨_, h.addTo_eq ha, rfl⟩⟩, hholds, fun hstart =>
    (hholds.isWithdrawAllowed_iff hnow).mpr ⟨ha.1, ?_⟩⟩
  have hpos : 0 < ((max p.vestingSeconds 1 : Nat) : Int) := by omega
  refine le_of_le_of_eq ?_ (if_neg (not_le.mpr hstart)).symm
  refine (Int.le_ediv_iff_mul_le hpos).mpr (le_trans ?_ hholds.coinSeconds_bounds.1)
  exact le_add_of_nonneg_left hearned

theorem depositVested_eq_error (h : HoldsCoins b p now) (hnow : now < 2 ^ 32)
    (hfits : ¬a.amount * (max p.vestingSeconds 1 : Nat) < 2 ^ 63) : b.depositVested now a = .error .undefinedBehavior := by
  have hrange : ¬InInt64 (a.amount * (max p.vestingSeconds 1 : Nat)) := by
    unfold InInt64
    omega
  refine bind_eq_error.mpr (.inl ?_)
  rw [h.policy, VestingPolicy.onDepositVested, CddVestingPolicy.onDepositVested, CddVestingPolicy.updateCoinSecondsEarned,
    h.computeCoinSecondsEarned_eq hnow, ok_bind, pure_bind]
  exact bind_eq_error.mpr (.inl (bind_eq_error.mpr (.inl (ensure_eq_error.mpr ⟨hrange, rfl⟩))))

theorem created {owner : AccountId} {seconds startClaim : Nat} (ha : 0 ≤ a.amount) (ha' : a.amount ≤ maxShareSupply)
    (hseconds : seconds < 2 ^ 32) : ∃ p, HoldsCoins (createCoinDays owner a seconds startClaim now) p now :=
  ⟨_, rfl, ha, ha', hseconds, le_rfl, mul_nonneg ha (Int.natCast_nonneg _), le_rfl⟩

theorem suits_iff {seconds : Nat} {owner : AccountId} (h : HoldsCoins b p now) :
    b.Suits seconds owner ↔ b.owner = owner ∧ p.vestingSeconds = seconds := by
  unfold VestingBalance.Suits
  rw [h.policy]

end HoldsCoins

namespace CoinDays
variable {s s' : CoinDays} {c : Nat × CoinDaysChange} {a : Asset} {ovb : Option VestingBalance} {now seconds : Nat} {owner : AccountId}
  {amount : Int}

/-- The coin-seconds of what is deposited as vested fit into 64 bits, and a balance that is created with it has to vest for a second
    at least. -/
def Exact (s : CoinDays) (c : Nat × CoinDaysChange) : Prop :=
  match c.2 with
  | .lazyDeposit amount seconds owner false => amount ≠ 0 → amount * (max seconds 1 : Nat) < 2 ^ 63 ∧
    (seconds = 0 → ∃ b ∈ s.object, b.Suits seconds owner)
  | .depositVested amount => ∀ b ∈ s.object, ∀ p, b.policy = .cdd p → amount.amount * (max p.vestingSeconds 1 : Nat) < 2 ^ 63
  | _ => True

/-- The change is made, and the amount may be withdrawn at the same time, from the time on that withdrawals start at. -/
def VestedAtOnce (s : CoinDays) (c : Nat × CoinDaysChange) (a : Asset) : Prop :=
  ∃ s' b, s.step c = some s' ∧ s'.object = some b ∧
    ∀ p, b.policy = .cdd p → p.startClaim < c.1 → b.isWithdrawAllowed c.1 a = .ok true

def Held (s : CoinDays) : Prop := ∀ b ∈ s.object, ∃ p, HoldsCoins b p s.now

/-! ### Lazy deposits -/

theorem depositLazyVesting_some {b : VestingBalance} {requireVesting : Bool} (hamount : amount ≠ 0) (hb : ovb = some b) (hsuits : b.Suits seconds owner) :
    depositLazyVesting ovb amount seconds owner requireVesting now = (do
      return some (← (if requireVesting then b.deposit now ⟨amount, 0⟩ else b.depositVested now ⟨amount, 0⟩ : Eval VestingBalance))) := by
  subst hb
  rw [depositLazyVesting, if_neg hamount, Option.filter_some, if_pos (decide_eq_true hsuits)]

theorem depositLazyVesting_none {requireVesting : Bool} (hamount : amount ≠ 0) (hnot : ∀ b ∈ ovb, ¬b.Suits seconds owner) :
    depositLazyVesting ovb amount seconds owner requireVesting now = (do
      let earned := if requireVesting then 0 else amount * seconds
      ensure (InInt64 earned) .undefinedBehavior
      return some ⟨owner, ⟨amount, 0⟩, .cdd ⟨seconds, toU128 earned, 0, now⟩⟩) := by
  have hnone : ovb.filter (fun b => b.Suits seconds owner) = none := by
    cases ovb with
    | none => rfl
    | some b => rw [Option.filter_some, if_neg (by simpa using hnot b rfl)]
  rw [depositLazyVesting, if_neg hamount, hnone]

/-- A balance that is created with an amount that has vested -/
def lazyBalance (owner : AccountId) (amount : Int) (seconds : Nat) (earned : Int) (now : Nat) : VestingBalance :=
  ⟨owner, ⟨amount, 0⟩, .cdd ⟨seconds, earned, 0, now⟩⟩

theorem lazyBalance_holds {earned : Int} (hnonneg : 0 ≤ amount) (hmax : amount ≤ maxShareSupply) (hseconds : seconds < 2 ^ 32)
    (hearned : 0 ≤ earned) (hle : earned ≤ amount * (max seconds 1 : Nat)) :
    HoldsCoins (lazyBalance owner amount seconds earned now) ⟨seconds, earned, 0, now⟩ now :=
  ⟨rfl, hnonneg, hmax, hseconds, hearned, hle, le_rfl⟩

theorem coinSeconds_lazyBalance {earned : Int} (hle : earned ≤ amount * (max seconds 1 : Nat)) :
    HoldsCoins.coinSeconds (lazyBalance owner amount seconds earned now) ⟨seconds, earned, 0, now⟩ now = earned := by
  have hzero : (now - now : Nat) = 0 := Nat.sub_self now
  rw [HoldsCoins.coinSeconds]
  show min (earned + amount * ((now - now : Nat) : Int)) _ = earned
  rw [hzero, Nat.cast_zero, mul_zero, add_zero]
  exact min_eq_left hle

/-- Right after the creation, the amount may be withdrawn if and only if its coin-seconds have been earned. -/
theorem isWithdrawAllowed_lazyBalance {earned : Int} (hnonneg : 0 ≤ amount) (hmax : amount ≤ maxShareSupply) (hseconds : seconds < 2 ^ 32)
    (hearned : 0 ≤ earned) (hle : earned ≤ amount * (max seconds 1 : Nat)) (hnow : now < 2 ^ 32) (hpos : 0 < now) :
    (lazyBalance owner amount seconds earned now).isWithdrawAllowed now ⟨amount, 0⟩ = .ok true ↔ amount * (max seconds 1 : Nat) ≤ earned := by
  have hone : 0 < ((max seconds 1 : Nat) : Int) := by omega
  rw [(lazyBalance_holds hnonneg hmax hseconds hearned hle).isWithdrawAllowed_iff hnow, HoldsCoins.allowed, coinSeconds_lazyBalance hle]
  show 0 = 0 ∧ amount ≤ (if now ≤ 0 then 0 else earned / (max seconds 1 : Nat)) ↔ _
  rw [if_neg (Nat.not_le.mpr hpos), Int.le_ediv_iff_mul_le hone]
  exact and_iff_right rfl

/-- Without a balance that suits, a new one is created. -/
theorem depositLazyVesting_created {requireVesting : Bool} (hpos : 0 < amount) (hnot : ∀ b ∈ ovb, ¬b.Suits seconds owner)
    (hfits : requireVesting = false → amount * seconds < 2 ^ 63) : depositLazyVesting ovb amount seconds owner requireVesting now =
      .ok (some (lazyBalance owner amount seconds (if requireVesting then 0 else amount * seconds) now)) := by
  have hproduct : 0 ≤ amount * seconds := mul_nonneg hpos.le (Int.natCast_nonneg _)
  have hrange : InInt64 (if requireVesting then 0 else amount * seconds) ∧
      toU128 (if requireVesting then 0 else amount * seconds) = if requireVesting then 0 else amount * seconds := by
    cases requireVesting with
    | true =>
      rw [if_pos rfl]
      exact ⟨by decide, rfl⟩
    | false =>
      have hlt := hfits rfl
      simp only [Bool.false_eq_true, if_false]
      refine ⟨?_, Int.emod_eq_of_lt hproduct (by omega)⟩
      unfold InInt64
      omega
  rw [depositLazyVesting_none hpos.ne' hnot]
  refine bind_eq_ok.mpr ⟨(), ensure_eq_ok.mpr hrange.1, ?_⟩
  rw [hrange.2]
  rfl

theorem lazyDeposit_held {requireVesting : Bool} {o : Option VestingBalance} (hovb : ∀ b ∈ ovb, ∃ p, HoldsCoins b p now) (hnow : now < 2 ^ 32)
    (hnonneg : 0 ≤ amount) (hmax : amount ≤ maxShareSupply) (hseconds : seconds < 2 ^ 32)
    (hadds : ∀ b ∈ ovb, b.Suits seconds owner → Adds b ⟨amount, 0⟩)
    (hexact : requireVesting = false → amount ≠ 0 → amount * (max seconds 1 : Nat) < 2 ^ 63 ∧ (seconds = 0 → ∃ b ∈ ovb, b.Suits seconds owner))
    (h : depositLazyVesting ovb amount seconds owner requireVesting now = .ok o) : ∀ b ∈ o, ∃ p, HoldsCoins b p now := by
  by_cases hzero : amount = 0
  · rw [depositLazyVesting, if_pos hzero] at h
    exact Except.ok.inj h ▸ hovb
  have hpos : 0 < amount := lt_of_le_of_ne hnonneg (Ne.symm hzero)
  by_cases hsuits : ∃ b ∈ ovb, b.Suits seconds owner
  · obtain ⟨b, hb, hsuits⟩ := hsuits
    obtain ⟨p, hp⟩ := hovb b hb
    have hadd := hadds b hb hsuits
    rw [depositLazyVesting_some hzero hb hsuits] at h
    obtain ⟨b', hb', h⟩ := bind_eq_ok.mp h
    obtain rfl := Except.ok.inj h
    rintro _ ⟨⟩
    cases requireVesting with
    | true =>
      obtain ⟨_, p', hok, hp'⟩ := hp.deposit hnow hadd
      exact ⟨p', Except.ok.inj (hok.symm.trans hb') ▸ hp'⟩
    | false =>
      have hfits := (hexact rfl hzero).1
      rw [← (hp.suits_iff.mp hsuits).2] at hfits
      obtain ⟨_, p', hok, hp', -⟩ := hp.depositVested hnow hadd hfits
      exact ⟨p', Except.ok.inj (hok.symm.trans hb') ▸ hp'⟩
  · have hnot : ∀ b ∈ ovb, ¬b.Suits seconds owner := fun b hb hb' => hsuits ⟨b, hb, hb'⟩
    have hproduct : 0 ≤ amount * seconds := mul_nonneg hnonneg (Int.natCast_nonneg _)
    have hle : amount * seconds ≤ amount * (max seconds 1 : Nat) :=
      mul_le_mul_of_nonneg_left (by exact_mod_cast le_max_left seconds 1) hnonneg
    have hfits : requireVesting = false → amount * seconds < 2 ^ 63 := fun hr => hle.trans_lt (hexact hr hzero).1
    rw [depositLazyVesting_created hpos hnot hfits] at h
    obtain rfl := Except.ok.inj h
    rintro _ ⟨⟩
    refine ⟨_, lazyBalance_holds hnonneg hmax hseconds ?_ ?_⟩
    · split
      · exact le_rfl
      · exact hproduct
    · split
      · exact hproduct.trans hle
      · exact hle

/-- What is deposited lazily as vested may be withdrawn at once if and only if its coin-seconds fit, and a new balance vests for a
    second at least. -/
theorem lazyDeposit_vested (hovb : ∀ b ∈ ovb, ∃ p, HoldsCoins b p now) (hnow : now < 2 ^ 32) (hnow' : 0 < now)
    (hpos : 0 < amount) (hmax : amount ≤ maxShareSupply) (hseconds : seconds < 2 ^ 32)
    (hadds : ∀ b ∈ ovb, b.Suits seconds owner → Adds b ⟨amount, 0⟩) :
    (∃ b, depositLazyVesting ovb amount seconds owner false now = .ok (some b) ∧
      ∀ p, b.policy = .cdd p → p.startClaim < now → b.isWithdrawAllowed now ⟨amount, 0⟩ = .ok true) ↔
    amount * (max seconds 1 : Nat) < 2 ^ 63 ∧ (seconds = 0 → ∃ b ∈ ovb, b.Suits seconds owner) := by
  by_cases hsuits : ∃ b ∈ ovb, b.Suits seconds owner
  · obtain ⟨b, hb, hsuits⟩ := hsuits
    obtain ⟨p, hp⟩ := hovb b hb
    have hadd := hadds b hb hsuits
    rw [depositLazyVesting_some hpos.ne' hb hsuits]
    obtain rfl := (hp.suits_iff.mp hsuits).2
    constructor
    · rintro ⟨b', hb', -⟩
      refine ⟨?_, fun _ => ⟨b, hb, hsuits⟩⟩
      by_contra hnot
      obtain ⟨_, hok, -⟩ := bind_eq_ok.mp hb'
      cases hok.symm.trans (hp.depositVested_eq_error hnow hnot)
    · rintro ⟨hfits, -⟩
      obtain ⟨b', p', hok, hp', hvested⟩ := hp.depositVested hnow hadd hfits
      refine ⟨b', bind_eq_ok.mpr ⟨b', hok, rfl⟩, fun q hq => ?_⟩
      obtain rfl := VestingPolicy.cdd.inj (hp'.policy.symm.trans hq)
      exact hvested
  · have hnot : ∀ b ∈ ovb, ¬b.Suits seconds owner := fun b hb hb' => hsuits ⟨b, hb, hb'⟩
    have hproduct : 0 ≤ amount * seconds := mul_nonneg hpos.le (Int.natCast_nonneg _)
    have hle : amount * seconds ≤ amount * (max seconds 1 : Nat) :=
      mul_le_mul_of_nonneg_left (by exact_mod_cast le_max_left seconds 1) hpos.le
    constructor
    · rintro ⟨b', hb', hvested⟩
      have hfits : amount * seconds < 2 ^ 63 := by
        rw [depositLazyVesting_none hpos.ne' hnot] at hb'
        obtain ⟨_, hrange, -⟩ := bind_eq_ok.mp hb'
        have hle := (ensure_eq_ok.mp hrange).2
        rw [if_neg Bool.false_ne_true] at hle
        omega
      rw [depositLazyVesting_created hpos hnot fun _ => hfits] at hb'
      obtain rfl := Option.some.inj (Except.ok.inj hb')
      have hall := (isWithdrawAllowed_lazyBalance hpos.le hmax hseconds hproduct hle hnow hnow').mp (hvested _ rfl hnow')
      refine ⟨hall.trans_lt hfits, fun hzero => ?_⟩
      -- the coin-seconds of a second are needed, and none have been earned
      subst hzero
      rw [Nat.cast_zero, mul_zero] at hall
      exact absurd hall (not_le.mpr (mul_pos hpos Int.one_pos))
    · rintro ⟨hfits, hzero⟩
      have hseconds' : max seconds 1 = seconds := max_eq_left (Nat.pos_of_ne_zero fun h => hsuits (hzero h))
      refine ⟨_, depositLazyVesting_created hpos hnot fun _ => hle.trans_lt hfits, fun _ _ _ => ?_⟩
      refine (isWithdrawAllowed_lazyBalance hpos.le hmax hseconds hproduct hle hnow hnow').mpr ?_
      rw [hseconds']

/-! ### Steps -/

theorem step_eq_some (h : s.step c = some s') : s.Possible c ∧ s.apply c = .ok s' := by
  unfold step at h
  split at h
  · rename_i hpossible
    exact ⟨hpossible, toOption_eq_some.mp h⟩
  · cases h

theorem step_now (h : s.step c = some s') : s'.now = c.1 := by
  obtain ⟨-, h⟩ := step_eq_some h
  obtain ⟨now, c⟩ := c
  obtain ⟨o, _⟩ := s
  cases c <;> cases o
  case create.none | create.some | deposit.none | depositVested.none | withdraw.none => exact Except.ok.inj h ▸ rfl
  all_goals
    obtain ⟨_, -, h⟩ := bind_eq_ok.mp h
    exact Except.ok.inj h ▸ rfl

theorem step_held (hs : s.Held) (hexact : s.Exact c) (h : s.step c = some s') : s'.Held := by
  obtain ⟨⟨hpos, hle, hnow, hpossible⟩, h⟩ := step_eq_some h
  obtain ⟨now, c⟩ := c
  obtain ⟨o, t⟩ := s
  have hs' : ∀ b ∈ o, ∃ p, HoldsCoins b p now := fun b hb => (hs b hb).imp fun _ hp => hp.mono hle
  cases c with
  | create owner a seconds startClaim =>
    obtain ⟨-, ha, ha', hseconds⟩ := hpossible
    obtain rfl := Except.ok.inj h
    rintro _ ⟨⟩
    exact HoldsCoins.created ha ha' hseconds
  | lazyDeposit amount seconds owner requireVesting =>
    obtain ⟨ha, ha', hseconds, hadds⟩ := hpossible
    obtain ⟨o', ho', h⟩ := bind_eq_ok.mp h
    obtain rfl := Except.ok.inj h
    refine lazyDeposit_held hs' hnow ha ha' hseconds hadds (fun hrequire => ?_) ho'
    subst hrequire
    exact hexact
  | deposit a =>
    obtain ⟨b, hb, hadds⟩ := hpossible
    obtain ⟨p, hp⟩ := hs' b hb
    obtain rfl : o = some b := hb
    obtain ⟨b', p', hok, hp'⟩ := hp.deposit hnow hadds
    obtain rfl := Except.ok.inj (h.symm.trans (bind_eq_ok.mpr ⟨b', hok, rfl⟩))
    rintro _ ⟨⟩
    exact ⟨p', hp'⟩
  | depositVested a =>
    obtain ⟨b, hb, hadds⟩ := hpossible
    obtain ⟨p, hp⟩ := hs' b hb
    obtain rfl : o = some b := hb
    obtain ⟨b', p', hok, hp', -⟩ := hp.depositVested hnow hadds (hexact b rfl p hp.policy)
    obtain rfl := Except.ok.inj (h.symm.trans (bind_eq_ok.mpr ⟨b', hok, rfl⟩))
    rintro _ ⟨⟩
    exact ⟨p', hp'⟩
  | withdraw a =>
    obtain ⟨ha, b, hb, hallowed⟩ := hpossible
    obtain ⟨p, hp⟩ := hs' b hb
    obtain rfl : o = some b := hb
    obtain ⟨b', p', hok, hp'⟩ := hp.withdraw hnow ha.le hallowed
    obtain rfl := Except.ok.inj (h.symm.trans (bind_eq_ok.mpr ⟨b', hok, rfl⟩))
    rintro _ ⟨⟩
    exact ⟨p', hp'⟩

theorem held_of_reaches (h : Reaches step Exact .start s) : s.Held :=
  h.invariant (fun _ _ _ hs hexact hstep => step_held hs hexact hstep) fun _ hb => nomatch hb

/-- The change takes place if it is a vested deposit whose coin-seconds are computed. -/
theorem step_of_object {o : Option VestingBalance} (hpossible : s.Possible c) (h : s.apply c = .ok ⟨o, c.1⟩) : s.step c = some ⟨o, c.1⟩ := by
  rw [step, if_pos hpossible, h]
  rfl

theorem vestedAtOnce_iff (hs : s.Held) (hpossible : s.Possible c) (hvested : c.2.vested = some a) (ha : 0 < a.amount) :
    s.VestedAtOnce c a ↔ s.Exact c := by
  obtain ⟨hpos, hle, hnow, hchange⟩ := id hpossible
  obtain ⟨now, c⟩ := c
  obtain ⟨o, t⟩ := s
  have hs' : ∀ b ∈ o, ∃ p, HoldsCoins b p now := fun b hb => (hs b hb).imp fun _ hp => hp.mono hle
  cases c with
  | create | deposit | withdraw => cases hvested
  | lazyDeposit amount seconds owner requireVesting =>
    cases requireVesting with
    | true => cases hvested
    | false =>
      obtain rfl := Option.some.inj hvested
      obtain ⟨-, hmax, hseconds, hadds⟩ := hchange
      have hiff := lazyDeposit_vested hs' hnow hpos ha hmax hseconds hadds
      constructor
      · rintro ⟨s', b, hstep, hb, hallowed⟩ -
        obtain ⟨o', ho', h⟩ := bind_eq_ok.mp (step_eq_some hstep).2
        obtain rfl := Except.ok.inj h
        obtain rfl : o' = some b := hb
        exact hiff.mp ⟨b, ho', hallowed⟩
      · intro hexact
        obtain ⟨b, hb, hallowed⟩ := hiff.mpr (hexact ha.ne')
        exact ⟨_, b, step_of_object hpossible (bind_eq_ok.mpr ⟨_, hb, rfl⟩), rfl, hallowed⟩
  | depositVested a' =>
    obtain rfl := Option.some.inj hvested
    obtain ⟨b, hb, hadds⟩ := hchange
    obtain ⟨p, hp⟩ := hs' b hb
    obtain rfl : o = some b := hb
    constructor
    · rintro ⟨s', b', hstep, -, -⟩ _ ⟨⟩ q hq
      obtain rfl := VestingPolicy.cdd.inj (hp.policy.symm.trans hq)
      by_contra hnot
      obtain ⟨_, hok, -⟩ := bind_eq_ok.mp (step_eq_some hstep).2
      cases hok.symm.trans (hp.depositVested_eq_error hnow hnot)
    · intro hexact
      obtain ⟨b', p', hok, hp', hallowed⟩ := hp.depositVested hnow hadds (hexact b rfl p hp.policy)
      refine ⟨_, b', step_of_object hpossible (bind_eq_ok.mpr ⟨b', hok, rfl⟩), rfl, fun q hq => ?_⟩
      obtain rfl := VestingPolicy.cdd.inj (hp'.policy.symm.trans hq)
      exact hallowed

/-- The coin-seconds stay within their bounds, withdrawals that are allowed are made, and what is deposited as vested may be withdrawn at
    once if and only if the deposit is `Exact`. -/
theorem coinDays_kept (h : Reaches step Exact .start s) :
    (∀ b ∈ s.object, ∃ p, HoldsCoins b p s.now) ∧
    (∀ b ∈ s.object, ∀ t a, s.now ≤ t → t < 2 ^ 32 → 0 < a.amount → b.isWithdrawAllowed t a = .ok true →
      ∃ b' p', b.withdraw t a = .ok b' ∧ HoldsCoins b' p' t) ∧
    (∀ c a, s.Possible c → c.2.vested = some a → 0 < a.amount → (s.VestedAtOnce c a ↔ s.Exact c)) := by
  have hs := held_of_reaches h
  refine ⟨hs, fun b hb t a hle ht ha hallowed => ?_, fun c a hpossible hvested ha => vestedAtOnce_iff hs hpossible hvested ha⟩
  obtain ⟨p, hp⟩ := hs b hb
  exact (hp.mono hle).withdraw ht ha.le hallowed

/-- A balance created lazily with vested coins that takes a deposit and pays one out -/
def threeChanges : CoinDays := ⟨some ⟨7, ⟨140, 0⟩, .cdd ⟨10, 1400, 0, 1005⟩⟩, 1005⟩

theorem threeChanges_reached : Reaches step Exact .start threeChanges := by
  let created : CoinDays := ⟨some ⟨7, ⟨100, 0⟩, .cdd ⟨10, 1000, 0, 1000⟩⟩, 1000⟩
  let deposited : CoinDays := ⟨some ⟨7, ⟨200, 0⟩, .cdd ⟨10, 1000, 0, 1000⟩⟩, 1000⟩
  have hcreate : start.step (1000, .lazyDeposit 100 10 7 false) = some created := by decide
  have hdeposit : created.step (1000, .deposit ⟨100, 0⟩) = some deposited := by decide
  have hwithdraw : deposited.step (1005, .withdraw ⟨60, 0⟩) = some threeChanges := by decide
  have hexact : start.Exact (1000, .lazyDeposit 100 10 7 false) := fun _ => ⟨by decide, fun h => absurd h (by decide)⟩
  exact .step (.step (.step .refl hexact hcreate) (show created.Exact (1000, .deposit ⟨100, 0⟩) from trivial) hdeposit)
    (show deposited.Exact (1005, .withdraw ⟨60, 0⟩) from trivial) hwithdraw

theorem coinDays_kept_threeChanges :
    threeChanges.VestedAtOnce (1005, .depositVested ⟨50, 0⟩) ⟨50, 0⟩ ↔ threeChanges.Exact (1005, .depositVested ⟨50, 0⟩) :=
  (coinDays_kept threeChanges_reached).2.2 (1005, .depositVested ⟨50, 0⟩) ⟨50, 0⟩ (by decide) rfl (by decide)

/-- A hundred coins that have vested are locked in the balance that they create if it needs no vesting time; ten million that need a year
    are more than the product of 64 bits holds. -/
theorem vested_locked :
    (∃ b, start.step (1000, .lazyDeposit 100 0 7 false) = some ⟨some b, 1000⟩ ∧ b.isWithdrawAllowed 1000 ⟨100, 0⟩ = .ok false) ∧
    start.Possible (1000, .lazyDeposit 1000000000000 31536000 7 false) ∧
    start.apply (1000, .lazyDeposit 1000000000000 31536000 7 false) = .error .undefinedBehavior := by
  exact ⟨⟨⟨7, ⟨100, 0⟩, .cdd ⟨0, 0, 0, 1000⟩⟩, by decide, by decide⟩, by decide, by decide⟩

end CoinDays

end Khc.Payout
