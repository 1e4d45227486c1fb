import Khc.Lib.Rations
import Khc.Budget.Maintenance

/-! What the workers are paid: the loop of `pay_workers` gives the budget out, in the order of the votes. -/

namespace Khc.Budget

open Lib
open Chain (InInt64 maxShareSupply toU128 toU128_of_nonneg)
open Payout (safe toShare toShare_of_lt safe_eq_ok VestingPolicy)

/-- The pay of a worker for the time since the last budget -/
def Database.due (d : Database) (w : WorkerObject) : Int := w.dailyPay * d.sinceLastBudget / oneDay

/-- After the pays: what refunds have taken out of circulation, and that everything else is as before but the objects paid to -/
structure Paid (d : Database) (ps : List (WorkerObject × Int)) (d' : Database) : Prop where
  currentSupply : d'.currentSupply = d.currentSupply - given WorkerObject.isRefund ps
  parameters : d'.parameters = d.parameters
  headBlockTime : d'.headBlockTime = d.headBlockTime
  lastBudgetTime : d'.lastBudgetTime = d.lastBudgetTime
  witnessBudget : d'.witnessBudget = d.witnessBudget
  maxSupply : d'.maxSupply = d.maxSupply
  accumulatedFees : d'.accumulatedFees = d.accumulatedFees

theorem Paid.refl (d : Database) : Paid d [] d := ⟨(sub_zero _).symm, rfl, rfl, rfl, rfl, rfl, rfl⟩

theorem Paid.cons {d d₁ d' : Database} {e : WorkerObject × Int} {ps : List (WorkerObject × Int)} (h₁ : Paid d [e] d₁)
    (h : Paid d₁ ps d') : Paid d (e :: ps) d' where
  currentSupply := by
    rw [h.currentSupply, h₁.currentSupply, given_cons, given_cons, given_nil]
    omega
  parameters := h.parameters.trans h₁.parameters
  headBlockTime := h.headBlockTime.trans h₁.headBlockTime
  lastBudgetTime := h.lastBudgetTime.trans h₁.lastBudgetTime
  witnessBudget := h.witnessBudget.trans h₁.witnessBudget
  maxSupply := h.maxSupply.trans h₁.maxSupply
  accumulatedFees := h.accumulatedFees.trans h₁.accumulatedFees

/-- The policy was last changed by now. -/
def Settled (now : Nat) : VestingPolicy → Prop
  | .linear _ => True
  | .cdd p => p.coinSecondsEarnedLastUpdate ≤ now

/-- A budget can be paid to the workers without an overflow. -/
structure Room (d : Database) (b : Int) (ws : List WorkerObject) : Prop where
  refund : ∀ w ∈ ws, ∀ t, w.worker = .refund t → 0 ≤ t ∧ InInt64 (t + b)
  burn : ∀ w ∈ ws, ∀ t, w.worker = .burn t → 0 ≤ t ∧ InInt64 (t + b)
  nullAccount : 0 ≤ d.nullAccountBalance ∧ InInt64 (d.nullAccountBalance + b)
  supply : InInt64 d.currentSupply ∧ InInt64 (d.currentSupply - b)
  balance : ∀ w ∈ ws, ∀ i, w.worker = .vestingBalance i →
    (d.vestingBalances i).balance.assetId = 0 ∧ 0 ≤ (d.vestingBalances i).balance.amount ∧
      InInt64 ((d.vestingBalances i).balance.amount + b) ∧ Settled d.headBlockTime.toNat (d.vestingBalances i).policy

namespace Database
variable {d d' : Database} {w : WorkerObject} {ws : List WorkerObject} {b pay left : Int}

theorem sinceLastBudget_le : d.sinceLastBudget ≤ 2 ^ 52 := by
  have hhead := d.headBlockTime.toNat_lt
  unfold sinceLastBudget
  omega

theorem due_nonneg (h : 0 ≤ d.sinceLastBudget) : 0 ≤ d.due w :=
  Int.ediv_nonneg (mul_nonneg w.dailyPay_pos.le h) (by decide)

/-- The pay that is asked for is what is due, when it is an amount. -/
theorem requestedPay_eq (h : 0 ≤ d.sinceLastBudget) (hfits : d.due w < 2 ^ 63) : d.requestedPay w = .ok (d.due w) := by
  unfold requestedPay
  split
  · have hpay : toU128 w.dailyPay = w.dailyPay := Int.emod_eq_of_lt w.dailyPay_pos.le (w.dailyPay_lt.trans (by decide))
    have htime : toU128 d.sinceLastBudget = d.sinceLastBudget := Int.emod_eq_of_lt h (sinceLastBudget_le.trans_lt (by decide))
    have hproduct : toU128 (w.dailyPay * d.sinceLastBudget) = w.dailyPay * d.sinceLastBudget := by
      refine Int.emod_eq_of_lt (mul_nonneg w.dailyPay_pos.le h) ?_
      calc w.dailyPay * d.sinceLastBudget ≤ maxShareSupply * 2 ^ 52 :=
            mul_le_mul w.dailyPay_lt.le sinceLastBudget_le h (by decide)
        _ < 2 ^ 128 := by decide
    rw [hpay, htime, hproduct]
    exact lift_eq_ok.mpr (toShare_of_lt hfits)
  · rename_i hday
    rw [due, not_not.mp hday, Int.mul_ediv_cancel _ (by decide)]

theorem due_congr (hhead : d'.headBlockTime = d.headBlockTime) (hlast : d'.lastBudgetTime = d.lastBudgetTime) : d'.due = d.due := by
  unfold due sinceLastBudget
  rw [hhead, hlast]

/-! ### One worker -/

theorem payWorker_paid (h : d.payWorker w pay = .ok d') : Paid d [(w, pay)] d' := by
  unfold payWorker at h
  split at h
  · rename_i t hworker
    simp only [bind_eq_ok, pure_eq_ok, lift_eq_ok, safe_eq_ok] at h
    obtain ⟨_, -, _, ⟨-, rfl⟩, rfl⟩ := h
    refine ⟨?_, rfl, rfl, rfl, rfl, rfl, rfl⟩
    rw [given_cons, given_nil, WorkerObject.isRefund, hworker]
    simp
  · rename_i i hworker
    simp only [bind_eq_ok, pure_eq_ok] at h
    obtain ⟨_, -, rfl⟩ := h
    refine ⟨?_, rfl, rfl, rfl, rfl, rfl, rfl⟩
    rw [given_cons, given_nil, WorkerObject.isRefund, hworker]
    simp
  · rename_i t hworker
    simp only [bind_eq_ok, adjustNullBalance, pure_eq_ok] at h
    obtain ⟨_, -, _, -, _, -, rfl⟩ := h
    refine ⟨?_, rfl, rfl, rfl, rfl, rfl, rfl⟩
    rw [given_cons, given_nil, WorkerObject.isRefund, hworker]
    simp [setWorker]

theorem deposit_eq_ok {b : Payout.VestingBalance} {now : Nat} (hasset : b.balance.assetId = 0)
    (hsettled : Settled now b.policy) (hrange : InInt64 (b.balance.amount + pay)) : ∃ b', b.deposit now ⟨pay, 0⟩ = .ok b' ∧
      b'.balance = ⟨b.balance.amount + pay, 0⟩ ∧ Settled now b'.policy := by
  have hpolicy : ∃ p, b.policy.onDeposit ⟨b.balance, now, ⟨pay, 0⟩⟩ = .ok p ∧ Settled now p := by
    cases hp : b.policy with
    | linear p => exact ⟨.linear p, rfl, trivial⟩
    | cdd p =>
      rw [hp] at hsettled
      obtain ⟨earned, hearned⟩ : ∃ x, p.computeCoinSecondsEarned ⟨b.balance, now, ⟨pay, 0⟩⟩ = .ok x :=
        ⟨_, bind_eq_ok.mpr ⟨(), ensure_eq_ok.mpr hsettled, rfl⟩⟩
      exact ⟨_, bind_eq_ok.mpr ⟨_, bind_eq_ok.mpr ⟨earned, hearned, rfl⟩, rfl⟩, le_refl now⟩
  obtain ⟨p, hp, hp'⟩ := hpolicy
  refine ⟨_, bind_eq_ok.mpr ⟨p, hp, bind_eq_ok.mpr ⟨_, ?_, rfl⟩⟩, rfl, hp'⟩
  refine bind_eq_ok.mpr ⟨(), ensure_eq_ok.mpr hasset, bind_eq_ok.mpr ⟨_, safe_eq_ok.mpr ⟨hrange, rfl⟩, ?_⟩⟩
  rw [hasset]
  rfl

/-- With room for the budget, a pay out of it is made, and there is room for what is left. -/
theorem payWorker_total (hroom : Room d b (w :: ws)) (hpay : 0 ≤ pay) (hle : pay ≤ b) :
    ∃ d', d.payWorker w pay = .ok d' ∧ Room d' (b - pay) ws := by
  have hws : ∀ {x}, x ∈ ws → x ∈ w :: ws := List.mem_cons_of_mem w
  have hrange : ∀ {t : Int}, 0 ≤ t ∧ InInt64 (t + b) → InInt64 (t + pay) := by
    rintro t ⟨h₀, h⟩
    unfold InInt64 at h ⊢
    omega
  have hrest : ∀ {t : Int}, 0 ≤ t ∧ InInt64 (t + b) → 0 ≤ t ∧ InInt64 (t + (b - pay)) := by
    rintro t ⟨h₀, h⟩
    unfold InInt64 at h ⊢
    omega
  have hrefund : ∀ x ∈ ws, ∀ t, x.worker = .refund t → 0 ≤ t ∧ InInt64 (t + (b - pay)) :=
    fun x hx t hworker => hrest (hroom.refund x (hws hx) t hworker)
  have hburn : ∀ x ∈ ws, ∀ t, x.worker = .burn t → 0 ≤ t ∧ InInt64 (t + (b - pay)) :=
    fun x hx t hworker => hrest (hroom.burn x (hws hx) t hworker)
  have hsupply : InInt64 (d.currentSupply - pay) ∧ InInt64 (d.currentSupply - (b - pay)) ∧ InInt64 (d.currentSupply - pay - (b - pay)) := by
    have h := hroom.supply
    unfold InInt64 at h ⊢
    omega
  have hbalance : ∀ x ∈ ws, ∀ i, x.worker = .vestingBalance i → (d.vestingBalances i).balance.assetId = 0 ∧
      0 ≤ (d.vestingBalances i).balance.amount ∧ InInt64 ((d.vestingBalances i).balance.amount + (b - pay)) ∧
        Settled d.headBlockTime.toNat (d.vestingBalances i).policy := by
    intro x hx i hworker
    obtain ⟨hasset, hnonneg, hfits, hsettled⟩ := hroom.balance x (hws hx) i hworker
    exact ⟨hasset, hnonneg, (hrest ⟨hnonneg, hfits⟩).2, hsettled⟩
  unfold payWorker
  split
  · rename_i t hworker
    refine ⟨_, bind_eq_ok.mpr ⟨_, lift_eq_ok.mpr (safe_eq_ok.mpr ⟨?_, rfl⟩), bind_eq_ok.mpr
      ⟨_, lift_eq_ok.mpr (safe_eq_ok.mpr ⟨hsupply.1, rfl⟩), rfl⟩⟩, hrefund, hburn, hrest hroom.nullAccount,
      ⟨hsupply.1, hsupply.2.2⟩, hbalance⟩
    exact hrange (hroom.refund w List.mem_cons_self t hworker)
  · rename_i i hworker
    obtain ⟨hasset, hnonneg, hfits, hsettled⟩ := hroom.balance w List.mem_cons_self i hworker
    obtain ⟨v, hv, hvbalance, hvpolicy⟩ := deposit_eq_ok hasset hsettled (hrange ⟨hnonneg, hfits⟩)
    refine ⟨_, bind_eq_ok.mpr ⟨v, lift_eq_ok.mpr hv, rfl⟩, hrefund, hburn, hrest hroom.nullAccount, ⟨hroom.supply.1, hsupply.2.1⟩, ?_⟩
    intro x hx j hx'
    by_cases hij : j = i
    · subst hij
      simp only [Function.update_self, hvbalance]
      refine ⟨trivial, by omega, ?_, hvpolicy⟩
      rwa [add_assoc, add_sub_cancel]
    · simpa only [Function.update_of_ne hij] using hbalance x hx j hx'
  · rename_i t hworker
    refine ⟨_, bind_eq_ok.mpr ⟨_, lift_eq_ok.mpr (safe_eq_ok.mpr ⟨?_, rfl⟩), bind_eq_ok.mpr
      ⟨(), ensure_eq_ok.mpr fun h => absurd hpay (not_le.mpr h), bind_eq_ok.mpr
        ⟨_, lift_eq_ok.mpr (safe_eq_ok.mpr ⟨hrange hroom.nullAccount, rfl⟩), rfl⟩⟩⟩, hrefund, hburn, ?_,
      ⟨hroom.supply.1, hsupply.2.1⟩, hbalance⟩
    · exact hrange (hroom.burn w List.mem_cons_self t hworker)
    · show 0 ≤ d.nullAccountBalance + pay ∧ InInt64 (d.nullAccountBalance + pay + (b - pay))
      rw [add_assoc, add_sub_cancel]
      exact ⟨add_nonneg hroom.nullAccount.1 hpay, hroom.nullAccount.2⟩

/-! ### All of them -/

theorem payActiveWorkers_of_not_pos (h : ¬0 < b) : d.payActiveWorkers b ws = .ok (d, b) := by
  cases ws with
  | nil => rfl
  | cons w ws => exact if_neg h

/-- The loop gives the budget out among the workers. -/
theorem payActiveWorkers_paid (hsince : 0 ≤ d.sinceLastBudget) (hfits : ∀ w ∈ ws, d.due w < 2 ^ 63) (hb : 0 ≤ b) (hb' : InInt64 b)
    (h : d.payActiveWorkers b ws = .ok (d', left)) :
    Paid d (rations d.due b ws) d' ∧ left = b - given (fun _ => true) (rations d.due b ws) := by
  induction ws generalizing d b with
  | nil =>
    obtain ⟨rfl, rfl⟩ := Prod.mk.inj (Except.ok.inj h)
    exact ⟨.refl d, (sub_zero b).symm⟩
  | cons w ws ih =>
    by_cases hpos : 0 < b
    · rw [payActiveWorkers, if_pos hpos, requestedPay_eq hsince (hfits w List.mem_cons_self), ok_bind] at h
      simp only [bind_eq_ok, lift_eq_ok, safe_eq_ok] at h
      obtain ⟨d₁, hpaid, _, ⟨hrest, rfl⟩, h⟩ := h
      have h₁ := payWorker_paid hpaid
      have hdue := due_congr h₁.headBlockTime h₁.lastBudgetTime
      have hsince₁ : d₁.sinceLastBudget = d.sinceLastBudget := by rw [sinceLastBudget, h₁.headBlockTime, h₁.lastBudgetTime, sinceLastBudget]
      obtain ⟨hpaid', rfl⟩ := ih (hsince₁ ▸ hsince) (fun w hw => hdue ▸ hfits w (List.mem_cons_of_mem _ hw))
        (sub_nonneg.mpr (min_le_left b _)) hrest h
      rw [hdue] at hpaid' ⊢
      rw [rations_cons_of_pos hpos, given_cons]
      refine ⟨h₁.cons hpaid', ?_⟩
      simp only [if_true]
      omega
    · rw [payActiveWorkers_of_not_pos hpos] at h
      obtain ⟨rfl, rfl⟩ := Prod.mk.inj (Except.ok.inj h)
      rw [rations_of_not_pos hpos]
      exact ⟨.refl d, (sub_zero b).symm⟩

/-- With room for the budget, the loop ends. -/
theorem payActiveWorkers_total (hsince : 0 ≤ d.sinceLastBudget) (hfits : ∀ w ∈ ws, d.due w < 2 ^ 63) (hb' : InInt64 b)
    (hroom : Room d b ws) : ∃ r, d.payActiveWorkers b ws = .ok r := by
  induction ws generalizing d b with
  | nil => exact ⟨_, rfl⟩
  | cons w ws ih =>
    by_cases hpos : 0 < b
    · have hpay : 0 ≤ min b (d.due w) := le_min hpos.le (due_nonneg hsince)
      obtain ⟨d₁, hpaid, hroom₁⟩ := payWorker_total hroom hpay (min_le_left _ _)
      have h₁ := payWorker_paid hpaid
      have hdue := due_congr h₁.headBlockTime h₁.lastBudgetTime
      have hsince₁ : d₁.sinceLastBudget = d.sinceLastBudget := by rw [sinceLastBudget, h₁.headBlockTime, h₁.lastBudgetTime, sinceLastBudget]
      have hrest : InInt64 (b - min b (d.due w)) := by
        unfold InInt64 at hb' ⊢
        omega
      obtain ⟨r, hr⟩ := ih (hsince₁ ▸ hsince) (fun w hw => hdue ▸ hfits w (List.mem_cons_of_mem _ hw)) hrest hroom₁
      refine ⟨r, ?_⟩
      rw [payActiveWorkers, if_pos hpos, requestedPay_eq hsince (hfits w List.mem_cons_self), ok_bind]
      exact bind_eq_ok.mpr ⟨d₁, hpaid, bind_eq_ok.mpr ⟨_, lift_eq_ok.mpr (safe_eq_ok.mpr ⟨hrest, rfl⟩), hr⟩⟩
    · exact ⟨_, payActiveWorkers_of_not_pos hpos⟩

end Database

end Khc.Budget
