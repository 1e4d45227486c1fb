import Khc.Fees.Distribution
import Mathlib.Tactic.Linarith

/-! The shares of a fee, and what it means that amounts have been paid out as cashback. -/

namespace Khc.Fees

open Lib
open Chain (AccountId AssetId Eval Error fcAssert safe InInt64 maxInt64 uint128MulDiv uint128MulDiv_part safe_eq_ok fcAssert_eq_ok)

/-- A part of an amount, rounded down -/
def cut (a : Int) (p : Nat) : Int := a * p / graphene100Percent

section
variable {a : Int} {p q : Nat}

theorem cut_nonneg (ha : 0 ≤ a) : 0 ≤ cut a p := Int.ediv_nonneg (mul_nonneg ha (Int.natCast_nonneg p)) (Int.natCast_nonneg _)

theorem cut_mul_le : cut a p * graphene100Percent ≤ a * p := Int.ediv_mul_le _ (by decide)

/-- Two parts that are not more than the whole -/
theorem cut_add_le (ha : 0 ≤ a) (hpq : p + q ≤ graphene100Percent) : cut a p + cut a q ≤ a := by
  have hp := cut_mul_le (a := a) (p := p)
  have hq := cut_mul_le (a := a) (p := q)
  have hsum : a * p + a * q ≤ a * graphene100Percent := by
    rw [← mul_add, ← Nat.cast_add]
    exact mul_le_mul_of_nonneg_left (by exact_mod_cast hpq) ha
  unfold graphene100Percent at *
  omega

theorem cut_le (ha : 0 ≤ a) (hp : p ≤ graphene100Percent) : cut a p ≤ a := by
  have hle := cut_add_le (q := 0) ha hp
  have hzero := cut_nonneg (p := 0) ha
  omega

theorem cutFee_eq (ha : 0 ≤ a) (ha' : a ≤ maxInt64) (hp : p ≤ graphene100Percent) : cutFee a p = .ok (cut a p) := by
  unfold cutFee cut
  split
  · rename_i hzero
    rcases hzero with rfl | rfl
    · rw [zero_mul, Int.zero_ediv]
    · rw [Nat.cast_zero, mul_zero, Int.zero_ediv]
  · split
    · rename_i hall
      rw [hall, Int.mul_ediv_cancel a (by decide)]
    · exact uint128MulDiv_part ha ha' (Int.natCast_nonneg p) (by exact_mod_cast hp) (by decide) (by decide)

end

/-- The shares of an amount in fees -/
structure FeeSplit (total : Int) where
  network : Int
  lifetimeReferrer : Int
  referrer : Int
  registrar : Int
  network_nonneg : 0 ≤ network
  lifetimeReferrer_nonneg : 0 ≤ lifetimeReferrer
  referrer_nonneg : 0 ≤ referrer
  registrar_nonneg : 0 ≤ registrar
  sum_eq : network + lifetimeReferrer + referrer + registrar = total

/-- The shares that the percentages give, with what is left for the registrar -/
def FeePercentages.split (p : FeePercentages) {total : Int} (h : 0 ≤ total) : FeeSplit total where
  network := cut total p.network
  lifetimeReferrer := cut total p.lifetimeReferrer
  referrer := cut (total - cut total p.network - cut total p.lifetimeReferrer) p.referrerRewards
  registrar := total - cut total p.network - cut total p.lifetimeReferrer -
    cut (total - cut total p.network - cut total p.lifetimeReferrer) p.referrerRewards
  network_nonneg := cut_nonneg h
  lifetimeReferrer_nonneg := cut_nonneg h
  referrer_nonneg := by
    have := cut_add_le h p.network_le
    exact cut_nonneg (by omega)
  registrar_nonneg := by
    have := cut_add_le h p.network_le
    exact sub_nonneg.mpr (cut_le (by omega) p.rewards_le)
  sum_eq := by omega

/-! ### Payments -/

/-- All that an account has been given as cashback -/
def Cashback.total (c : Cashback) : Int := (c.cashbackVb.map (·.balance)).getD 0 + (c.loose.map (·.balance)).sum

/-- What is paid to an account; the accounts of the blockchain get nothing. -/
def received (l : List (AccountId × Int)) (x : AccountId) : Int :=
  (l.map fun e => if e.1 = x ∧ ¬Database.isOfBlockchain e.1 then e.2 else 0).sum

/-- What goes to the reserve pool instead -/
def reserved (l : List (AccountId × Int)) : Int := (l.map fun e => if Database.isOfBlockchain e.1 then e.2 else 0).sum

/-- The amounts have been paid, and nothing else has changed. -/
structure Paid (d d' : Database) (l : List (AccountId × Int)) : Prop where
  rest : d' = { d with cashback := d'.cashback, currentSupply := d'.currentSupply }
  cashback : ∀ x, (d'.cashback x).total = (d.cashback x).total + received l x
  supply : d'.currentSupply = d.currentSupply - reserved l

namespace Database
variable {d d' d₁ : Database} {id : AccountId} {amount n : Int} {l l₁ : List (AccountId × Int)}

theorem received_append (x : AccountId) : received (l ++ l₁) x = received l x + received l₁ x := by
  simp [received]

theorem reserved_append : reserved (l ++ l₁) = reserved l + reserved l₁ := by
  simp [reserved]

theorem paid_nil : Paid d d [] := ⟨rfl, fun x => by simp [received], by simp [reserved]⟩

theorem paid_append (h : Paid d d₁ l) (h₁ : Paid d₁ d' l₁) : Paid d d' (l ++ l₁) where
  rest := by
    rw [h₁.rest, h.rest]
  cashback x := by
    rw [h₁.cashback, h.cashback, received_append, add_assoc]
  supply := by
    rw [h₁.supply, h.supply, reserved_append, sub_sub]

theorem depositLazyVesting_total {c c' : Cashback} {seconds : Nat} (h : depositLazyVesting c amount seconds = .ok c') :
    c'.total = c.total + amount := by
  obtain ⟨vb, loose⟩ := c
  unfold depositLazyVesting at h
  cases vb with
  | none =>
    obtain rfl := Except.ok.inj h
    simp [Cashback.total, add_comm]
  | some b =>
    dsimp only at h
    split at h
    · obtain ⟨balance, hbalance, h⟩ := bind_eq_ok.mp h
      obtain ⟨-, rfl⟩ := safe_eq_ok.mp hbalance
      obtain rfl := Except.ok.inj h
      simp only [Cashback.total, Option.map_some, Option.getD_some]
      omega
    · obtain rfl := Except.ok.inj h
      simp only [Cashback.total, Option.map_some, Option.getD_some, List.map_cons, List.sum_cons]
      omega

/-- A deposit pays its amount, all of it. -/
theorem depositCashback_paid (h : d.depositCashback id amount = .ok d') : Paid d d' [(id, amount)] := by
  obtain ⟨_, -, h⟩ := bind_eq_ok.mp h
  split at h
  · rename_i hzero
    obtain rfl := Except.ok.inj h
    exact ⟨rfl, fun x => by simp [received, hzero], by simp [reserved, hzero]⟩
  · split at h
    · rename_i hchain
      obtain ⟨supply, hsupply, h⟩ := bind_eq_ok.mp h
      obtain ⟨-, rfl⟩ := safe_eq_ok.mp hsupply
      obtain rfl := Except.ok.inj h
      exact ⟨rfl, fun x => by simp [received, hchain], by simp [reserved, hchain]⟩
    · rename_i hchain
      obtain ⟨c, hc, h⟩ := bind_eq_ok.mp h
      obtain rfl := Except.ok.inj h
      refine ⟨rfl, fun x => ?_, by simp [reserved, hchain]⟩
      by_cases hx : id = x
      · subst hx
        simp only [Function.update_self, depositLazyVesting_total hc]
        simp [received, hchain]
      · simp [Function.update_of_ne (Ne.symm hx), received, hx]

/-- An amount may be paid out, in any parts, without a sum that leaves 64 bits. -/
structure Room (d : Database) (n : Int) : Prop where
  amount : n ≤ maxInt64
  balance : ∀ x, ∀ b ∈ (d.cashback x).cashbackVb, 0 ≤ b.balance ∧ b.balance + n ≤ maxInt64
  supply : n ≤ d.currentSupply
  supply_le : d.currentSupply ≤ maxInt64

theorem depositLazyVesting_room {c : Cashback} (seconds : Nat) (hamount : 0 ≤ amount) (hn : amount ≤ n) (hn' : n ≤ maxInt64)
    (hc : ∀ b ∈ c.cashbackVb, 0 ≤ b.balance ∧ b.balance + n ≤ maxInt64) :
    ∃ c', depositLazyVesting c amount seconds = .ok c' ∧ ∀ b ∈ c'.cashbackVb, 0 ≤ b.balance ∧ b.balance + (n - amount) ≤ maxInt64 := by
  obtain ⟨vb, loose⟩ := c
  unfold depositLazyVesting
  cases vb with
  | none =>
    refine ⟨_, rfl, ?_⟩
    rintro _ ⟨⟩
    exact ⟨hamount, show amount + (n - amount) ≤ maxInt64 by omega⟩
  | some b =>
    obtain ⟨hb, hb'⟩ := hc b rfl
    dsimp only
    split
    · have hrange : InInt64 (b.balance + amount) := by
        unfold maxInt64 at hb'
        unfold InInt64
        omega
      refine ⟨_, bind_eq_ok.mpr ⟨_, safe_eq_ok.mpr ⟨hrange, rfl⟩, rfl⟩, ?_⟩
      rintro _ ⟨⟩
      exact ⟨add_nonneg hb hamount, show b.balance + amount + (n - amount) ≤ maxInt64 by omega⟩
    · refine ⟨_, rfl, ?_⟩
      rintro _ ⟨⟩
      exact ⟨hamount, show amount + (n - amount) ≤ maxInt64 by omega⟩

theorem depositCashback_room (hd : d.Room n) (hid : (d.accounts id).isSome) (hamount : 0 ≤ amount) (hn : amount ≤ n) :
    ∃ d', d.depositCashback id amount = .ok d' ∧ d'.Room (n - amount) := by
  obtain ⟨a, ha⟩ := Option.isSome_iff_exists.mp hid
  have hget : d.getAccount id = .ok a := by
    rw [getAccount, ha]
  obtain ⟨hle, hbalance, hsupply, hsupply'⟩ := hd
  unfold depositCashback
  rw [hget, ok_bind]
  split
  · rename_i hzero
    subst hzero
    exact ⟨d, rfl, by rw [sub_zero]; exact ⟨hle, hbalance, hsupply, hsupply'⟩⟩
  · split
    · have hrange : InInt64 (d.currentSupply - amount) := by
        unfold maxInt64 at hsupply'
        unfold InInt64
        omega
      refine ⟨_, bind_eq_ok.mpr ⟨_, safe_eq_ok.mpr ⟨hrange, rfl⟩, rfl⟩, by omega, fun x b hb => ?_, sub_le_sub_right hsupply _, ?_⟩
      · have := hbalance x b hb
        omega
      · exact (sub_le_self _ hamount).trans hsupply'
    · obtain ⟨c, hc, hroom⟩ := depositLazyVesting_room (c := d.cashback id) d.parameters.cashbackVestingPeriodSeconds
        hamount hn hle (hbalance id)
      refine ⟨_, bind_eq_ok.mpr ⟨c, hc, rfl⟩, by omega, fun x b hb => ?_, show n - amount ≤ d.currentSupply by omega, hsupply'⟩
      by_cases hx : x = id
      · subst hx
        replace hb : b ∈ (Function.update d.cashback x c x).cashbackVb := hb
        rw [Function.update_self] at hb
        exact hroom b hb
      · replace hb : b ∈ (Function.update d.cashback id c x).cashbackVb := hb
        rw [Function.update_of_ne hx] at hb
        have := hbalance x b hb
        omega

end Database

end Khc.Fees
