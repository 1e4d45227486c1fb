import Khc.Fees.Shares

/-! What is pending of an account in fees is given to those who share it, to the last unit. -/

namespace Khc.Fees

open Lib
open Chain (AccountId AssetId Eval Error fcAssert safe InInt64 maxInt64 uint128MulDiv uint128MulDiv_part safe_eq_ok fcAssert_eq_ok)

namespace FeeSplit
variable {total : Int}

theorem network_le (s : FeeSplit total) : s.network ≤ total := by
  have := s.lifetimeReferrer_nonneg
  have := s.referrer_nonneg
  have := s.registrar_nonneg
  have := s.sum_eq
  omega

end FeeSplit

namespace Database
variable {d d' : Database} {id : AccountId} {a r : AccountObject} {total : Int}

theorem getAccount_eq (ha : d.accounts id = some a) : d.getAccount id = .ok a := by
  rw [getAccount, ha]

/-- The account that gets the share of the referrer -/
def payee (d : Database) (a : AccountObject) : AccountId :=
  if (d.accounts a.referrer).any (·.isBasicAccount d.headBlockTime) then a.lifetimeReferrer else a.referrer

/-- The account after its referrer has been checked -/
def redirected (d : Database) (a : AccountObject) : AccountObject := { a with referrer := d.payee a }

def shares (d : Database) (a : AccountObject) (s : FeeSplit total) : List (AccountId × Int) :=
  [(a.lifetimeReferrer, s.lifetimeReferrer), (d.payee a, s.referrer), (a.registrar, s.registrar)]

/-- Those who share the fees of the account exist. -/
structure Linked (d : Database) (a : AccountObject) : Prop where
  registrar : (d.accounts a.registrar).isSome
  referrer : (d.accounts a.referrer).isSome
  lifetimeReferrer : (d.accounts a.lifetimeReferrer).isSome

theorem Linked.payee (h : d.Linked a) : (d.accounts (d.payee a)).isSome := by
  unfold Database.payee
  split
  · exact h.lifetimeReferrer
  · exact h.referrer

theorem checkReferrer_eq (ha : d.accounts id = some a) (h : d.Linked a) :
    d.checkReferrer id a = .ok (d.setAccount id (d.redirected a)) := by
  obtain ⟨r, hr⟩ := Option.isSome_iff_exists.mp h.referrer
  unfold checkReferrer redirected payee
  rw [getAccount_eq hr, ok_bind, hr, Option.any_some]
  split
  · rfl
  · have hself : d.setAccount id { a with referrer := a.referrer } = d := by
      show { d with accounts := Function.update d.accounts id (some a) } = d
      rw [← ha, Function.update_eq_self]
    exact congrArg Except.ok hself.symm

/-- Once the shares have been computed, they are paid. -/
def payOut (d : Database) (id : AccountId) (a : AccountObject) (s : FeeSplit total) : Eval Database := do
  let accumulatedFees ← safe (d.accumulatedFees + s.network)
  let d₁ ← { d.setAccount id (d.redirected a) with accumulatedFees }.depositCashback a.lifetimeReferrer s.lifetimeReferrer
  let d₂ ← d₁.depositCashback (d.payee a) s.referrer
  d₂.depositCashback a.registrar s.registrar

theorem payOutFees_eq (ha : d.accounts id = some a) (h : d.Linked a) (hpos : 0 ≤ total) (hmax : total ≤ maxInt64) :
    d.payOutFees id total = d.payOut id a (a.percentages.split hpos) := by
  have hsum := cut_add_le hpos a.percentages.network_le
  have hnetwork := cut_nonneg (p := a.percentages.network) hpos
  have hlifetime := cut_nonneg (p := a.percentages.lifetimeReferrer) hpos
  have hreserved := cut_nonneg (p := d.parameters.reservePercentOfFee) hnetwork
  have hreserved' := cut_le hnetwork d.parameters.reserve_le
  have hreferral : 0 ≤ total - cut total a.percentages.network - cut total a.percentages.lifetimeReferrer := by omega
  have hreferrer := cut_nonneg (p := a.percentages.referrerRewards) hreferral
  have hreferrer' := cut_le hreferral a.percentages.rewards_le
  have hsafe : ∀ x : Int, 0 ≤ x → x ≤ total → safe x = .ok x := by
    intro x hx hx'
    refine safe_eq_ok.mpr ⟨?_, rfl⟩
    unfold maxInt64 at hmax
    exact ⟨by omega, by omega⟩
  have hget : (d.setAccount id (d.redirected a)).getAccount id = .ok (d.redirected a) := getAccount_eq (Function.update_self ..)
  have hnet : cutFee total (d.redirected a).percentages.network = .ok (cut total a.percentages.network) :=
    cutFee_eq hpos hmax ((Nat.le_add_right _ _).trans a.percentages.network_le)
  have hlife : cutFee total (d.redirected a).percentages.lifetimeReferrer = .ok (cut total a.percentages.lifetimeReferrer) :=
    cutFee_eq hpos hmax ((Nat.le_add_left _ _).trans a.percentages.network_le)
  have hres : cutFee (cut total a.percentages.network) (d.setAccount id (d.redirected a)).parameters.reservePercentOfFee =
      .ok (cut (cut total a.percentages.network) d.parameters.reservePercentOfFee) :=
    cutFee_eq hnetwork (by omega) d.parameters.reserve_le
  have href : cutFee (total - cut total a.percentages.network - cut total a.percentages.lifetimeReferrer)
      (d.redirected a).percentages.referrerRewards =
      .ok (cut (total - cut total a.percentages.network - cut total a.percentages.lifetimeReferrer) a.percentages.referrerRewards) :=
    cutFee_eq hreferral (by omega) a.percentages.rewards_le
  have hassert : ∀ {c : Prop} [Decidable c] {e : Error}, c → fcAssert c e = .ok () := fun hc => fcAssert_eq_ok.mpr hc
  rw [payOutFees, getAccount_eq ha, ok_bind, checkReferrer_eq ha h, ok_bind, hget, ok_bind, hnet, ok_bind, hassert (by omega), ok_bind,
    hres, ok_bind, hsafe _ (by omega) (by omega), ok_bind, hassert (by omega), ok_bind, hlife, ok_bind, hsafe _ (by omega) (by omega), ok_bind,
    hsafe _ hreferral (by omega), ok_bind]
  refine bind_congr fun accumulatedFees => ?_
  rw [href, ok_bind, hsafe _ (by omega) (by omega), ok_bind]
  refine bind_congr fun d₁ => bind_congr fun d₂ => ?_
  rw [hassert (by omega)]
  exact bind_pure _

/-- The database before the cashback of a pool is deposited -/
def beforeDeposits (d : Database) (id : AccountId) (a : AccountObject) (network : Int) : Database :=
  { d.setAccount id (d.redirected a) with accumulatedFees := d.accumulatedFees + network }

theorem payOut_paid {s : FeeSplit total} (h : d.payOut id a s = .ok d') : Paid (d.beforeDeposits id a s.network) d' (d.shares a s) := by
  obtain ⟨_, hsum, h⟩ := bind_eq_ok.mp h
  obtain ⟨-, rfl⟩ := safe_eq_ok.mp hsum
  obtain ⟨d₁, h₁, h⟩ := bind_eq_ok.mp h
  obtain ⟨d₂, h₂, h⟩ := bind_eq_ok.mp h
  exact paid_append (depositCashback_paid h₁) (paid_append (depositCashback_paid h₂) (depositCashback_paid h))

theorem paid_accounts {l : List (AccountId × Int)} (h : Paid d d' l) : d'.accounts = d.accounts := by
  rw [h.rest]

/-- Accounts that exist still do after the referrer of one of them has been checked. -/
theorem isSome_beforeDeposits {n : Int} {x : AccountId} (hx : (d.accounts x).isSome) :
    ((d.beforeDeposits id a n).accounts x).isSome := by
  show (Function.update d.accounts id (some (d.redirected a)) x).isSome
  by_cases hxid : x = id
  · rw [hxid, Function.update_self]
    rfl
  · rwa [Function.update_of_ne hxid]

theorem payOut_room (id : AccountId) {s : FeeSplit total} {n : Int} (h : d.Linked a) (hd : d.Room n) (hn : total ≤ n)
    (hfees : 0 ≤ d.accumulatedFees ∧ d.accumulatedFees + n ≤ maxInt64) :
    ∃ d', d.payOut id a s = .ok d' ∧ d'.Room (n - total) ∧ d'.accumulatedFees = d.accumulatedFees + s.network := by
  have hnet := s.network_nonneg
  have hlife := s.lifetimeReferrer_nonneg
  have href := s.referrer_nonneg
  have hreg := s.registrar_nonneg
  have hsum := s.sum_eq
  have hrange : InInt64 (d.accumulatedFees + s.network) := by
    unfold maxInt64 at hfees
    exact ⟨by omega, by omega⟩
  have hroom : (d.beforeDeposits id a s.network).Room n := ⟨hd.amount, hd.balance, hd.supply, hd.supply_le⟩
  obtain ⟨d₁, h₁, hroom₁⟩ := depositCashback_room hroom (isSome_beforeDeposits h.lifetimeReferrer) hlife (by omega)
  have hpaid₁ := depositCashback_paid h₁
  have hpayee : (d₁.accounts (d.payee a)).isSome := by
    rw [paid_accounts hpaid₁]
    exact isSome_beforeDeposits h.payee
  obtain ⟨d₂, h₂, hroom₂⟩ := depositCashback_room hroom₁ hpayee href (by omega)
  have hpaid₂ := paid_append hpaid₁ (depositCashback_paid h₂)
  have hregistrar : (d₂.accounts a.registrar).isSome := by
    rw [paid_accounts hpaid₂]
    exact isSome_beforeDeposits h.registrar
  obtain ⟨d₃, h₃, hroom₃⟩ := depositCashback_room hroom₂ hregistrar hreg (by omega)
  have hpaid₃ := paid_append hpaid₂ (depositCashback_paid h₃)
  refine ⟨d₃, bind_eq_ok.mpr ⟨_, safe_eq_ok.mpr ⟨hrange, rfl⟩, bind_eq_ok.mpr ⟨d₁, h₁, bind_eq_ok.mpr ⟨d₂, h₂, h₃⟩⟩⟩, ?_, ?_⟩
  · obtain ⟨hamount, hbalance, hsupply, hsupply'⟩ := hroom₃
    exact ⟨by omega, fun x b hb => by have := hbalance x b hb; omega, by omega, hsupply'⟩
  · rw [hpaid₃.rest]
    rfl

/-! ### The second pool -/

theorem payee_redirected (hacc : d'.accounts = Function.update d.accounts id (some (d.redirected a))) (htime : d'.headBlockTime = d.headBlockTime)
    (ha : d.accounts id = some a) : d'.payee (d.redirected a) = d.payee a := by
  have hmember : ∀ x, (d'.accounts x).any (·.isBasicAccount d'.headBlockTime) = (d.accounts x).any (·.isBasicAccount d.headBlockTime) := by
    intro x
    rw [hacc, htime]
    by_cases hx : x = id
    · rw [hx, Function.update_self, ha]
      rfl
    · rw [Function.update_of_ne hx]
  show (if (d'.accounts (d.payee a)).any (·.isBasicAccount d'.headBlockTime) then a.lifetimeReferrer else d.payee a) = d.payee a
  rw [hmember]
  unfold payee
  by_cases hbasic : (d.accounts a.referrer).any (·.isBasicAccount d.headBlockTime) = true
  · rw [if_pos hbasic]
    exact ite_self _
  · rw [if_neg hbasic, if_neg hbasic]

theorem redirected_redirected (hacc : d'.accounts = Function.update d.accounts id (some (d.redirected a)))
    (htime : d'.headBlockTime = d.headBlockTime) (ha : d.accounts id = some a) : d'.redirected (d.redirected a) = d.redirected a := by
  show { a with referrer := d'.payee (d.redirected a) } = { a with referrer := d.payee a }
  rw [payee_redirected hacc htime ha]

theorem linked_redirected (hacc : d'.accounts = Function.update d.accounts id (some (d.redirected a))) (h : d.Linked a) :
    d'.Linked (d.redirected a) := by
  have hsome : ∀ x, (d.accounts x).isSome → (d'.accounts x).isSome := by
    intro x hx
    rw [hacc]
    exact isSome_beforeDeposits (n := 0) hx
  exact ⟨hsome _ h.registrar, hsome _ h.payee, hsome _ h.lifetimeReferrer⟩

/-! ### All that is pending -/

/-- What is pending has been distributed, and nothing else has changed. -/
structure Distributed (d d' : Database) (id : AccountId) (a : AccountObject) {total vested : Int} (s : FeeSplit total) (v : FeeSplit vested) :
    Prop where
  network : d'.accumulatedFees = d.accumulatedFees + (s.network + v.network)
  cashback : ∀ x, (d'.cashback x).total = (d.cashback x).total + received (d.shares a s ++ d.shares a v) x
  supply : d'.currentSupply = d.currentSupply - reserved (d.shares a s ++ d.shares a v)
  statistics : d'.statistics =
    Function.update d.statistics id ⟨(d.statistics id).lifetimeFeesPaid + (total + vested), 0, 0⟩
  accounts : d'.accounts = d.accounts ∨ d'.accounts = Function.update d.accounts id (some (d.redirected a))
  balances : d'.balances = d.balances
  assets : d'.assets = d.assets
  fbaAccumulators : d'.fbaAccumulators = d.fbaAccumulators

/-- The sums fit into 64 bits. -/
structure Fits (d : Database) (id : AccountId) : Prop where
  room : d.Room ((d.statistics id).pendingFees + (d.statistics id).pendingVestedFees)
  fees_nonneg : 0 ≤ d.accumulatedFees
  fees_le : d.accumulatedFees + ((d.statistics id).pendingFees + (d.statistics id).pendingVestedFees) ≤ maxInt64
  lifetime_nonneg : 0 ≤ (d.statistics id).lifetimeFeesPaid
  lifetime_le : (d.statistics id).lifetimeFeesPaid + ((d.statistics id).pendingFees + (d.statistics id).pendingVestedFees) ≤ maxInt64

/-- Nothing is shared of nothing. -/
theorem shares_zero (s : FeeSplit (0 : Int)) : s.network = 0 ∧ ∀ x, received (d.shares a s) x = 0 ∧ reserved (d.shares a s) = 0 := by
  have hnet := s.network_nonneg
  have hlife := s.lifetimeReferrer_nonneg
  have href := s.referrer_nonneg
  have hreg := s.registrar_nonneg
  have hsum := s.sum_eq
  have hlife' : s.lifetimeReferrer = 0 := by omega
  have href' : s.referrer = 0 := by omega
  have hreg' : s.registrar = 0 := by omega
  exact ⟨by omega, fun x => by simp [received, reserved, shares, hlife', href', hreg']⟩

section
variable {pending vested lifetime : Int}

/-- After both pools have been paid out -/
theorem distributed_of_paid {d₁ d₂ : Database} {s : FeeSplit pending} {v : FeeSplit vested} (ha : d.accounts id = some a)
    (h₁ : Paid (d.beforeDeposits id a s.network) d₁ (d.shares a s))
    (h₂ : Paid (d₁.beforeDeposits id (d.redirected a) v.network) d₂ (d₁.shares (d.redirected a) v)) :
    Distributed d (d₂.setStatistics id ⟨(d.statistics id).lifetimeFeesPaid + (pending + vested), 0, 0⟩) id a s v := by
  have hacc : d₁.accounts = Function.update d.accounts id (some (d.redirected a)) := paid_accounts h₁
  have htime : d₁.headBlockTime = d.headBlockTime := by
    rw [h₁.rest]
    rfl
  have hshares : d₁.shares (d.redirected a) v = d.shares a v := by
    unfold shares
    rw [payee_redirected hacc htime ha]
    rfl
  have hacc₂ : d₂.accounts = Function.update d.accounts id (some (d.redirected a)) := by
    rw [paid_accounts h₂]
    show Function.update d₁.accounts id (some (d₁.redirected (d.redirected a))) = _
    rw [redirected_redirected hacc htime ha, hacc, Function.update_idem]
  rw [hshares] at h₂
  refine ⟨?_, fun x => ?_, ?_, ?_, .inr hacc₂, ?_, ?_, ?_⟩
  · show d₂.accumulatedFees = _
    rw [h₂.rest]
    show d₁.accumulatedFees + v.network = _
    rw [h₁.rest]
    exact add_assoc _ _ _
  · show (d₂.cashback x).total = _
    rw [h₂.cashback, received_append, ← add_assoc]
    exact congrArg (· + _) (h₁.cashback x)
  · show d₂.currentSupply = _
    rw [h₂.supply, reserved_append, ← sub_sub]
    exact congrArg (· - _) h₁.supply
  · show Function.update d₂.statistics id _ = _
    rw [h₂.rest]
    show Function.update d₁.statistics id _ = _
    rw [h₁.rest]
    rfl
  · show d₂.balances = _
    rw [h₂.rest]
    show d₁.balances = _
    rw [h₁.rest]
    rfl
  · show d₂.assets = _
    rw [h₂.rest]
    show d₁.assets = _
    rw [h₁.rest]
    rfl
  · show d₂.fbaAccumulators = _
    rw [h₂.rest]
    show d₁.fbaAccumulators = _
    rw [h₁.rest]
    rfl

/-- What is pending is a sum of 64 bits. -/
structure Pending (s : AccountStatistics) : Prop where
  pendingFees : 0 ≤ s.pendingFees
  pendingFees_le : s.pendingFees ≤ maxInt64
  pendingVestedFees : 0 ≤ s.pendingVestedFees
  pendingVestedFees_le : s.pendingVestedFees ≤ maxInt64

/-- With nothing pending, there is nothing to do. -/
theorem distributed_of_none (s : FeeSplit pending) (v : FeeSplit vested) (hzero : (d.statistics id).pendingFees = 0)
    (hzero' : (d.statistics id).pendingVestedFees = 0) (hpending : (d.statistics id).pendingFees = pending)
    (hvested : (d.statistics id).pendingVestedFees = vested) : Distributed d d id a s v := by
  obtain rfl : pending = 0 := hpending.symm.trans hzero
  obtain rfl : vested = 0 := hvested.symm.trans hzero'
  obtain ⟨hnet, hs⟩ := shares_zero (d := d) (a := a) s
  obtain ⟨hnet', hv⟩ := shares_zero (d := d) (a := a) v
  have hstatistics : ∀ s : AccountStatistics, s.pendingFees = 0 → s.pendingVestedFees = 0 → ⟨s.lifetimeFeesPaid + (0 + 0), 0, 0⟩ = s := by
    rintro ⟨lifetime, _, _⟩ rfl rfl
    rw [add_zero, add_zero]
  refine ⟨by omega, fun x => ?_, ?_, ?_, .inl rfl, rfl, rfl, rfl⟩
  · rw [received_append, (hs x).1, (hv x).1, add_zero, add_zero]
  · rw [reserved_append, (hs 0).2, (hv 0).2, add_zero, sub_zero]
  · rw [hstatistics _ hzero hzero', Function.update_eq_self]

theorem processFees_distributed (ha : d.accounts id = some a) (hlinked : d.Linked a) (h : Pending (d.statistics id))
    (hok : d.processFees id = .ok d') :
    Distributed d d' id a (a.percentages.split h.pendingFees) (a.percentages.split h.pendingVestedFees) := by
  unfold processFees at hok
  dsimp only at hok
  split at hok
  · obtain ⟨d₁, h₁, hok⟩ := bind_eq_ok.mp hok
    obtain ⟨d₂, h₂, hok⟩ := bind_eq_ok.mp hok
    obtain ⟨_, hpaid, hok⟩ := bind_eq_ok.mp hok
    obtain ⟨-, rfl⟩ := safe_eq_ok.mp hpaid
    obtain ⟨_, hlifetime, hok⟩ := bind_eq_ok.mp hok
    obtain ⟨-, rfl⟩ := safe_eq_ok.mp hlifetime
    obtain rfl := Except.ok.inj hok
    rw [payOutFees_eq ha hlinked h.pendingFees h.pendingFees_le] at h₁
    have hpaid₁ := payOut_paid h₁
    have hacc : d₁.accounts = Function.update d.accounts id (some (d.redirected a)) := paid_accounts hpaid₁
    have ha₁ : d₁.accounts id = some (d.redirected a) := by
      rw [hacc, Function.update_self]
    rw [payOutFees_eq ha₁ (linked_redirected hacc hlinked) h.pendingVestedFees h.pendingVestedFees_le] at h₂
    exact distributed_of_paid ha hpaid₁ (payOut_paid h₂)
  · rename_i hnone
    obtain rfl := Except.ok.inj hok
    have hpending := h.pendingFees
    have hvested := h.pendingVestedFees
    exact distributed_of_none _ _ (by omega) (by omega) rfl rfl

/-- The fees are processed, without an assertion that fails. -/
theorem processFees_succeeds (ha : d.accounts id = some a) (hlinked : d.Linked a) (h : Pending (d.statistics id)) (hfits : d.Fits id) :
    ∃ d', d.processFees id = .ok d' := by
  obtain ⟨hroom, hfees, hfees', hlifetime, hlifetime'⟩ := hfits
  have hpending := h.pendingFees
  have hvested := h.pendingVestedFees
  unfold processFees
  dsimp only
  split
  · obtain ⟨d₁, h₁, hroom₁, hnet⟩ := payOut_room id (s := a.percentages.split h.pendingFees) hlinked hroom (by omega) ⟨hfees, hfees'⟩
    have hpaid₁ := payOut_paid h₁
    have hacc : d₁.accounts = Function.update d.accounts id (some (d.redirected a)) := paid_accounts hpaid₁
    have ha₁ : d₁.accounts id = some (d.redirected a) := by
      rw [hacc, Function.update_self]
    have hlinked₁ := linked_redirected hacc hlinked
    have hle := (a.percentages.split h.pendingFees).network_le
    have hnonneg := (a.percentages.split h.pendingFees).network_nonneg
    obtain ⟨d₂, h₂, -⟩ := payOut_room id (s := a.percentages.split h.pendingVestedFees) hlinked₁ hroom₁ (by omega)
      ⟨by omega, by omega⟩
    replace h₁ := (payOutFees_eq ha hlinked h.pendingFees h.pendingFees_le).trans h₁
    replace h₂ := (payOutFees_eq ha₁ hlinked₁ h.pendingVestedFees h.pendingVestedFees_le).trans h₂
    have hrange : InInt64 ((d.statistics id).pendingFees + (d.statistics id).pendingVestedFees) := by
      unfold maxInt64 at hlifetime'
      exact ⟨by omega, by omega⟩
    have hrange' : InInt64 ((d.statistics id).lifetimeFeesPaid + ((d.statistics id).pendingFees + (d.statistics id).pendingVestedFees)) := by
      unfold maxInt64 at hlifetime'
      exact ⟨by omega, by omega⟩
    exact ⟨_, bind_eq_ok.mpr ⟨d₁, h₁, bind_eq_ok.mpr ⟨d₂, h₂, bind_eq_ok.mpr ⟨_, safe_eq_ok.mpr ⟨hrange, rfl⟩,
      bind_eq_ok.mpr ⟨_, safe_eq_ok.mpr ⟨hrange', rfl⟩, rfl⟩⟩⟩⟩⟩
  · exact ⟨d, rfl⟩

end

end Database

end Khc.Fees
