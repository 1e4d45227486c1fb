import Khc.Fees.PayOut
import Khc.Fees.FeeBacked
import Khc.Lib.Run

/-! Fees are shared without loss, whatever happens to the accounts, the parameters and the fee-backed assets. -/

namespace Khc.Fees

open Lib
open Chain (AccountId AssetId Eval Error fcAssert safe InInt64 maxInt64 safe_eq_ok fcAssert_eq_ok)

/-- What changes the fees, and who shares them -/
inductive Step
  | payFee (id : AccountId) (coreFee : Int)
  | payFbaFee (fbaId : FbaAccumulatorId) (coreFeePaid : Int)
  | processFees (id : AccountId)
  | distributeFbaBalances
  | createAccount (id : AccountId) (o : Database.AccountCreateOperation)
  | upgradeAccount (id : AccountId)
  | setParameters (parameters : FeeParameters)
  | setTime (headBlockTime : Nat)
  /-- New assets, and other ones that fees are accumulated for -/
  | designate (assets : AssetId → Option AssetObject) (designated : FbaAccumulatorId → Option AssetId)
  /-- Other authorities of an account -/
  | setAuthorities (id : AccountId) (owner active : SpecialAuthority) (topNControlFlags : Nat)

namespace Database
variable {d d' : Database} {id : AccountId} {a : AccountObject}

def apply (d : Database) : Step → Eval Database
  | .payFee id coreFee => d.payFee id coreFee
  | .payFbaFee fbaId coreFeePaid => d.payFbaFee fbaId coreFeePaid
  | .processFees id => d.processFees id
  | .distributeFbaBalances => d.distributeFbaBalances
  | .createAccount id o => d.createAccount id o
  | .upgradeAccount id => d.upgradeAccount id
  | .setParameters parameters => .ok { d with parameters }
  | .setTime headBlockTime => .ok { d with headBlockTime }
  | .designate assets designated =>
    .ok { d with assets, fbaAccumulators := fun f => { d.fbaAccumulators f with designatedAsset := designated f } }
  | .setAuthorities id owner active topNControlFlags => do
    let a ← d.getAccount id
    return d.setAccount id { a with ownerSpecialAuthority := owner, activeSpecialAuthority := active, topNControlFlags }

/-- Fees are not negative, those of an account that exists are processed, and issuers exist. -/
def Possible (d : Database) : Step → Prop
  | .payFee _ coreFee => 0 ≤ coreFee
  | .payFbaFee _ coreFeePaid => 0 ≤ coreFeePaid
  | .processFees id => (d.accounts id).isSome
  | .designate assets _ => HasIssuers { d with assets }
  | _ => True

open Classical in
noncomputable def step (d : Database) (s : Step) : Option Database := if d.Possible s then (d.apply s).toOption else none

structure WellFormed (d : Database) : Prop where
  linked : ∀ id a, d.accounts id = some a → d.Linked a
  pending : ∀ id, Pending (d.statistics id)
  accumulated : ∀ f, Accumulated (d.fbaAccumulators f)
  issuers : d.HasIssuers

/-! ### What the steps keep -/

/-- Accounts are never removed. -/
theorem Linked.mono (h : d.Linked a) (hmono : ∀ x, (d.accounts x).isSome → (d'.accounts x).isSome) : d'.Linked a :=
  ⟨hmono _ h.registrar, hmono _ h.referrer, hmono _ h.lifetimeReferrer⟩

theorem isSome_setAccount {x : AccountId} (hx : (d.accounts x).isSome) : ((d.setAccount id a).accounts x).isSome := by
  show (Function.update d.accounts id (some a) x).isSome
  by_cases hxid : x = id
  · rw [hxid, Function.update_self]
    rfl
  · rwa [Function.update_of_ne hxid]

theorem WellFormed.setAccount (h : d.WellFormed) (ha : (d.setAccount id a).Linked a) : (d.setAccount id a).WellFormed where
  linked x b hb := by
    replace hb : Function.update d.accounts id (some a) x = some b := hb
    by_cases hx : x = id
    · rw [hx, Function.update_self] at hb
      exact Option.some.inj hb ▸ ha
    · rw [Function.update_of_ne hx] at hb
      exact (h.linked x b hb).mono fun _ => isSome_setAccount
  pending := h.pending
  accumulated := h.accumulated
  issuers x asset hasset := isSome_setAccount (h.issuers x asset hasset)

/-- The accounts and the assets are the same. -/
theorem WellFormed.of_accounts (h : d.WellFormed) (hacc : d'.accounts = d.accounts) (hassets : d'.assets = d.assets)
    (hpending : ∀ x, Pending (d'.statistics x)) (haccumulated : ∀ f, Accumulated (d'.fbaAccumulators f)) : d'.WellFormed where
  linked x b hb := by
    rw [hacc] at hb
    exact (h.linked x b hb).mono fun _ hy => by rwa [hacc]
  pending := hpending
  accumulated := haccumulated
  issuers x asset hasset := by
    rw [hassets] at hasset
    rw [hacc]
    exact h.issuers x asset hasset

theorem WellFormed.pending_update (h : d.WellFormed) {s : AccountStatistics} (hs : Pending s) (x : AccountId) :
    Pending (Function.update d.statistics id s x) := by
  by_cases hx : x = id
  · rw [hx, Function.update_self]
    exact hs
  · rw [Function.update_of_ne hx]
    exact h.pending x

theorem WellFormed.accumulated_update (h : d.WellFormed) {f : FbaAccumulatorId} {fba : FbaAccumulator} (hfba : Accumulated fba)
    (x : FbaAccumulatorId) : Accumulated (Function.update d.fbaAccumulators f fba x) := by
  by_cases hx : x = f
  · rw [hx, Function.update_self]
    exact hfba
  · rw [Function.update_of_ne hx]
    exact h.accumulated x

theorem WellFormed.setStatistics (h : d.WellFormed) {s : AccountStatistics} (hs : Pending s) : (d.setStatistics id s).WellFormed :=
  h.of_accounts rfl rfl (h.pending_update hs) h.accumulated

theorem WellFormed.setFba (h : d.WellFormed) {f : FbaAccumulatorId} {fba : FbaAccumulator} (hfba : Accumulated fba) :
    (d.setFba f fba).WellFormed :=
  h.of_accounts rfl rfl h.pending (h.accumulated_update hfba)

theorem payFee_wellFormed {coreFee : Int} (h : d.WellFormed) (hfee : 0 ≤ coreFee) (hok : d.payFee id coreFee = .ok d') : d'.WellFormed := by
  obtain ⟨hpending, hpending', hvested, hvested'⟩ := h.pending id
  unfold payFee at hok
  dsimp only at hok
  split at hok
  · obtain ⟨_, hsum, hok⟩ := bind_eq_ok.mp hok
    obtain ⟨hrange, rfl⟩ := safe_eq_ok.mp hsum
    obtain rfl := Except.ok.inj hok
    exact h.setStatistics ⟨add_nonneg hpending hfee, hrange.2, hvested, hvested'⟩
  · obtain ⟨_, hsum, hok⟩ := bind_eq_ok.mp hok
    obtain ⟨hrange, rfl⟩ := safe_eq_ok.mp hsum
    obtain rfl := Except.ok.inj hok
    exact h.setStatistics ⟨hpending, hpending', add_nonneg hvested hfee, hrange.2⟩

theorem payFbaFee_wellFormed {f : FbaAccumulatorId} {coreFee : Int} (h : d.WellFormed) (hfee : 0 ≤ coreFee)
    (hok : d.payFbaFee f coreFee = .ok d') : d'.WellFormed := by
  obtain ⟨_, hsum, hok⟩ := bind_eq_ok.mp hok
  obtain ⟨hrange, rfl⟩ := safe_eq_ok.mp hsum
  obtain rfl := Except.ok.inj hok
  exact h.setFba ⟨add_nonneg (h.accumulated f).nonneg hfee, hrange.2⟩

theorem zero_le_maxInt64 : (0 : Int) ≤ maxInt64 := by decide

theorem processFees_wellFormed (h : d.WellFormed) (ha : d.accounts id = some a) (hok : d.processFees id = .ok d') : d'.WellFormed := by
  have hd := processFees_distributed ha (h.linked id a ha) (h.pending id) hok
  have hstatistics : ∀ x, Pending (d'.statistics x) := by
    rw [hd.statistics]
    exact h.pending_update ⟨le_rfl, zero_le_maxInt64, le_rfl, zero_le_maxInt64⟩
  have haccumulated : ∀ f, Accumulated (d'.fbaAccumulators f) := by
    rw [hd.fbaAccumulators]
    exact h.accumulated
  rcases hd.accounts with hacc | hacc
  · exact h.of_accounts hacc hd.assets hstatistics haccumulated
  · exact (h.setAccount (linked_redirected rfl (h.linked id a ha))).of_accounts hacc hd.assets hstatistics haccumulated

theorem splitFbaBalance_wellFormed {f : FbaAccumulatorId} {n b i : Nat} (h : d.WellFormed) (hok : d.splitFbaBalance f n b i = .ok d') :
    d'.WellFormed := by
  obtain ⟨_, hd⟩ := splitFbaBalance_distributed (h.accumulated f) hok
  refine h.of_accounts (by rw [hd.rest]) (by rw [hd.rest]) ?_ ?_ <;> rw [hd.rest]
  · exact h.pending
  · exact h.accumulated_update ⟨le_rfl, zero_le_maxInt64⟩

theorem distributeFbaBalances_wellFormed (h : d.WellFormed) (hok : d.distributeFbaBalances = .ok d') : d'.WellFormed := by
  obtain ⟨d₁, h₁, hok⟩ := bind_eq_ok.mp hok
  obtain ⟨d₂, h₂, hok⟩ := bind_eq_ok.mp hok
  exact splitFbaBalance_wellFormed (splitFbaBalance_wellFormed (splitFbaBalance_wellFormed h h₁) h₂) hok

theorem getAccount_eq_ok (h : d.getAccount id = .ok a) : d.accounts id = some a := by
  unfold getAccount at h
  split at h
  · rename_i b hb
    obtain rfl := Except.ok.inj h
    exact hb
  · cases h

theorem createAccount_wellFormed {o : AccountCreateOperation} (h : d.WellFormed) (hok : d.createAccount id o = .ok d') : d'.WellFormed := by
  unfold createAccount at hok
  split at hok
  · obtain ⟨_, -, hok⟩ := bind_eq_ok.mp hok
    obtain ⟨registrar, hregistrar, hok⟩ := bind_eq_ok.mp hok
    obtain ⟨_, -, hok⟩ := bind_eq_ok.mp hok
    obtain ⟨referrer, hreferrer, hok⟩ := bind_eq_ok.mp hok
    obtain ⟨_, -, hok⟩ := bind_eq_ok.mp hok
    obtain rfl := Except.ok.inj hok
    replace hregistrar := getAccount_eq_ok hregistrar
    replace hreferrer := getAccount_eq_ok hreferrer
    refine (h.setAccount ⟨isSome_setAccount ?_, isSome_setAccount ?_, isSome_setAccount ?_⟩).setStatistics
      ⟨le_rfl, zero_le_maxInt64, le_rfl, zero_le_maxInt64⟩
    · exact Option.isSome_of_eq_some hregistrar
    · exact Option.isSome_of_eq_some hreferrer
    · exact (h.linked o.referrer referrer hreferrer).lifetimeReferrer
  · cases hok

theorem upgradeAccount_wellFormed (h : d.WellFormed) (hok : d.upgradeAccount id = .ok d') : d'.WellFormed := by
  obtain ⟨a, ha, hok⟩ := bind_eq_ok.mp hok
  obtain ⟨_, -, hok⟩ := bind_eq_ok.mp hok
  obtain ⟨d₁, h₁, hok⟩ := bind_eq_ok.mp hok
  obtain ⟨a₁, ha₁, hok⟩ := bind_eq_ok.mp hok
  obtain rfl := Except.ok.inj hok
  have hid : (d₁.accounts id).isSome := Option.isSome_of_eq_some (getAccount_eq_ok ha₁)
  exact (processFees_wellFormed h (getAccount_eq_ok ha) h₁).setAccount
    ⟨isSome_setAccount hid, isSome_setAccount hid, isSome_setAccount hid⟩

theorem step_wellFormed {s : Step} (h : d.WellFormed) (hstep : d.step s = some d') : d'.WellFormed := by
  unfold step at hstep
  split at hstep
  · rename_i hpossible
    replace hstep := toOption_eq_some.mp hstep
    cases s with
    | payFee id coreFee => exact payFee_wellFormed h hpossible hstep
    | payFbaFee fbaId coreFeePaid => exact payFbaFee_wellFormed h hpossible hstep
    | processFees id =>
      obtain ⟨a, ha⟩ := Option.isSome_iff_exists.mp hpossible
      exact processFees_wellFormed h ha hstep
    | distributeFbaBalances => exact distributeFbaBalances_wellFormed h hstep
    | createAccount id o => exact createAccount_wellFormed h hstep
    | upgradeAccount id => exact upgradeAccount_wellFormed h hstep
    | setParameters parameters =>
      obtain rfl := Except.ok.inj hstep
      exact h.of_accounts rfl rfl h.pending h.accumulated
    | setTime headBlockTime =>
      obtain rfl := Except.ok.inj hstep
      exact h.of_accounts rfl rfl h.pending h.accumulated
    | designate assets designated =>
      obtain rfl := Except.ok.inj hstep
      exact ⟨fun x b hb => (h.linked x b hb).mono fun _ hy => hy, h.pending, fun f => ⟨(h.accumulated f).nonneg, (h.accumulated f).le⟩,
        hpossible⟩
    | setAuthorities id owner active topNControlFlags =>
      obtain ⟨a, ha, hstep⟩ := bind_eq_ok.mp hstep
      obtain rfl := Except.ok.inj hstep
      obtain ⟨hregistrar, hreferrer, hlifetime⟩ := h.linked id a (getAccount_eq_ok ha)
      exact h.setAccount ⟨isSome_setAccount hregistrar, isSome_setAccount hreferrer, isSome_setAccount hlifetime⟩
  · cases hstep

/-- Whatever led to the database, what is pending and what has been accumulated is distributed exactly; and the distribution succeeds
    when the sums fit into 64 bits. -/
theorem fees_distributed {d₀ : Database} (h₀ : d₀.WellFormed) (hrun : Reaches step (fun _ _ => True) d₀ d) :
    (∀ id a, d.accounts id = some a →
      ∃ (s : FeeSplit (d.statistics id).pendingFees) (v : FeeSplit (d.statistics id).pendingVestedFees),
        (∀ d', d.processFees id = .ok d' → Distributed d d' id a s v) ∧ (d.Fits id → ∃ d', d.processFees id = .ok d')) ∧
    (∀ f networkPct buybackPct issuerPct, networkPct + buybackPct + issuerPct = graphene100Percent →
      (∀ d', d.splitFbaBalance f networkPct buybackPct issuerPct = .ok d' →
        ∃ s : FbaSplit (d.fbaAccumulators f).accumulatedFbaFees, FbaDistributed d d' f s) ∧
      (d.FbaFits f → ∃ d', d.splitFbaBalance f networkPct buybackPct issuerPct = .ok d')) ∧
    (∀ d', d.distributeFbaBalances = .ok d' → ∀ f, (d'.fbaAccumulators f).accumulatedFbaFees = 0) := by
  have h : d.WellFormed := hrun.invariant (fun _ _ _ hd _ hstep => step_wellFormed hd hstep) h₀
  refine ⟨fun id a ha => ?_, fun f networkPct buybackPct issuerPct hpct => ?_, fun d' hok f => ?_⟩
  · have hlinked := h.linked id a ha
    have hpending := h.pending id
    exact ⟨_, _, fun d' => processFees_distributed ha hlinked hpending, processFees_succeeds ha hlinked hpending⟩
  · exact ⟨fun d' => splitFbaBalance_distributed (h.accumulated f), fun hfits =>
      splitFbaBalance_succeeds (h.accumulated f) h.issuers hfits hpct⟩
  · obtain ⟨d₁, h₁, hok⟩ := bind_eq_ok.mp hok
    obtain ⟨d₂, h₂, hok⟩ := bind_eq_ok.mp hok
    have hd₁ := splitFbaBalance_wellFormed h h₁
    have hd₂ := splitFbaBalance_wellFormed hd₁ h₂
    obtain ⟨_, hsplit₁⟩ := splitFbaBalance_distributed (h.accumulated _) h₁
    obtain ⟨_, hsplit₂⟩ := splitFbaBalance_distributed (hd₁.accumulated _) h₂
    obtain ⟨_, hsplit₃⟩ := splitFbaBalance_distributed (hd₂.accumulated _) hok
    rw [hsplit₃.rest, hsplit₂.rest, hsplit₁.rest]
    cases f <;> rfl

/-! ### A fee of three units that cannot be split evenly -/

/-- Account 10 has registered account 11. -/
def sample : Database where
  headBlockTime := 1600000000
  parameters := ⟨2000, 2000, 3000, 31536000, 100, by decide, by decide⟩
  accounts id := if id = 10 then some ⟨AccountObject.maximumTime, 10, 10, 10, ⟨2000, 8000, 0, by decide, by decide⟩, .none, .none, 0⟩
    else if id = 11 then some ⟨0, 10, 10, 10, ⟨2000, 3000, 5000, by decide, by decide⟩, .none, .none, 0⟩ else none
  statistics _ := {}
  cashback _ := {}
  balances _ := 0
  assets _ := none
  fbaAccumulators _ := {}
  currentSupply := 1000000
  accumulatedFees := 0

theorem sample_wellFormed : sample.WellFormed where
  linked id a ha := by
    have hten : a.registrar = 10 ∧ a.referrer = 10 ∧ a.lifetimeReferrer = 10 := by
      unfold sample at ha
      dsimp only at ha
      split at ha
      · obtain rfl := Option.some.inj ha
        exact ⟨rfl, rfl, rfl⟩
      · split at ha
        · obtain rfl := Option.some.inj ha
          exact ⟨rfl, rfl, rfl⟩
        · cases ha
    obtain ⟨hregistrar, hreferrer, hlifetime⟩ := hten
    exact ⟨by rw [hregistrar]; rfl, by rw [hreferrer]; rfl, by rw [hlifetime]; rfl⟩
  pending _ := ⟨le_rfl, zero_le_maxInt64, le_rfl, zero_le_maxInt64⟩
  accumulated _ := ⟨le_rfl, zero_le_maxInt64⟩
  issuers _ _ hasset := nomatch hasset

/-- The account has paid a fee. -/
def indebted : Database := sample.setStatistics 11 ⟨0, 1003, 0⟩

theorem indebted_reached : Reaches step (fun _ _ => True) sample indebted := by
  refine .step .refl trivial (?_ : sample.step (.payFee 11 1003) = some indebted)
  have hpossible : sample.Possible (.payFee 11 1003) := show (0 : Int) ≤ 1003 by decide
  rw [step, if_pos hpossible]
  rfl

theorem fees_distributed_indebted : ∃ d', indebted.processFees 11 = .ok d' ∧ (d'.statistics 11) = ⟨1003, 0, 0⟩ := by
  obtain ⟨_, _, hdistributed, hsucceeds⟩ := (fees_distributed sample_wellFormed indebted_reached).1 11 _ rfl
  have hroom : indebted.Room ((indebted.statistics 11).pendingFees + (indebted.statistics 11).pendingVestedFees) :=
    ⟨by decide, (fun _ _ hb => nomatch hb), by decide, by decide⟩
  obtain ⟨d', hok⟩ := hsucceeds ⟨hroom, by decide, by decide, by decide, by decide⟩
  refine ⟨d', hok, ?_⟩
  rw [(hdistributed d' hok).statistics]
  rfl

end Database

end Khc.Fees
