import Khc.Market.Revived
import Khc.Market.Payouts

/-! What single accounts get: when call orders are closed, when a holder settles, and when bids are paid back. -/

namespace Khc.Market

open Lib
open Chain (Asset Price AccountId AssetId)

/-- How much of each asset each account gets -/
abbrev Credit := AccountId → AssetId → Int

/-- One account gets an amount. -/
def credit (account : AccountId) (x : Asset) : Credit := Pi.single account x.of

section
variable {account owner : AccountId} {x y : Asset} {a : AssetId}

@[simp] theorem credit_apply : credit account x owner a = if account = owner then x.of a else 0 := by
  by_cases h : account = owner
  · subst h
    simp [credit]
  · rw [credit, Pi.single_eq_of_ne (Ne.symm h), if_neg h]
    rfl

theorem credit_of : credit account x owner a = if (account, x.assetId) = (owner, a) then x.amount else 0 := by
  simp only [credit_apply, Asset.of, Prod.mk.injEq, ite_and]

end

namespace Database

/-- From the first state to the second, accounts get `G`. -/
def Credits (d d' : Database) (G : Credit) : Prop := ∀ owner a, d'.getBalance owner a = d.getBalance owner a + G owner a

section
variable {d d' d'' : Database} {G H : Credit} {account : AccountId} {delta : Asset}

theorem Credits.of_balances (h : d'.balances = d.balances) : Credits d d' 0 := fun owner a => by
  rw [getBalance, h, Pi.zero_apply, Pi.zero_apply, add_zero]
  rfl

theorem Credits.trans (h : Credits d d' G) (h' : Credits d' d'' H) : Credits d d'' (G + H) := fun owner a => by
  rw [h', h, Pi.add_apply, Pi.add_apply, add_assoc]

theorem Credits.congr (h : Credits d d' G) (hG : ∀ owner a, G owner a = H owner a) : Credits d d' H :=
  fun owner a => by rw [h, hG]

/-- The owner and the asset of a balance -/
def AccountBalance.key (b : AccountBalance) : AccountId × AssetId := (b.owner, b.assetType)

theorem isOf_eq {a : AssetId} : AccountBalance.isOf account a = fun b => decide (AccountBalance.key b = (account, a)) := by
  funext b
  simp [AccountBalance.isOf, AccountBalance.key]

theorem adjustBalance_credits (h : d.adjustBalance account delta = .ok d') : Credits d d' (credit account delta) := by
  intro owner a
  unfold adjustBalance at h
  split at h
  · rename_i hzero
    obtain rfl := Except.ok.inj h
    simp [Asset.of_eq_zero hzero]
  · split at h
    · rename_i hnone
      simp only [bind_eq_ok, fcAssert_eq_ok, pure_eq_ok] at h
      obtain ⟨-, -, rfl⟩ := h
      rw [getBalance, List.find?_append, credit_of]
      by_cases hown : (account, delta.assetId) = (owner, a)
      · obtain ⟨rfl, rfl⟩ := Prod.mk.inj hown
        simp [getBalance, hnone, AccountBalance.isOf]
      · have hnot : AccountBalance.isOf owner a ⟨account, delta.assetId, delta.amount⟩ = false := by
          simpa [isOf_eq, AccountBalance.key] using hown
        rw [List.find?_cons_of_neg (by simp [hnot]), List.find?_nil, Option.or_none, getBalance, if_neg hown, add_zero]
    · rename_i b hb
      simp only [bind_eq_ok, fcAssert_eq_ok, pure_eq_ok, safe_eq_ok] at h
      obtain ⟨-, -, balance, ⟨-, rfl⟩, rfl⟩ := h
      rw [getBalance, getBalance, credit_of]
      simp only [isOf_eq] at hb ⊢
      have hkey : ∀ x : AccountBalance, AccountBalance.key x = (account, delta.assetId) →
          AccountBalance.key { x with balance := b.balance + delta.amount } = (account, delta.assetId) := fun _ hx => hx
      by_cases hown : (account, delta.assetId) = (owner, a)
      · rw [← hown, find?_updateFirst_key hkey, hb, if_pos rfl]
        rfl
      · rw [find?_updateFirst_key_ne (Ne.symm hown) hkey, if_neg hown, add_zero]

/-! ### Fees -/

/-- Fees, fee pools and pending fees are the same. -/
structure SameFees (d d' : Database) : Prop where
  accumulated : ∀ a, d'.accumulatedFees a = d.accumulatedFees a
  pools : d'.feePools = d.feePools
  pending : d'.pendingFees = d.pendingFees

theorem SameFees.refl : SameFees d d := ⟨fun _ => rfl, rfl, rfl⟩

theorem SameFees.trans (h : SameFees d d') (h' : SameFees d' d'') : SameFees d d'' :=
  ⟨fun a => (h'.accumulated a).trans (h.accumulated a), h'.pools.trans h.pools, h'.pending.trans h.pending⟩

theorem SameFees.of_tables (h : d'.dynamicData = d.dynamicData) (h' : d'.statistics = d.statistics) : SameFees d d' :=
  ⟨fun _ => by rw [accumulatedFees, h, accumulatedFees], by rw [feePools, h, feePools], by rw [pendingFees, h', pendingFees]⟩

theorem adjustBalance_sameFees (h : d.adjustBalance account delta = .ok d') : SameFees d d' := by
  unfold adjustBalance at h
  split at h
  · obtain rfl := Except.ok.inj h
    exact .refl
  · split at h
    · simp only [bind_eq_ok, fcAssert_eq_ok, pure_eq_ok] at h
      obtain ⟨-, -, rfl⟩ := h
      exact .of_tables rfl rfl
    · simp only [bind_eq_ok, fcAssert_eq_ok, pure_eq_ok, safe_eq_ok] at h
      obtain ⟨-, -, _, -, rfl⟩ := h
      exact .of_tables rfl rfl

theorem adjustCoreInOrders_sameFees (h : d.adjustCoreInOrders account delta = .ok d') : SameFees d d' := by
  unfold adjustCoreInOrders at h
  split at h
  · obtain ⟨s, s', hs, hfs, rfl⟩ := modifyStatistics_eq_ok h
    simp only [bind_eq_ok, safe_eq_ok, pure_eq_ok] at hfs
    obtain ⟨n, -, rfl⟩ := hfs
    refine ⟨fun _ => rfl, rfl, ?_⟩
    have hsum := sum_map_set (fun s : AccountStatistics => s.pendingFees + s.pendingVestedFees) (y := { s with totalCoreInOrders := n }) hs
    rwa [sub_self, add_zero] at hsum
  · obtain rfl := Except.ok.inj h
    exact .refl

/-- A change of the dynamic data that leaves fees and pool alone -/
theorem modifyDynamicData_sameFees {asset : AssetId} {f : AssetDynamicData → Eval AssetDynamicData}
    (h : d.modifyDynamicData asset f = .ok d')
    (hf : ∀ x x', f x = .ok x' → x'.accumulatedFees = x.accumulatedFees ∧ x'.feePool = x.feePool) : SameFees d d' := by
  obtain ⟨x, x', hx, hfx, rfl⟩ := modifyDynamicData_eq_ok h
  obtain ⟨hfee, hpool⟩ := hf x x' hfx
  refine ⟨fun a => ?_, ?_, rfl⟩
  · have hfees := getD_map_set AssetDynamicData.accumulatedFees (y := x') hx a
    rwa [hfee, sub_self, ite_self, add_zero] at hfees
  · have hpools := sum_map_set AssetDynamicData.feePool (y := x') hx
    rwa [hpool, sub_self, add_zero] at hpools

theorem changeSupply_sameFees (h : d.changeSupply delta = .ok d') : SameFees d d' := by
  refine modifyDynamicData_sameFees h fun x x' hx => ?_
  simp only [bind_eq_ok, safe_eq_ok, pure_eq_ok] at hx
  obtain ⟨_, -, rfl⟩ := hx
  exact ⟨rfl, rfl⟩

theorem adjustCoreInOrders_balances (h : d.adjustCoreInOrders account delta = .ok d') : d'.balances = d.balances := by
  unfold adjustCoreInOrders at h
  split at h
  · obtain ⟨s, s', -, -, rfl⟩ := modifyStatistics_eq_ok h
    rfl
  · obtain rfl := Except.ok.inj h
    rfl

/-! ### Global settlement -/

/-- What a borrower gets back when its call order is closed at the price -/
def returned (p : Price) (c : CallOrder) : Asset := ⟨c.collateral - paidAt p c, c.collateralType⟩

theorem fillCallOrder_credits {c : CallOrder} {pays receives : Asset} {p : Price} {maker : Bool}
    (h : d.fillCallOrder c pays receives p maker = .ok (true, d')) :
    Credits d d' (credit c.borrower ⟨c.collateral - pays.amount, c.collateralType⟩) := by
  simp only [fillCallOrder, bind_eq_ok, fcAssert_eq_ok, safe_eq_ok, pure_eq_ok, Prod.mk.injEq, decide_eq_true_eq] at h
  obtain ⟨-, -, -, -, -, -, mia, -, debt, ⟨-, rfl⟩, collateral, ⟨-, rfl⟩, d₁, h₁, d₂, h₂, d₃, h₃, d₄, h₄, d₅, h₅, hfilled, rfl⟩ := h
  rw [if_pos hfilled] at h₁ h₃ h₄
  obtain rfl := Except.ok.inj h₁
  have hbefore : d₂.balances = d.balances := by
    rw [changeSupply_same h₂]
    rfl
  have hafter : (d₅.pushAppliedOperation (.fillOrder (.call c.id) c.borrower pays receives ⟨0, pays.assetId⟩ p maker)).balances =
      d₃.balances := (adjustCoreInOrders_balances h₅).trans (adjustCoreInOrders_balances h₄)
  refine (((Credits.of_balances hbefore).trans (adjustBalance_credits h₃)).trans (.of_balances hafter)).congr fun owner a => ?_
  rw [zero_add, add_zero]

theorem fillCallOrder_sameFees {c : CallOrder} {pays receives : Asset} {p : Price} {maker gone : Bool}
    (h : d.fillCallOrder c pays receives p maker = .ok (gone, d')) : SameFees d d' := by
  simp only [fillCallOrder, bind_eq_ok, fcAssert_eq_ok, safe_eq_ok, pure_eq_ok, Prod.mk.injEq] at h
  obtain ⟨-, -, -, -, -, -, mia, -, debt, -, collateral, -, d₁, h₁, d₂, h₂, d₃, h₃, d₄, h₄, d₅, h₅, -, rfl⟩ := h
  have hcall : SameFees d d₁ := by
    split at h₁
    · obtain rfl := Except.ok.inj h₁
      exact .of_tables rfl rfl
    · obtain ⟨_, -, h₁⟩ := bind_eq_ok.mp h₁
      obtain rfl := Except.ok.inj h₁
      exact .of_tables rfl rfl
  have hback : SameFees d₂ d₃ := by
    split at h₃
    · exact adjustBalance_sameFees h₃
    · obtain rfl := Except.ok.inj h₃
      exact .refl
  have hcore : SameFees d₃ d₄ := by
    split at h₄
    · exact adjustCoreInOrders_sameFees h₄
    · obtain rfl := Except.ok.inj h₄
      exact .refl
  have hall := ((hcall.trans (changeSupply_sameFees h₂)).trans (hback.trans hcore)).trans (adjustCoreInOrders_sameFees h₅)
  exact hall.trans (.of_tables rfl rfl)

theorem settleCalls_credits {backing : AssetId} {p : Price} {l : List CallOrder} {g g' : Int}
    (h : settleCalls backing p l g d = .ok (g', d')) : Credits d d' (l.map fun c => credit c.borrower (returned p c)).sum := by
  induction l generalizing d g with
  | nil =>
    cases h
    exact .of_balances rfl
  | cons c cs ih =>
    simp only [settleCalls, bind_eq_ok, fcAssert_eq_ok, safe_eq_ok] at h
    obtain ⟨pays, hpays, -, -, gathered, -, ⟨filled, d₁⟩, h₁, -, (hfilled : filled = true), h⟩ := h
    subst hfilled
    obtain ⟨-, hamount, -⟩ := settlementPays_eq_ok hpays
    rw [List.map_cons, List.sum_cons, returned, ← hamount]
    exact (fillCallOrder_credits h₁).trans (ih h)

theorem settleCalls_sameFees {backing : AssetId} {p : Price} {l : List CallOrder} {g g' : Int}
    (h : settleCalls backing p l g d = .ok (g', d')) : SameFees d d' := by
  induction l generalizing d g with
  | nil =>
    cases h
    exact .refl
  | cons c cs ih =>
    simp only [settleCalls, bind_eq_ok] at h
    obtain ⟨pays, -, -, -, gathered, -, ⟨filled, d₁⟩, h₁, -, -, h⟩ := h
    exact (fillCallOrder_sameFees h₁).trans (ih h)

theorem globallySettleAsset_sameFees {mia : AssetId} {p : Price} (h : d.globallySettleAsset mia p = .ok d') : SameFees d d' := by
  simp only [globallySettleAsset, bind_eq_ok] at h
  obtain ⟨b, -, -, -, dyn, -, ⟨g, d₁⟩, h₁, price, -, h⟩ := h
  have hprice : SameFees d₁ (d₁.modifyBitasset mia fun b => { b with settlementPrice := price, settlementFund := g }) :=
    .of_tables rfl rfl
  refine ((settleCalls_sameFees h₁).trans hprice).trans (modifyDynamicData_sameFees h fun x x' hx => ?_)
  cases hx
  exact ⟨rfl, rfl⟩

/-- A global settlement gives each borrower the rest of its collateral. -/
theorem globallySettleAsset_credits {mia : AssetId} {p : Price} (h : d.globallySettleAsset mia p = .ok d') (hd : d.Sound) :
    Credits d d' ((d.callsOn mia).map fun c => credit c.borrower (returned p c)).sum := by
  obtain ⟨b, hsettles⟩ := globallySettleAsset_settles h hd
  simp only [globallySettleAsset, bind_eq_ok, fcAssert_eq_ok, getBitasset_eq_ok] at h
  obtain ⟨b', hb', -, -, dyn, -, ⟨g, d₁⟩, h₁, price, -, h⟩ := h
  obtain rfl : b = b' := Option.some.inj (hsettles.bitasset.symm.trans hb')
  have hperm := callsOf_perm hd hb' hsettles.backing.symm
  have hlater : d'.balances = d₁.balances := by
    obtain ⟨x, x', -, -, rfl⟩ := modifyDynamicData_eq_ok h
    rfl
  rw [callsOn, ← (hperm.map _).sum_eq]
  exact ((settleCalls_credits h₁).trans (.of_balances hlater)).congr fun owner a => by rw [add_zero]

end

end Database

end Khc.Market
