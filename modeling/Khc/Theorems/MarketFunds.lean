import Khc.Market.Reachable

/-! What is held of an asset while limit orders are created, matched, cancelled and expired. -/

namespace Khc.Market

open Lib
open Chain (Asset AssetId)

namespace Database

/-- Limit orders are created, cancelled by their owners and expired. -/
def Event.IsOfLimitOrders : Event → Prop
  | .operation (.limitOrderCreate _) => True
  | .operation (.limitOrderCancel _) => True
  | .clearExpiredOrders _ => True
  | _ => False

/-- There are no call orders and no settlement requests. -/
def Quiet (d : Database) : Prop := d.callOrders = [] ∧ d.settlements = []

section
variable {fuel : Nat} {d d' : Database} {e : Event} {t : Option Nat} {a : AssetId}

theorem eq_nil_of_sublistForall₂ {α : Type} {R : α → α → Prop} {l : List α} (h : List.SublistForall₂ R l []) : l = [] := by
  cases h
  rfl

/-- Without call orders and requests, trades change only who has what. -/
theorem Trades.quiet (h : Trades t d d') (hd : d.Quiet) : d'.Quiet ∧ ∀ a, d'.total a = d.total a := by
  obtain ⟨F, hF, hfair⟩ := h
  have hd' : d'.Quiet := ⟨eq_nil_of_sublistForall₂ (hd.1 ▸ hF.calls), eq_nil_of_sublistForall₂ (hd.2 ▸ hF.settlements)⟩
  refine ⟨hd', fun a => ?_⟩
  have hsame : ∀ q, d'.amount q a = d.amount q a → F q a = 0 := by
    intro q hq
    have := hF.amounts q a
    omega
  have hcollateral : F .collateral a = 0 := hsame _ (by simp [amount, collateral, hd.1, hd'.1])
  have hdebt : F .debt a = 0 := hsame _ (by simp [amount, debt, hd.1, hd'.1])
  have hrequested : F .requested a = 0 := hsame _ (by simp [amount, requested, hd.2, hd'.2])
  have hbidden : F .bidden a = 0 := hsame _ (by simp [amount, bidden, hF.bids])
  have hfunds : F .funds a = 0 := hsame _ (by simp [amount, funds, hF.bitassets])
  have hworth := hfair.worth a
  have hcovered := hfair.uncovered a
  rw [Shift.uncovered, hdebt] at hcovered
  rw [Shift.worth, hcollateral, hrequested, hbidden, hfunds] at hworth
  have htotal : d'.total a = d.total a + F .total a := hF.amounts .total a
  omega

/-- What is paid before and after leaves orders and requests alone. -/
theorem Moves.quiet {F : Shift} (h : Moves d d' F) (hd : d.Quiet) : d'.Quiet ∧ ∀ a, d'.total a = d.total a + F .total a :=
  ⟨⟨h.callOrders.trans hd.1, h.settlements.trans hd.2⟩, h.amounts .total⟩

/-- What happens to limit orders changes nothing that is held of an asset. -/
theorem handle_quiet (h : d.handle fuel e = .ok d') (he : e.IsOfLimitOrders) (hd : d.Consistent) (hquiet : d.Quiet) :
    d'.Quiet ∧ ∀ a, d'.total a = d.total a := by
  unfold Event.IsOfLimitOrders at he
  split at he
  · rename_i o
    obtain ⟨paid, t, d₁, d₂, d₃, gone, δ, ε, m, hcreates, hd₂, ht, happly, m', -, hsum⟩ := applyOperation_creates h hd
    obtain ⟨hquiet₁, htotal₁⟩ := m.quiet hquiet
    have hquiet₂ : d₂.Quiet := by
      rw [hcreates.same]
      exact hquiet₁
    obtain ⟨hquiet₃, htotal₃⟩ := (applyOrder_trades happly hd₂.toSound ht).quiet hquiet₂
    obtain ⟨hquiet', htotal'⟩ := m'.quiet hquiet₃
    refine ⟨hquiet', fun a => ?_⟩
    have htotal₂ := hcreates.changes .total a
    have hzero := congrFun hsum a
    have h₁ := htotal₁ a
    have h' := htotal' a
    simp only [amount, Pi.add_apply, Pi.zero_apply, put_self] at htotal₂ hzero h₁ h'
    rw [h', htotal₃, htotal₂, h₁]
    omega
  · rename_i o
    obtain ⟨paid, d₁, d₂, -, hpaid, -, -, h₁, h₂, h⟩ := applyOperation_eq_ok h
    obtain ⟨hfee, hcore⟩ := prepareFee_eq_ok hpaid
    obtain ⟨hquiet₁, htotal₁⟩ := (takeFee_moves h₁ (hfee ▸ hcore)).quiet hquiet
    simp only [doApply, applyLimitOrderCancel, bind_eq_ok, getLimitOrder_eq_ok] at h₂
    obtain ⟨order, horder, hcancel⟩ := h₂
    rw [← id_of_findLimitOrder horder] at horder
    obtain ⟨hquiet₂, htotal₂⟩ := ((cancelLimitOrder_deals (t := none) hcancel horder).1.trades .zero).quiet hquiet₁
    obtain ⟨hquiet', htotal'⟩ := (adjustBalance_moves h).quiet hquiet₂
    refine ⟨hquiet', fun a => ?_⟩
    rw [htotal', htotal₂, htotal₁]
    simp
  · rename_i time
    simp only [handle, clearExpiredOrders, bind_eq_ok] at h
    obtain ⟨d₁, h₁, h⟩ := h
    have htime : { d with headBlockTime := time }.Sound := (time_preserves hd).consistent.toSound
    obtain ⟨hquiet₁, htotal₁⟩ := (cancelExpiredOrders_trades (t := none) h₁ htime).quiet hquiet
    have hnone : d₁.settlementsByExpiration = [] := by
      rw [settlementsByExpiration, hquiet₁.2]
      rfl
    rw [processSettlements, hnone] at h
    obtain rfl := Except.ok.inj h
    exact ⟨hquiet₁, htotal₁⟩
  · exact he.elim

end

/-! ### Runs -/

/-- A margin call that a new order sets off moves collateral into balances: account 0 borrows, the feed calls its call order,
    and then it sells 10 of what it has borrowed for 11 of the core asset. -/
theorem marginCall_total : ¬∀ d d' : Database, d.Reachable → Reaches step (fun _ i => i.2.IsOfLimitOrders) d d' →
    ∀ a, d'.total a = d.total a := by
  intro h
  have hrun : ([publish ⟨⟨1, 1⟩, ⟨1, 0⟩⟩ 1750, borrow 0 2000 1000, publish ⟨⟨6, 1⟩, ⟨10, 0⟩⟩ 1750].foldlM step fresh).any
      (fun d => ([sell 0 ⟨10, 1⟩ ⟨11, 0⟩].foldlM step d).any fun d' => d'.total 1 ≠ d.total 1) := by
    decide +kernel
  rw [Option.any_eq_true] at hrun
  obtain ⟨d, hd, hrun⟩ := hrun
  rw [Option.any_eq_true] at hrun
  obtain ⟨d', hd', hne⟩ := hrun
  rw [decide_eq_true_eq] at hne
  refine hne (h d d' (.of_foldlM fresh_genesis hd) (.of_foldlM hd' fun t i hi => ?_) 1)
  rw [List.mem_singleton.mp hi]
  trivial

/-- What is held of an asset, with the collateral of call orders, what settlement requests, bids and settlement funds hold
    and less the supply, stays the same. Where there are no call orders and no requests, what balances, limit orders, fees and
    pools hold stays the same. -/
theorem total_conserved {d d' : Database} (h : d.Reachable) (hrun : Reaches step (fun _ i => i.2.IsOfLimitOrders) d d') (a : AssetId) :
    d'.total a + d'.collateral a + d'.requested a + d'.bidden a + d'.funds a - d'.currentSupply a =
        d.total a + d.collateral a + d.requested a + d.bidden a + d.funds a - d.currentSupply a ∧
      (d.callOrders = [] → d.settlements = [] → d'.total a = d.total a) := by
  have hinvariant : d'.Lawful ∧ (∀ a, d'.worth a = d.worth a) ∧ (d.Quiet → d'.Quiet ∧ ∀ a, d'.total a = d.total a) := by
    refine hrun.invariant (I := fun x => x.Lawful ∧ (∀ a, x.worth a = d.worth a) ∧ (d.Quiet → x.Quiet ∧ ∀ a, x.total a = d.total a))
      ?_ ⟨h.lawful, fun _ => rfl, fun hquiet => ⟨hquiet, fun _ => rfl⟩⟩
    rintro t i u ⟨ht, hworth, hquiet⟩ hi hstep
    have hhandle := step_eq_some.mp hstep
    obtain ⟨-, hkeeps, -⟩ := handle_keeps hhandle ht.toConsistent ht.worth
    refine ⟨ht.step hstep, fun a => (hkeeps.worth a).trans (hworth a), fun hd => ?_⟩
    obtain ⟨hquiet', htotal⟩ := hquiet hd
    obtain ⟨hquiet'', htotal'⟩ := handle_quiet hhandle hi ht.toConsistent hquiet'
    exact ⟨hquiet'', fun a => (htotal' a).trans (htotal a)⟩
  exact ⟨hinvariant.2.1 a, fun hcalls hrequests => (hinvariant.2.2 ⟨hcalls, hrequests⟩).2 a⟩

/-- Account 0 sells 500 of the core asset, account 1 buys most of that, and the rest expires. -/
theorem total_conserved_sold : ∃ d, [sell 0 ⟨500, 0⟩ ⟨1000, 2⟩, sell 1 ⟨800, 2⟩ ⟨300, 0⟩, ⟨20, .clearExpiredOrders 2000⟩].foldlM
    step fresh = some d ∧ d.getBalance 1 0 = 100400 ∧ d.total 2 = fresh.total 2 := by
  refine ⟨_, (Option.some_get (by decide +kernel)).symm, by decide +kernel, ?_⟩
  refine (total_conserved fresh_genesis.reachable (.of_foldlM (Option.some_get (by decide +kernel)).symm ?_) 2).2 rfl rfl
  intro t i hi
  rcases List.mem_cons.mp hi with rfl | hi
  · trivial
  · rcases List.mem_cons.mp hi with rfl | hi
    · trivial
    · rw [List.mem_singleton.mp hi]
      trivial

end Database

end Khc.Market
