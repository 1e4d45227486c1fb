import Khc.Market.Orderly

/-! Price priority: a new limit order is matched at prices that it accepts, from the best to the worst, and each time with
    the best counterparty that is left. -/

namespace Khc.Market.Database

open Lib
open Chain (Price)

/-- What becomes of a new order in a book -/
structure Prioritises (d d' : Database) (t : LimitOrder) (m : Option CallMarket) (l : List (Database × Price)) : Prop where
  rounds : ∃ d₁, Rounds t.id m d l d₁ ∧
    (d' = d₁ ∨ ∃ rest, d₁.findLimitOrder t.id = some rest ∧ d₁.cancelLimitOrder rest true = .ok d')
  accepted : ∀ x ∈ l, 1 ≤ x.2.rate * t.sellPrice.rate
  sorted : l.Pairwise fun x y => y.2.rate ≤ x.2.rate
  bestLimit : ∀ x ∈ l, ∀ o ∈ x.1.limitOrders, o.Opposes t → o.sellPrice.rate ≤ x.2.rate
  bestCall : ∀ x ∈ l, ∀ c ∈ m, (∃ ask ∈ x.1.callOrders, Called t.sellAssetId c ask) → c.callMatchPrice.rate ≤ x.2.rate
  behind : d.behindAnother t → l = [] ∧ d' = d
  market : ¬d.behindAnother t → d.callMarket t = .ok m
  uncrossed : ∀ rest, d'.findLimitOrder t.id = some rest → ∀ o ∈ d'.limitOrders, ¬o.Crosses t
  uncalled : ∀ rest, d'.findLimitOrder t.id = some rest → ¬d.behindAnother t →
    ∀ c ∈ m, ∀ ask ∈ d'.callOrders, ¬Called t.sellAssetId c ask

theorem applyOrder_prioritises {d d' : Database} {fuel : Nat} {t : LimitOrder} {gone : Bool} (h : d.applyOrder fuel t = .ok (gone, d'))
    (hd : d.Sound) (ht : t ∈ d.limitOrders) (hworth : t.Worthwhile)
    (hpriced : ∀ x ∈ d.limitOrders, x ≠ t → x.sellPrice.rate ≤ Chain.maxShareSupply)
    (huncrossed : ∀ x ∈ d.limitOrders, x ≠ t → ∀ y ∈ d.limitOrders, y ≠ t → ¬x.Crosses y) : ∃ m l, Prioritises d d' t m l := by
  have hclear : ∀ rest, d'.findLimitOrder t.id = some rest → ∀ o ∈ d'.limitOrders, ¬o.Crosses t :=
    fun rest hrest => (applyOrder_clear h hd ht hworth hpriced huncrossed hrest).2
  rcases applyOrder_cases h hd ht with ⟨hbehind, -, rfl⟩ | ⟨hfirst, m, l, d₁, hmatches, hrest⟩
  · exact ⟨none, [], ⟨d', .nil, .inl rfl⟩, by simp, .nil, by simp, by simp, fun _ => ⟨rfl, rfl⟩, fun hfirst => absurd hbehind hfirst,
      hclear, fun _ _ hfirst => absurd hbehind hfirst⟩
  · refine ⟨m, l, ⟨d₁, hmatches.rounds, ?_⟩, hmatches.descends.accepted, hmatches.descends.sorted, fun x hx o ho hopposes => ?_,
      fun x hx => (hmatches.best x hx).calls, fun hbehind => absurd hbehind hfirst, fun _ => hmatches.market, hclear,
      fun rest hfind _ => ?_⟩
    · rcases hrest with ⟨-, -, rfl⟩ | ⟨o, ho, hcull⟩
      · exact .inl rfl
      · rcases maybeCullSmallOrder_cases hcull with ⟨-, hcancel, -⟩ | ⟨-, rfl, -⟩
        · exact .inr ⟨o, ho, hcancel⟩
        · exact .inl rfl
    · obtain ⟨F, hF, -⟩ := hmatches.rounds.trades_of_mem hd (hmatches.assets hd) hx
      obtain ⟨y, hy, hrestOf⟩ := exists_of_sublistForall₂ hF.limits ho
      have hyt : y ≠ t := by
        rintro rfl
        rw [LimitOrder.Opposes, LimitOrder.sellAssetId, hrestOf.price_eq] at hopposes
        exact y.valid.assets hopposes.1
      exact (hmatches.best x hx).limits o ho hopposes (hrestOf.price_eq ▸ hpriced y hy hyt)
    · rcases applyOrder_stays h hd ht hfind with ⟨hbehind, -⟩ | ⟨m', l', hmatches', hworth'⟩
      · exact absurd hbehind hfirst
      · obtain rfl : m' = m := Except.ok.inj (hmatches'.market.symm.trans hmatches.market)
        exact hmatches'.rest.elim (fun hspent => absurd hworth' (hspent rest hfind)) fun hrest' => hrest'.2

/-- An order that is behind another one of its side is not matched. Account 0 borrows, and the feed raises the ratio without a
    call, as the call price is the old one. An order for 11 of the core asset stays. A settlement renews the call price, and
    another order for 11 does not meet the call order. -/
theorem behind_uncalled : ¬∀ (d d' : Database) (fuel : Nat) (o : LimitOrderCreate), d.Reachable →
    d.applyOperation fuel (.limitOrderCreate o) = .ok d' → ∀ t ∈ d'.limitOrders, t.id = d.nextLimitOrder →
    (∀ x ∈ d'.limitOrders, ¬x.Crosses t) ∧
      ∀ m, d'.callMarket t = .ok (some m) → ∀ ask ∈ d'.callOrders, ¬Called t.sellAssetId m ask := by
  intro h
  have hrun : ([publish ⟨⟨1, 1⟩, ⟨1, 0⟩⟩ 1750, borrow 0 2000 1000, publish ⟨⟨1, 1⟩, ⟨1, 0⟩⟩ 3000, sell 0 ⟨10, 1⟩ ⟨11, 0⟩,
      ⟨20, .operation (.assetSettle ⟨⟨0, 0⟩, 0, ⟨10, 1⟩⟩)⟩, ⟨20, .clearExpiredOrders 20⟩].foldlM step fresh).any fun d =>
      (step d (sell 0 ⟨10, 1⟩ ⟨11, 0⟩)).any fun d' => decide (∃ t ∈ d'.limitOrders, t.id = d.nextLimitOrder ∧
        (d'.callMarket t).toOption.join.any fun m => decide (∃ ask ∈ d'.callOrders, ask.debtType = t.sellAssetId ∧
          ¬ask.callPrice.gt m.feedPrice.inv)) := by
    decide +kernel
  obtain ⟨d, hd, hrun⟩ := (Option.any_eq_true _ _).mp hrun
  obtain ⟨d', hd', hstate⟩ := (Option.any_eq_true _ _).mp hrun
  obtain ⟨t, ht, hid, hcalled⟩ := of_decide_eq_true hstate
  obtain ⟨m, hm, hcalled⟩ := (Option.any_eq_true _ _).mp hcalled
  obtain ⟨ask, hask, hask'⟩ := of_decide_eq_true hcalled
  rw [Option.join_eq_some_iff, toOption_eq_some] at hm
  exact (h d d' _ _ (.of_foldlM fresh_genesis hd) (step_eq_some.mp hd') t ht hid).2 m hm ask hask hask'

/-- The rounds of a new order are at prices that it accepts, from the best to the worst, and each is with the best counterparty
    that is left. When the order stays, no order crosses it, and when it was first on its side, no call order is called. -/
theorem limitOrderCreate_prioritised {g d d' : Database} {fuel : Nat} {o : LimitOrderCreate} (hg : g.Genesis)
    (hrun : Reaches step (fun _ i => i.2.SellsBelowMax) g d)
    (h : d.applyOperation fuel (.limitOrderCreate o) = .ok d') :
    ∃ t d₁ d₂ gone m l, t.sellPrice = o.price ∧ d₁.limitOrders = d.limitOrders ++ [t] ∧ d₁.callOrders = d.callOrders ∧
      d₁.bitassets = d.bitassets ∧ d₁.applyOrder fuel t = .ok (gone, d₂) ∧ Prioritises d₁ d₂ t m l ∧
      d'.limitOrders = d₂.limitOrders ∧ d'.callOrders = d₂.callOrders := by
  obtain ⟨hd, hbook⟩ := orderly_of_reaches hrun hg
  obtain ⟨t, d₁, d₂, gone, henters, ht, happly, hlimits, hcalls, -⟩ := applyOperation_enters h hd.toConsistent
  obtain ⟨m, l, hprioritises⟩ := applyOrder_prioritises happly henters.sound ht henters.worthwhile
    (fun x hx hne => hbook.priced x (henters.others x hx hne))
    (fun x hx hne y hy hne' => hbook.uncrossed x (henters.others x hx hne) y (henters.others y hy hne'))
  exact ⟨t, d₁, d₂, gone, m, l, henters.price, henters.limits, henters.calls, henters.bitassets, happly, hprioritises, hlimits,
    hcalls⟩

/-- Account 0 borrows, the feed calls its call order, and it sells 10 of what it has borrowed for 11 of the core asset. -/
theorem limitOrderCreate_prioritised_called : ∃ d d' fuel o,
    [publish ⟨⟨1, 1⟩, ⟨1, 0⟩⟩ 1750, borrow 0 2000 1000, publish ⟨⟨6, 1⟩, ⟨10, 0⟩⟩ 1750].foldlM step fresh = some d ∧
      d.applyOperation fuel (.limitOrderCreate o) = .ok d' ∧ d'.callOrders.map CallOrder.debt = [990] ∧
      ∃ t d₁ d₂ gone m l, t.sellPrice = o.price ∧ d₁.limitOrders = d.limitOrders ++ [t] ∧ d₁.callOrders = d.callOrders ∧
        d₁.bitassets = d.bitassets ∧ d₁.applyOrder fuel t = .ok (gone, d₂) ∧ Prioritises d₁ d₂ t m l ∧
        d'.limitOrders = d₂.limitOrders ∧ d'.callOrders = d₂.callOrders := by
  have hrun : ([publish ⟨⟨1, 1⟩, ⟨1, 0⟩⟩ 1750, borrow 0 2000 1000, publish ⟨⟨6, 1⟩, ⟨10, 0⟩⟩ 1750].foldlM step fresh).any fun d =>
      (step d (sell 0 ⟨10, 1⟩ ⟨11, 0⟩)).any fun d' => decide (d'.callOrders.map CallOrder.debt = [990]) := by
    decide +kernel
  obtain ⟨d, hd, hrun⟩ := (Option.any_eq_true _ _).mp hrun
  obtain ⟨d', hd', hdebt⟩ := (Option.any_eq_true _ _).mp hrun
  refine ⟨d, d', _, _, hd, step_eq_some.mp hd', of_decide_eq_true hdebt,
    limitOrderCreate_prioritised fresh_genesis (.of_foldlM hd fun t i hi => ?_) (step_eq_some.mp hd')⟩
  rcases List.mem_cons.mp hi with rfl | hi
  · trivial
  · rcases List.mem_cons.mp hi with rfl | hi
    · trivial
    · rw [List.mem_singleton.mp hi]
      trivial

end Khc.Market.Database
