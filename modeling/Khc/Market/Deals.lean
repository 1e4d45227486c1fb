import Khc.Market.Funds

/-! The dealings of the market: orders are filled, reduced and taken out, and what they held goes to their owners. What
    is left of an order comes from an order of before, and what a state holds changes by a known amount. -/

namespace Khc.Market

open Lib
open Chain (Asset Price AccountId AssetId)

/-! ### What is left of an order -/

/-- What is left of an order: it has something to sell and, unless it is the one that is taking, something to receive. -/
def LimitOrder.RestOf (t : Option Nat) (o' o : LimitOrder) : Prop :=
  o' = o ∨ (o'.id = o.id ∧ o'.sellPrice = o.sellPrice ∧ 0 < o'.forSale ∧ (some o.id ≠ t → o'.Worthwhile))

def CallOrder.RestOf (c' c : CallOrder) : Prop :=
  c' = c ∨ (c'.id = c.id ∧ c'.debtType = c.debtType ∧ c'.collateralType = c.collateralType ∧ 0 < c'.debt ∧
    0 < c'.collateral ∧ c'.callPrice.InRange)

def ForceSettlement.RestOf (s' s : ForceSettlement) : Prop :=
  s' = s ∨ (s'.id = s.id ∧ s'.balance.assetId = s.balance.assetId ∧ 0 ≤ s'.balance.amount)

section
variable {t : Option Nat}

namespace LimitOrder.RestOf
variable {o o' : LimitOrder}

instance : Std.Refl (LimitOrder.RestOf t) := ⟨fun _ => .inl rfl⟩

instance : IsTrans LimitOrder (LimitOrder.RestOf t) where
  trans := by
    rintro o₂ o₁ o (rfl | ⟨hid, hprice, hsale, hworth⟩) h
    · exact h
    · rcases h with rfl | ⟨hid', hprice', -, -⟩
      · exact .inr ⟨hid, hprice, hsale, hworth⟩
      · exact .inr ⟨hid.trans hid', hprice.trans hprice', hsale, fun h => hworth (hid' ▸ h)⟩

theorem id_eq (h : LimitOrder.RestOf t o' o) : o'.id = o.id := by
  rcases h with rfl | h
  · rfl
  · exact h.1

theorem price_eq (h : LimitOrder.RestOf t o' o) : o'.sellPrice = o.sellPrice := by
  rcases h with rfl | h
  · rfl
  · exact h.2.1

end LimitOrder.RestOf

namespace CallOrder.RestOf
variable {c c' : CallOrder}

instance : Std.Refl CallOrder.RestOf := ⟨fun _ => .inl rfl⟩

instance : IsTrans CallOrder CallOrder.RestOf where
  trans := by
    rintro c₂ c₁ c (rfl | ⟨hid, hdebt, hcoll, h⟩) h'
    · exact h'
    · rcases h' with rfl | ⟨hid', hdebt', hcoll', -⟩
      · exact .inr ⟨hid, hdebt, hcoll, h⟩
      · exact .inr ⟨hid.trans hid', hdebt.trans hdebt', hcoll.trans hcoll', h⟩

theorem id_eq (h : CallOrder.RestOf c' c) : c'.id = c.id := by
  rcases h with rfl | h
  · rfl
  · exact h.1

theorem debtType_eq (h : CallOrder.RestOf c' c) : c'.debtType = c.debtType := by
  rcases h with rfl | h
  · rfl
  · exact h.2.1

end CallOrder.RestOf

namespace ForceSettlement.RestOf
variable {s s' : ForceSettlement}

instance : Std.Refl ForceSettlement.RestOf := ⟨fun _ => .inl rfl⟩

instance : IsTrans ForceSettlement ForceSettlement.RestOf where
  trans := by
    rintro s₂ s₁ s (rfl | ⟨hid, hasset, h⟩) h'
    · exact h'
    · rcases h' with rfl | ⟨hid', hasset', -⟩
      · exact .inr ⟨hid, hasset, h⟩
      · exact .inr ⟨hid.trans hid', hasset.trans hasset', h⟩

theorem id_eq (h : ForceSettlement.RestOf s' s) : s'.id = s.id := by
  rcases h with rfl | h
  · rfl
  · exact h.1

end ForceSettlement.RestOf

end

namespace Database

/-! ### Dealings -/

/-- From the first state to the second, orders lose what they hold or are taken out, and the quantities grow by `F`.
    Bids, settlements and what operations are checked against stay. -/
structure Deals (t : Option Nat) (d d' : Database) (F : Shift) : Prop where
  same : d' = { d with
    statistics := d'.statistics, balances := d'.balances, dynamicData := d'.dynamicData, limitOrders := d'.limitOrders,
    callOrders := d'.callOrders, settlements := d'.settlements, applied := d'.applied }
  amounts : Changes d d' F
  solvent : d.Solvent → d'.Solvent
  limits : List.SublistForall₂ (LimitOrder.RestOf t) d'.limitOrders d.limitOrders
  calls : List.SublistForall₂ CallOrder.RestOf d'.callOrders d.callOrders
  settlements : List.SublistForall₂ ForceSettlement.RestOf d'.settlements d.settlements

namespace Deals
variable {t : Option Nat} {d d' d'' : Database} {F G : Shift}

theorem refl : Deals t d d 0 where
  same := rfl
  amounts _ _ := (add_zero _).symm
  solvent := id
  limits := Std.Refl.refl _
  calls := Std.Refl.refl _
  settlements := Std.Refl.refl _

theorem trans (h : Deals t d d' F) (h' : Deals t d' d'' G) : Deals t d d'' (F + G) where
  same := by rw [h'.same, h.same]
  amounts q a := by rw [h'.amounts, h.amounts, Pi.add_apply, Pi.add_apply, add_assoc]
  solvent hd := h'.solvent (h.solvent hd)
  limits := IsTrans.trans _ _ _ h'.limits h.limits
  calls := IsTrans.trans _ _ _ h'.calls h.calls
  settlements := IsTrans.trans _ _ _ h'.settlements h.settlements

theorem congr (h : Deals t d d' F) (hF : F = G) : Deals t d d' G := hF ▸ h

/-- When the only order that goes is taken out, it does not matter which order was taking. -/
theorem erased {p : LimitOrder → Bool} {t' : Option Nat} (h : Deals t d d' F)
    (hl : d'.limitOrders = d.limitOrders.eraseP p) : Deals t' d d' F :=
  { h with limits := hl ▸ sublistForall₂_eraseP }

theorem bitassets (h : Deals t d d' F) : d'.bitassets = d.bitassets := by rw [h.same]
theorem bids (h : Deals t d d' F) : d'.bids = d.bids := by rw [h.same]

theorem bitasset (h : Deals t d d' F) (a : AssetId) : d'.bitasset a = d.bitasset a := by
  rw [Database.bitasset, Database.bitasset, h.bitassets]

/-- Dealings leave a sound state behind. -/
theorem sound (h : Deals t d d' F) (hd : d.Sound) : d'.Sound where
  solvent := h.solvent hd.solvent
  limits := by
    rw [h.same]
    exact hd.limits.thin (fun _ _ => LimitOrder.RestOf.id_eq) h.limits
  forSale o ho := by
    obtain ⟨o', ho', rfl | ⟨-, -, hsale, -⟩⟩ := exists_of_sublistForall₂ h.limits ho
    · exact hd.forSale o ho'
    · exact hsale
  calls := by
    rw [h.same]
    exact hd.calls.thin (fun _ _ => CallOrder.RestOf.id_eq) h.calls
  secured c hc := by
    obtain ⟨c', hc', hrest⟩ := exists_of_sublistForall₂ h.calls hc
    have hs := hd.secured c' hc'
    rcases hrest with rfl | ⟨-, hdebt, hcoll, hpos, hpos', hpriced⟩
    · exact ⟨hs.debt, hs.collateral, hs.priced, by simpa only [h.bitasset] using hs.backing⟩
    · exact ⟨hpos, hpos', hpriced, by simpa only [h.bitasset, hdebt, hcoll] using hs.backing⟩
  requests := by
    rw [h.same]
    exact hd.requests.thin (fun _ _ => ForceSettlement.RestOf.id_eq) h.settlements
  requests_nonneg s hs := by
    obtain ⟨s', hs', rfl | ⟨-, -, hpos⟩⟩ := exists_of_sublistForall₂ h.settlements hs
    · exact hd.requests_nonneg s hs'
    · exact hpos
  bids := by
    rw [h.same]
    exact hd.bids
  bidden b hb := by
    have hbid := hd.bidden b (h.bids ▸ hb)
    exact ⟨hbid.collateral, hbid.debt, by simpa only [h.bitasset] using hbid.backing⟩
  feeds a b hb := hd.feeds a b (by rwa [h.bitasset] at hb)
  core := by rw [h.bitasset, hd.core]

end Deals

/-! ### Single tables -/

section
variable {t : Option Nat} {d d' : Database} {q : Quantity} {δ : AssetId → Int} {o : LimitOrder} {c : CallOrder}
  {s : ForceSettlement}

theorem Moves.deals {F : Shift} (h : Moves d d' F) : Deals t d d' F where
  same := by rw [h.same]
  amounts := h.amounts
  solvent := h.solvent
  limits := h.limitOrders ▸ Std.Refl.refl _
  calls := h.callOrders ▸ Std.Refl.refl _
  settlements := h.settlements ▸ Std.Refl.refl _

theorem removeLimitOrder_deals (h : d.findLimitOrder o.id = some o) :
    Deals t d (d.removeLimitOrder o.id) (put (.uncounted o.seller) o.amountForSale.core.of - put .total o.holds) where
  same := rfl
  amounts q a := by
    have hholds := sum_map_eraseP (LimitOrder.holds · a) h
    cases q with
    | total =>
      show d.liquid a + _ = d.liquid a + _ + _
      rw [removeLimitOrder, hholds, Pi.sub_apply, Pi.sub_apply, put_ne (by simp), put_self]
      ring
    | uncounted account =>
      have hcommits := sum_map_eraseP (LimitOrder.commits account) h
      rw [Pi.sub_apply, Pi.sub_apply, put_core, put_ne (by simp), sub_zero, amount, amount, ← Asset.of_add]
      simp only [coreInOrders, removeLimitOrder, hcommits, LimitOrder.commits]
      congr 2
      show d.totalCoreInOrders account - _ = _
      ring
    | _ =>
      simp [put_ne]
      rfl
  solvent hd := ⟨hd.balances, hd.fees⟩
  limits := sublistForall₂_eraseP
  calls := Std.Refl.refl _
  settlements := Std.Refl.refl _

theorem setLimitOrder_deals (o' : LimitOrder) (h : d.findLimitOrder o'.id = some o) (ho : o'.RestOf t o)
    (hseller : o'.seller = o.seller) :
    Deals t d (d.setLimitOrder o') (put .total o'.holds - put .total o.holds +
      (put (.uncounted o.seller) o.amountForSale.core.of - put (.uncounted o.seller) o'.amountForSale.core.of)) where
  same := rfl
  amounts q a := by
    have hholds := sum_map_updateFirst (LimitOrder.holds · a) (f := fun _ => o') h
    cases q with
    | total =>
      show d.liquid a + _ = d.liquid a + _ + _
      simp only [setLimitOrder, hholds, Pi.add_apply, Pi.sub_apply, put_self, put_ne, ne_eq, reduceCtorEq,
        not_false_eq_true]
      ring
    | uncounted account =>
      have hcommits := sum_map_updateFirst (LimitOrder.commits account) (f := fun _ => o') h
      simp only [Pi.add_apply, Pi.sub_apply, put_core, put_ne, ne_eq, reduceCtorEq, not_false_eq_true, sub_self,
        zero_add]
      rw [← Asset.of_sub, amount, amount, ← Asset.of_add]
      simp only [coreInOrders, setLimitOrder, hcommits, LimitOrder.commits, hseller]
      congr 2
      show d.totalCoreInOrders account - _ = _
      ring
    | _ =>
      simp [put_ne]
      rfl
  solvent hd := ⟨hd.balances, hd.fees⟩
  limits := sublistForall₂_updateFirst h ho
  calls := Std.Refl.refl _
  settlements := Std.Refl.refl _

theorem removeCallOrder_deals (h : d.findCallOrder c.id = some c) :
    Deals t d (d.removeCallOrder c.id) (put (.uncounted c.borrower) c.getCollateral.core.of -
      put .collateral c.getCollateral.of - put .debt c.getDebt.of) where
  same := rfl
  amounts q a := by
    have hcoll := sum_map_eraseP (fun c : CallOrder => c.getCollateral.of a) h
    have hdebt := sum_map_eraseP (fun c : CallOrder => c.getDebt.of a) h
    cases q with
    | collateral => simpa [amount, collateral, removeCallOrder, put_ne, sub_eq_add_neg] using hcoll
    | debt => simpa [amount, debt, removeCallOrder, put_ne, sub_eq_add_neg] using hdebt
    | uncounted account =>
      have hcommits := sum_map_eraseP (CallOrder.commits account) h
      rw [Pi.sub_apply, Pi.sub_apply, Pi.sub_apply, Pi.sub_apply, put_core, put_ne (by simp), put_ne (by simp), sub_zero,
        sub_zero, amount, amount, ← Asset.of_add]
      simp only [coreInOrders, removeCallOrder, hcommits, CallOrder.commits]
      congr 2
      show d.totalCoreInOrders account - _ = _
      ring
    | _ =>
      simp [put_ne]
      rfl
  solvent hd := ⟨hd.balances, hd.fees⟩
  limits := Std.Refl.refl _
  calls := sublistForall₂_eraseP
  settlements := Std.Refl.refl _

theorem setCallOrder_deals (c' : CallOrder) (h : d.findCallOrder c'.id = some c) (hc : c'.RestOf c)
    (hborrower : c'.borrower = c.borrower) :
    Deals t d (d.setCallOrder c') (put .collateral c'.getCollateral.of - put .collateral c.getCollateral.of +
      (put .debt c'.getDebt.of - put .debt c.getDebt.of) +
      (put (.uncounted c.borrower) c.getCollateral.core.of - put (.uncounted c.borrower) c'.getCollateral.core.of)) where
  same := rfl
  amounts q a := by
    have hcoll := sum_map_updateFirst (fun c : CallOrder => c.getCollateral.of a) (f := fun _ => c') h
    have hdebt := sum_map_updateFirst (fun c : CallOrder => c.getDebt.of a) (f := fun _ => c') h
    cases q with
    | collateral => simpa [amount, collateral, setCallOrder, put_ne] using hcoll
    | debt => simpa [amount, debt, setCallOrder, put_ne] using hdebt
    | uncounted account =>
      have hcommits := sum_map_updateFirst (CallOrder.commits account) (f := fun _ => c') h
      simp only [Pi.add_apply, Pi.sub_apply, put_core, put_ne, ne_eq, reduceCtorEq, not_false_eq_true, sub_self,
        zero_add]
      rw [← Asset.of_sub, amount, amount, ← Asset.of_add]
      simp only [coreInOrders, setCallOrder, hcommits, CallOrder.commits, hborrower]
      congr 2
      show d.totalCoreInOrders account - _ = _
      ring
    | _ =>
      simp [put_ne]
      rfl
  solvent hd := ⟨hd.balances, hd.fees⟩
  limits := Std.Refl.refl _
  calls := sublistForall₂_updateFirst h hc
  settlements := Std.Refl.refl _

theorem removeSettlement_deals (h : d.findSettlement s.id = some s) :
    Deals t d (d.removeSettlement s.id) (put .requested (-s.balance.of)) where
  same := rfl
  amounts := by
    refine amount_put (fun a => ?_) fun q hq a => ?_
    · simpa [amount, requested, removeSettlement, sub_eq_add_neg] using
        sum_map_eraseP (fun s : ForceSettlement => s.balance.of a) h
    · cases q <;> first | rfl | exact absurd rfl hq
  solvent hd := ⟨hd.balances, hd.fees⟩
  limits := Std.Refl.refl _
  calls := Std.Refl.refl _
  settlements := sublistForall₂_eraseP

theorem setSettlement_deals (s' : ForceSettlement) (h : d.findSettlement s'.id = some s) (hs : s'.RestOf s) :
    Deals t d (d.setSettlement s') (put .requested s'.balance.of - put .requested s.balance.of) where
  same := rfl
  amounts := by
    rw [← put_sub]
    refine amount_put (fun a => ?_) fun q hq a => ?_
    · simpa [amount, requested, setSettlement] using
        sum_map_updateFirst (fun s : ForceSettlement => s.balance.of a) (f := fun _ => s') h
    · cases q <;> first | rfl | exact absurd rfl hq
  solvent hd := ⟨hd.balances, hd.fees⟩
  limits := Std.Refl.refl _
  calls := Std.Refl.refl _
  settlements := sublistForall₂_updateFirst h hs

/-- A change of the dynamic data that leaves everything but the supply alone -/
theorem modifyDynamicData_supply {asset : AssetId} {f : AssetDynamicData → Eval AssetDynamicData} {delta : Int}
    (h : d.modifyDynamicData asset f = .ok d')
    (hf : ∀ x x', d.dynamicData[asset]? = some x → f x = .ok x' → x'.currentSupply = x.currentSupply + delta ∧
      x'.accumulatedFees = x.accumulatedFees ∧ x'.feePool = x.feePool) :
    Deals t d d' (put .supply (Asset.of ⟨delta, asset⟩)) := by
  obtain ⟨x, x', hx, hfx, rfl⟩ := modifyDynamicData_eq_ok h
  obtain ⟨hsupply, hfee, hpool⟩ := hf x x' hx hfx
  refine ⟨rfl, amount_put (fun a => ?_) fun q hq a => ?_, fun hd => ⟨hd.balances, fun y hy => ?_⟩, Std.Refl.refl _,
    Std.Refl.refl _, Std.Refl.refl _⟩
  · have hsupplies := getD_map_set AssetDynamicData.currentSupply (y := x') hx a
    rw [hsupply, add_sub_cancel_left] at hsupplies
    exact hsupplies
  · have hfees := getD_map_set AssetDynamicData.accumulatedFees (y := x') hx a
    have hpools := sum_map_set AssetDynamicData.feePool (y := x') hx
    cases q with
    | total =>
      simp only [hfee, hpool, sub_self, ite_self, add_zero] at hfees hpools
      simp only [amount, total, liquid, balancesOf, accumulatedFees, feePools, pendingFees, hfees, hpools]
    | supply => exact absurd rfl hq
    | _ => rfl
  · rcases List.mem_or_eq_of_mem_set hy with hy | rfl
    · exact hd.fees y hy
    · rw [hfee]
      exact hd.fees x (List.mem_of_getElem? hx)

theorem changeSupply_same {delta : Asset} (h : d.changeSupply delta = .ok d') :
    d' = { d with dynamicData := d'.dynamicData } := by
  obtain ⟨x, x', -, -, rfl⟩ := modifyDynamicData_eq_ok h
  rfl

theorem changeSupply_deals {delta : Asset} (h : d.changeSupply delta = .ok d') :
    Deals t d d' (put .supply delta.of) := by
  refine modifyDynamicData_supply h fun x x' _ hx => ?_
  simp only [bind_eq_ok, safe_eq_ok, pure_eq_ok] at hx
  obtain ⟨_, ⟨-, rfl⟩, rfl⟩ := hx
  exact ⟨rfl, rfl, rfl⟩

end

end Database

end Khc.Market
