import Khc.Market.Settled

/-! The states that the market is in: the supply of an asset that is not settled is owed by its call orders, and the
    supply of a settled one is backed by its fund. -/

namespace Khc.Market

open Lib
open Chain (Asset Price AccountId AssetId)

namespace Database

/-! ### Supplies and debts -/

/-- A settled asset has no call orders, and its fund is worth the supply at the settlement price. -/
structure Backs (d : Database) (a : AssetId) (b : BitassetData) : Prop where
  calls : ∀ c ∈ d.callOrders, c.debtType ≠ a
  base : b.settlementPrice.base.assetId = a
  quote : b.settlementPrice.quote.assetId = b.options.shortBackingAsset
  assets : a ≠ b.options.shortBackingAsset
  base_pos : 0 < b.settlementPrice.base.amount
  quote_nonneg : 0 ≤ b.settlementPrice.quote.amount
  supply_nonneg : 0 ≤ d.currentSupply a
  fund_nonneg : 0 ≤ b.settlementFund
  backed : d.currentSupply a * b.settlementPrice.quote.amount ≤ b.settlementFund * b.settlementPrice.base.amount
  empty : d.currentSupply a = 0 → b.settlementFund = 0

/-- The supply of an asset that is not settled is what its call orders owe. -/
structure Owes (d : Database) (a : AssetId) (b : BitassetData) : Prop where
  fund : b.settlementFund = 0
  covered : d.uncovered a = 0

/-- What holds in every state of the market, but for the worth of the holdings -/
structure Consistent (d : Database) : Prop extends d.Sound where
  live : ∀ a b, d.bitasset a = some b → ¬b.hasSettlement → d.Owes a b
  settled : ∀ a b, d.bitasset a = some b → b.hasSettlement → d.Backs a b

section
variable {t : Option Nat} {d d' d'' : Database} {F : Shift} {a mia : AssetId} {b : BitassetData} {p : Price}

theorem debt_eq_zero (h : ∀ c ∈ d.callOrders, c.debtType ≠ a) : d.debt a = 0 := by
  rw [Database.debt]
  refine List.sum_eq_zero fun x hx => ?_
  obtain ⟨c, hc, rfl⟩ := List.mem_map.mp hx
  exact if_neg (h c hc)

theorem Owes.supply (h : d.Owes a b) : d.currentSupply a = d.debt a := by
  have := h.covered
  simp only [uncovered, Shift.uncovered, amount] at this
  omega

/-- A price of two assets is not null. -/
theorem isNull_eq_false {p : Price} (h : p.base.assetId ≠ p.quote.assetId) : p.isNull = false := by
  simp only [Price.isNull, Price.eq, Price.default, Bool.and_eq_false_iff, beq_eq_false_iff_ne]
  by_cases hb : p.base.assetId = 0
  · exact .inl (.inr fun hq => h (hb.trans hq.symm))
  · exact .inl (.inl hb)

theorem hasSettlement_of_ne (h : b.settlementPrice.base.assetId ≠ b.settlementPrice.quote.assetId) : b.hasSettlement := by
  rw [BitassetData.hasSettlement, isNull_eq_false h]
  rfl

/-- A change of supplies and debts alike that gives no call order to a settled asset -/
theorem Consistent.changes (hd : d.Consistent) (hs : d'.Sound) (h : Changes d d' F) (hF : ∀ a, F.uncovered a = 0)
    (hbitasset : ∀ a, d'.bitasset a = d.bitasset a)
    (hcalls : ∀ c ∈ d'.callOrders, ∀ b, d.bitasset c.debtType = some b → b.hasSettlement →
      ∃ c' ∈ d.callOrders, c'.debtType = c.debtType) : d'.Consistent :=
  { hs with
    live := by
      intro a b hb hlive
      obtain ⟨hfund, hcovered⟩ := hd.live a b (hbitasset a ▸ hb) hlive
      exact ⟨hfund, by rw [uncovered_of_amounts h, hcovered, hF, add_zero]⟩
    settled := by
      intro a b hb hsettled
      rw [hbitasset] at hb
      have hbacks := hd.settled a b hb hsettled
      have hnone : ∀ c ∈ d'.callOrders, c.debtType ≠ a := by
        rintro c hc rfl
        obtain ⟨c', hc', heq⟩ := hcalls c hc b hb hsettled
        exact hbacks.calls c' hc' heq
      have hsupply : d'.currentSupply a = d.currentSupply a := by
        have hkept := uncovered_of_amounts h (a := a)
        rw [hF, add_zero] at hkept
        simp only [uncovered, Shift.uncovered, amount, debt_eq_zero hnone, debt_eq_zero hbacks.calls] at hkept
        omega
      exact { hbacks with
        calls := hnone
        supply_nonneg := hsupply.symm ▸ hbacks.supply_nonneg
        backed := hsupply.symm ▸ hbacks.backed
        empty := hsupply.symm ▸ hbacks.empty } }

/-- Dealings that change supplies and debts alike -/
theorem Consistent.deals (hd : d.Consistent) (h : Deals t d d' F) (hF : ∀ a, F.uncovered a = 0) : d'.Consistent := by
  refine hd.changes (h.sound hd.toSound) h.amounts hF h.bitasset fun c hc _ _ _ => ?_
  obtain ⟨c', hc', hrest⟩ := exists_of_sublistForall₂ h.calls hc
  exact ⟨c', hc', hrest.debtType_eq.symm⟩

/-! ### What keeps the states -/

/-- From the first state to the second, holdings keep their worth and no limit order is put into the book. -/
structure Preserves (d d' : Database) : Prop where
  consistent : d'.Consistent
  keeps : Keeps d d'
  limits : List.SublistForall₂ (LimitOrder.RestOf none) d'.limitOrders d.limitOrders
  options : ∀ a, (d'.bitasset a).map BitassetData.options = (d.bitasset a).map BitassetData.options

namespace Preserves

theorem refl (hd : d.Consistent) : Preserves d d := ⟨hd, .refl, Std.Refl.refl _, fun _ => rfl⟩

theorem trans (h : Preserves d d') (h' : Preserves d' d'') : Preserves d d'' :=
  ⟨h'.consistent, h.keeps.trans h'.keeps, IsTrans.trans _ _ _ h'.limits h.limits, fun a => (h'.options a).trans (h.options a)⟩

end Preserves

theorem Trades.consistent (h : Trades t d d') (hd : d.Consistent) : d'.Consistent := by
  obtain ⟨F, hF, hfair⟩ := h
  exact hd.deals hF hfair.uncovered

theorem Trades.preserves (h : Trades none d d') (hd : d.Consistent) : Preserves d d' := by
  obtain ⟨F, hF, hfair⟩ := h
  exact ⟨hd.deals hF hfair.uncovered, keeps_of_amounts hF.amounts hfair.worth hfair.counted, hF.limits,
    fun a => by rw [hF.bitasset]⟩

/-- The data of an asset changes, but neither its options nor its settlement. -/
theorem modifyBitasset_preserves {f : BitassetData → BitassetData} (hd : d.Consistent) (hb : d.bitasset mia = some b)
    (hoptions : (f b).options = b.options) (hprice : (f b).settlementPrice = b.settlementPrice)
    (hfund : (f b).settlementFund = b.settlementFund) (hfed : (f b).Fed mia) : Preserves d (d.modifyBitasset mia f) := by
  have hbitasset : ∀ a x, (d.modifyBitasset mia f).bitasset a = some x →
      ∃ y, d.bitasset a = some y ∧ x.options = y.options ∧ x.settlementPrice = y.settlementPrice ∧
        x.settlementFund = y.settlementFund := by
    intro a x hx
    rw [bitasset_modify] at hx
    split at hx
    · rename_i ha
      subst ha
      rw [hb, Option.map_some, Option.some.injEq] at hx
      subst hx
      exact ⟨b, hb, hoptions, hprice, hfund⟩
    · exact ⟨x, hx, rfl, rfl, rfl⟩
  have hchanges : Changes d (d.modifyBitasset mia f) 0 := by
    have hsame : (fun a => fundOf a (some (f b)) - fundOf a (some b)) = 0 := by
      funext a
      simp [fundOf, hoptions, hfund]
    have h := modifyBitasset_changes f hb
    rwa [hsame, put_zero] at h
  refine ⟨{ hd.toSound.modifyBitasset fun b' hb' => ?_ with live := ?_, settled := ?_ },
    keeps_of_amounts hchanges (fun _ => worth_zero) (fun _ => miscount_zero), Std.Refl.refl _, fun a => ?_⟩
  · obtain rfl := Option.some.inj (hb.symm.trans hb')
    exact ⟨hoptions, hfed⟩
  · intro a x hx hlive
    obtain ⟨y, hy, -, hprice', hfund'⟩ := hbitasset a x hx
    obtain ⟨hzero, hcovered⟩ := hd.live a y hy (by rwa [BitassetData.hasSettlement, ← hprice'])
    exact ⟨hfund'.trans hzero, hcovered⟩
  · intro a x hx hsettled
    obtain ⟨y, hy, hoptions', hprice', hfund'⟩ := hbitasset a x hx
    have hbacks := hd.settled a y hy (by rwa [BitassetData.hasSettlement, ← hprice'])
    exact ⟨hbacks.calls, hprice' ▸ hbacks.base, by rw [hprice', hoptions']; exact hbacks.quote, hoptions' ▸ hbacks.assets,
      hprice' ▸ hbacks.base_pos, hprice' ▸ hbacks.quote_nonneg, hbacks.supply_nonneg, hfund' ▸ hbacks.fund_nonneg,
      by rw [hprice', hfund']; exact hbacks.backed, hfund' ▸ hbacks.empty⟩
  · rw [bitasset_modify]
    split
    · rename_i ha
      rw [← ha, hb, Option.map_some, Option.map_some, Option.map_some, hoptions]
    · rfl

/-! ### Global settlement -/

theorem paidAt_nonneg {c : CallOrder} (hc : 0 ≤ c.collateral) : 0 ≤ paidAt p c := by
  rcases h : settlementPays c p with e | pays
  · simp [paidAt, h, Except.toOption]
  · obtain ⟨-, -, r, hr, hmin⟩ := settlementPays_eq_ok h
    rw [hmin]
    exact le_min hc (multiplyAndRoundUp_nonneg hr)

theorem gathered_nonneg (hd : d.Sound) : 0 ≤ d.gathered mia p := by
  refine List.sum_nonneg fun x hx => ?_
  obtain ⟨c, hc, rfl⟩ := List.mem_map.mp hx
  exact paidAt_nonneg (hd.secured c (List.mem_of_mem_filter hc)).collateral.le

theorem debt_pos {c : CallOrder} (hd : d.Sound) (hc : c ∈ d.callOrders) : 0 < d.debt c.debtType := by
  have hnonneg : ∀ x ∈ d.callOrders.map (·.getDebt.of c.debtType), 0 ≤ x := by
    intro x hx
    obtain ⟨c', hc', rfl⟩ := List.mem_map.mp hx
    exact Asset.of_nonneg (hd.secured c' hc').debt.le
  have hle := List.single_le_sum hnonneg _ (List.mem_map_of_mem hc)
  rw [CallOrder.getDebt, Asset.of, if_pos rfl] at hle
  exact (hd.secured c hc).debt.trans_le hle

theorem Settles.bitasset_eq (h : Settles d d' mia p b) (a : AssetId) :
    d'.bitasset a = if mia = a then (d.bitasset a).map fun b' => { b' with
      settlementPrice := ⟨⟨d.currentSupply mia, mia⟩, ⟨d.gathered mia p, b.options.shortBackingAsset⟩⟩
      settlementFund := d.gathered mia p } else d.bitasset a := by
  rw [Database.bitasset, h.bitassets]
  exact bitasset_modify d mia a

theorem Settles.supply_eq (h : Settles d d' mia p b) (a : AssetId) : d'.currentSupply a = d.currentSupply a := by
  obtain ⟨F, hF, -, hsupply, -⟩ := h.changes
  have := hF .supply a
  rw [hsupply] at this
  exact this.trans (add_zero _)

/-- A global settlement of an asset that has a supply -/
theorem Settles.preserves (h : Settles d d' mia p b) (hd : d.Consistent) (hpos : 0 < d.currentSupply mia) :
    Preserves d d' := by
  obtain ⟨F, hF, hworth, hsupply, hdebt, hcount⟩ := h.changes
  have howes := hd.live mia b h.bitasset h.unsettled
  refine ⟨{ h.sound with live := ?_, settled := ?_ }, keeps_of_amounts hF (fun a => ?_) hcount, h.limits ▸ Std.Refl.refl _,
    fun a => ?_⟩
  · intro a b' hb' hlive
    rw [h.bitasset_eq] at hb'
    split at hb'
    · rename_i ha
      subst ha
      rw [h.bitasset, Option.map_some, Option.some.injEq] at hb'
      subst hb'
      exact absurd (hasSettlement_of_ne h.backing) hlive
    · rename_i ha
      have howes' := hd.live a b' hb' hlive
      refine ⟨howes'.fund, ?_⟩
      rw [uncovered_of_amounts hF, howes'.covered, Shift.uncovered, hsupply, hdebt, Asset.of, if_neg ha]
      rfl
  · intro a b' hb' hsettled
    rw [h.bitasset_eq] at hb'
    split at hb'
    · rename_i ha
      subst ha
      rw [h.bitasset, Option.map_some, Option.some.injEq] at hb'
      subst hb'
      refine ⟨?_, rfl, rfl, h.backing, hpos, gathered_nonneg hd.toSound, h.supply_eq _ ▸ hpos.le, gathered_nonneg hd.toSound,
        ?_, ?_⟩
      · intro c hc
        rw [h.calls, List.mem_filter, decide_eq_true_eq] at hc
        exact hc.2
      · rw [h.supply_eq]
        exact (mul_comm _ _).le
      · rw [h.supply_eq]
        exact fun hzero => absurd hzero hpos.ne'
    · have hbacks := hd.settled a b' hb' hsettled
      exact { hbacks with
        calls := fun c hc => hbacks.calls c (List.mem_of_mem_filter (h.calls ▸ hc))
        supply_nonneg := (h.supply_eq a).symm ▸ hbacks.supply_nonneg
        backed := (h.supply_eq a).symm ▸ hbacks.backed
        empty := (h.supply_eq a).symm ▸ hbacks.empty }
  · rw [hworth, howes.fund, Asset.of_zero, neg_zero]
  · rw [h.bitasset_eq]
    split
    · cases d.bitasset a <;> rfl
    · rfl

/-- An asset that has a call order and is not settled has a supply. -/
theorem supply_pos {c : CallOrder} {l : List CallOrder} (hd : d.Consistent) (hb : d.bitasset mia = some b)
    (hlive : ¬b.hasSettlement) (hne : mia ≠ b.options.shortBackingAsset)
    (hl : d.callsOf b.options.shortBackingAsset mia = c :: l) : 0 < d.currentSupply mia := by
  have hc : c ∈ d.callOrders ∧ c.debtType = mia := by
    have hmem := (callsOf_perm hd.toSound hb hne.symm).mem_iff.mp (hl ▸ List.mem_cons_self)
    simpa using hmem
  rw [(hd.live mia b hb hlive).supply, ← hc.2]
  exact debt_pos hd.toSound hc.1

/-- A black swan settles an asset that has call orders. -/
theorem checkForBlackswan_preserves {enable swan : Bool} (h : d.checkForBlackswan mia enable = .ok (swan, d'))
    (hd : d.Consistent) : Preserves d d' ∧ (swan = false → d' = d) := by
  unfold checkForBlackswan at h
  split at h
  · cases pure_eq_ok.mp h
    exact ⟨.refl hd, fun _ => rfl⟩
  · rename_i b hb
    split at h
    · cases pure_eq_ok.mp h
      exact ⟨.refl hd, fun _ => rfl⟩
    · rename_i hlive
      dsimp only at h
      split at h
      · cases pure_eq_ok.mp h
        exact ⟨.refl hd, fun _ => rfl⟩
      · split at h
        · cases pure_eq_ok.mp h
          exact ⟨.refl hd, fun _ => rfl⟩
        · rename_i call calls hcalls
          obtain ⟨mssp, -, h⟩ := bind_eq_ok.mp h
          obtain ⟨highest, -, h⟩ := bind_eq_ok.mp h
          split at h
          · cases pure_eq_ok.mp h
            exact ⟨.refl hd, fun _ => rfl⟩
          · simp only [bind_eq_ok, fcAssert_eq_ok, pure_eq_ok, Prod.mk.injEq] at h
            obtain ⟨-, -, d₁, hsettle, rfl, rfl⟩ := h
            obtain ⟨b', hsettles⟩ := globallySettleAsset_settles hsettle hd.toSound
            obtain rfl : b = b' := Option.some.inj (hb.symm.trans hsettles.bitasset)
            exact ⟨hsettles.preserves hd (supply_pos hd hb hlive hsettles.backing hcalls), by simp⟩

end

end Database

end Khc.Market
