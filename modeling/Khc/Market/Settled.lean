import Khc.Lib.Update
import Khc.Market.Matched

/-! Global settlement: every call order of the asset is closed, what the orders pay is the settlement fund, and the supply
    stays as it was. -/

namespace Khc.Market

open Lib
open Chain (Asset Price AccountId AssetId)

namespace Database

section
variable {d d' : Database} {backing mia a : AssetId} {p : Price} {c : CallOrder} {l : List CallOrder} {b : BitassetData}

/-! ### The call orders of a market -/

theorem Sound.assets (hd : d.Sound) (hc : c ∈ d.callOrders) (hb : d.bitasset c.debtType = some b) :
    c.collateralType = b.options.shortBackingAsset := by
  obtain ⟨b', hb', hback⟩ := (hd.secured c hc).backing
  rw [hb] at hb'
  cases hb'
  exact hback.symm

/-- The range of the index holds the call orders on the asset, and no others. -/
theorem callsOf_perm (hd : d.Sound) (hb : d.bitasset mia = some b) (hne : b.options.shortBackingAsset ≠ mia) :
    (d.callsOf b.options.shortBackingAsset mia).Perm (d.callOrders.filter (·.debtType = mia)) := by
  have hsorted : (d.callOrders.insertionSort fun a b => ¬b.precedes a).Perm d.callOrders := List.perm_insertionSort _ _
  rw [callsOf, callsFrom, List.filter_filter]
  refine (hsorted.filter _).trans (List.Perm.of_eq (List.filter_congr fun c hc => ?_))
  have hrange := (hd.secured c hc).priced
  have hmin := Price.min_valid hne
  have hmax := Price.max_valid hne
  have hasset : (c.callPrice.lt (.min b.options.shortBackingAsset mia) = false ∧
      (Price.max b.options.shortBackingAsset mia).lt c.callPrice = false) ↔ c.debtType = mia := by
    rw [← Bool.not_eq_true, ← Bool.not_eq_true, Price.lt_iff hrange.valid hmin, Price.lt_iff hmax hrange.valid, not_lt, not_lt]
    constructor
    · intro ⟨h₁, h₂⟩
      exact (Price.assets_of_key_between (p := Price.min _ _) (r := Price.max _ _) rfl rfl h₁ h₂).2
    · rintro rfl
      have hback : c.callPrice.base.assetId = b.options.shortBackingAsset := hd.assets hc hb
      rw [← hback]
      exact ⟨hrange.min_le, hrange.le_max⟩
  rw [Bool.eq_iff_iff]
  simpa [and_comm] using hasset

/-! ### What the call orders pay -/

/-- What a call order pays when its asset is settled at the price -/
def paidAt (p : Price) (c : CallOrder) : Int := (settlementPays c p).toOption.elim 0 Asset.amount

/-- It is the debt at the price, rounded up, or all of the collateral. -/
theorem settlementPays_eq_ok {pays : Asset} (h : settlementPays c p = .ok pays) :
    pays.assetId = c.collateralType ∧ pays.amount = paidAt p c ∧
      ∃ r, multiplyAndRoundUp c.getDebt p = .ok r ∧ paidAt p c = min c.collateral r.amount := by
  have hpaid : pays.amount = paidAt p c := by
    rw [paidAt, h]
    rfl
  simp only [settlementPays, bind_eq_ok, fcAssert_eq_ok, pure_eq_ok] at h
  obtain ⟨r, hr, -, hasset, hpays⟩ := h
  refine ⟨?_, hpaid, r, hr, ?_⟩
  · rw [← hpays]
    split
    · rfl
    · exact hasset
  · rw [← hpaid, ← hpays]
    split
    · rename_i hmore
      exact (min_eq_left hmore.le).symm
    · rename_i hless
      exact (min_eq_right (not_lt.mp hless)).symm

/-- The change that closing the call orders makes -/
structure Closes (t : Option Nat) (d d' : Database) (l : List CallOrder) (p : Price) (backing : AssetId) : Prop where
  deals : ∃ F : Shift, Deals t d d' F ∧
    (∀ a, F.worth a = (l.map (·.getDebt.of a)).sum - Asset.of ⟨(l.map (paidAt p)).sum, backing⟩ a) ∧
    (∀ a, F .debt a = -(l.map (·.getDebt.of a)).sum) ∧ (∀ a, F.uncovered a = 0) ∧ ∀ account, F.miscount account = 0
  limits : d'.limitOrders = d.limitOrders
  settlements : d'.settlements = d.settlements
  calls : d'.callOrders = d.callOrders.filter fun c => ∀ c' ∈ l, c.id ≠ c'.id
  priced : ∀ c ∈ l, ∃ r, multiplyAndRoundUp c.getDebt p = .ok r ∧ paidAt p c = min c.collateral r.amount

/-- Each round closes one call order, and the collateral it pays is gathered. -/
theorem settleCalls_closes {t : Option Nat} {g g' : Int} (h : settleCalls backing p l g d = .ok (g', d')) (hd : d.Sound)
    (hl : ∀ c ∈ l, c ∈ d.callOrders) (hnodup : (l.map CallOrder.id).Nodup) :
    Closes t d d' l p backing ∧ g' = g + (l.map (paidAt p)).sum := by
  induction l generalizing d g with
  | nil =>
    cases h
    refine ⟨⟨⟨0, Deals.refl, fun a => ?_, fun a => ?_, fun _ => uncovered_zero, fun _ => miscount_zero⟩, rfl, rfl, ?_, by simp⟩, by simp⟩
    · simp
    · simp
    · simp
  | cons c cs ih =>
    simp only [settleCalls, bind_eq_ok, fcAssert_eq_ok, safe_eq_ok] at h
    obtain ⟨pays, hpays, -, hback, gathered, ⟨-, rfl⟩, ⟨filled, d₁⟩, h₁, -, hfilled, h⟩ := h
    obtain ⟨hasset, hamount, hpriced⟩ := settlementPays_eq_ok hpays
    have hc := hl c List.mem_cons_self
    obtain ⟨⟨freed, f₁⟩, hlimits, hrequests, -, hcalls⟩ := fillCallOrder_deals (t := t) h₁ hd hc (le_refl _)
    have hcalls₁ := (hcalls hfilled).trans (eraseP_key_eq_filter hd.calls.nodup)
    rw [List.map_cons, List.nodup_cons] at hnodup
    have hl₁ : ∀ c' ∈ cs, c' ∈ d₁.callOrders := by
      intro c' hc'
      rw [hcalls₁, List.mem_filter]
      refine ⟨hl c' (List.mem_cons_of_mem _ hc'), ?_⟩
      simpa using fun heq => hnodup.1 (List.mem_map.mpr ⟨c', hc', heq⟩)
    obtain ⟨⟨⟨F, hF, hworth, hdebt, hcover, hcount⟩, hlimits', hrequests', hcalls', hpriced'⟩, hsum⟩ :=
      ih h (f₁.sound hd) hl₁ hnodup.2
    refine ⟨⟨⟨_, f₁.trans hF, fun a => ?_, fun a => ?_, fun a => ?_, fun account => ?_⟩, hlimits'.trans hlimits, hrequests'.trans hrequests,
      ?_, ?_⟩, ?_⟩
    · have hpaid : pays.of a = Asset.of ⟨paidAt p c, backing⟩ a := by rw [← hamount, Asset.of_mk hback]
      simp only [worth_add, worth_sub, worth_put, hworth, List.map_cons, List.sum_cons, Asset.of_add, Pi.add_apply, hpaid]
      ring
    · simp [put_ne, hdebt]
      ring
    · simp [hcover]
    · simp [hcount]
    · rw [hcalls', hcalls₁, List.filter_filter]
      refine List.filter_congr fun c' _ => ?_
      rw [Bool.eq_iff_iff]
      simp [and_comm]
    · exact List.forall_mem_cons.mpr ⟨hpriced, hpriced'⟩
    · rw [hsum, List.map_cons, List.sum_cons, ← hamount]
      ring

/-! ### Global settlement -/

/-- The call orders that owe the asset -/
def callsOn (d : Database) (mia : AssetId) : List CallOrder := d.callOrders.filter (·.debtType = mia)

/-- What they pay when the asset is settled at the price -/
def gathered (d : Database) (mia : AssetId) (p : Price) : Int := ((d.callsOn mia).map (paidAt p)).sum

theorem debt_callsOn (d : Database) (mia a : AssetId) :
    ((d.callsOn mia).map (·.getDebt.of a)).sum = Asset.of ⟨d.debt mia, mia⟩ a := by
  rw [debt, callsOn]
  induction d.callOrders with
  | nil => simp
  | cons c cs ih =>
    by_cases hc : c.debtType = mia
    · rw [List.filter_cons_of_pos (by simpa using hc), List.map_cons, List.sum_cons, ih, List.map_cons, List.sum_cons,
        Asset.of_add]
      congr 1
      simp [Asset.of, CallOrder.getDebt, hc]
    · rw [List.filter_cons_of_neg (by simpa using hc), ih, List.map_cons, List.sum_cons, Asset.of_add]
      simp [Asset.of, CallOrder.getDebt, hc]

/-- What a global settlement leaves behind -/
structure Settles (d d' : Database) (mia : AssetId) (p : Price) (b : BitassetData) : Prop where
  bitasset : d.bitasset mia = some b
  unsettled : ¬b.hasSettlement
  backing : mia ≠ b.options.shortBackingAsset
  bitassets : d'.bitassets = d.bitassets.modify mia (Option.map fun b' => { b' with
    settlementPrice := ⟨⟨d.currentSupply mia, mia⟩, ⟨d.gathered mia p, b.options.shortBackingAsset⟩⟩
    settlementFund := d.gathered mia p })
  changes : ∃ F : Shift, Changes d d' F ∧
    (∀ a, F.worth a = -Asset.of ⟨b.settlementFund, b.options.shortBackingAsset⟩ a) ∧ F .supply = 0 ∧
    (∀ a, F .debt a = -Asset.of ⟨d.debt mia, mia⟩ a) ∧ ∀ account, F.miscount account = 0
  limits : d'.limitOrders = d.limitOrders
  calls : d'.callOrders = d.callOrders.filter (·.debtType ≠ mia)
  settlements : d'.settlements = d.settlements
  bids : d'.bids = d.bids
  priced : ∀ c ∈ d.callsOn mia, ∃ r, multiplyAndRoundUp c.getDebt p = .ok r ∧ paidAt p c = min c.collateral r.amount
  sound : d'.Sound

theorem bitasset_modify {f : BitassetData → BitassetData} (d : Database) (mia a : AssetId) :
    (d.modifyBitasset mia f).bitasset a = if mia = a then (d.bitasset a).map f else d.bitasset a := by
  simp only [bitasset, modifyBitasset, List.getElem?_modify]
  split
  · cases d.bitassets[a]? <;> simp
  · simp

/-- The data of one asset changes. -/
theorem modifyBitasset_changes (f : BitassetData → BitassetData) (hb : d.bitasset mia = some b) :
    Changes d (d.modifyBitasset mia f) (put .funds fun a => fundOf a (some (f b)) - fundOf a (some b)) := by
  refine amount_put (fun a => ?_) fun q hq a => ?_
  · have hget : d.bitassets[mia]? = some (some b) := by
      rw [bitasset, Option.join_eq_some_iff] at hb
      exact hb
    exact sum_map_modify (fundOf a) _ hget
  · cases q <;> first | rfl | exact absurd rfl hq

theorem Sound.modifyBitasset {f : BitassetData → BitassetData} (hd : d.Sound)
    (hf : ∀ b, d.bitasset mia = some b → (f b).options = b.options ∧ (f b).Fed mia) :
    (d.modifyBitasset mia f).Sound := by
  have hback : ∀ x y, (∃ b, d.bitasset x = some b ∧ b.options.shortBackingAsset = y) →
      ∃ b, (d.modifyBitasset mia f).bitasset x = some b ∧ b.options.shortBackingAsset = y := by
    rintro x y ⟨b, hb, rfl⟩
    rw [bitasset_modify]
    split
    · rename_i hx
      subst hx
      exact ⟨f b, by rw [hb]; rfl, by rw [(hf b hb).1]⟩
    · exact ⟨b, hb, rfl⟩
  exact {
    solvent := ⟨hd.solvent.balances, hd.solvent.fees⟩
    limits := hd.limits
    forSale := hd.forSale
    calls := hd.calls
    secured := fun c hc => { hd.secured c hc with backing := hback _ _ (hd.secured c hc).backing }
    requests := hd.requests
    requests_nonneg := hd.requests_nonneg
    bids := hd.bids
    bidden := fun x hx => { hd.bidden x hx with backing := hback _ _ (hd.bidden x hx).backing }
    feeds := by
      intro a x hx
      rw [bitasset_modify] at hx
      split at hx
      · rename_i ha
        subst ha
        obtain ⟨b, hb, rfl⟩ := Option.map_eq_some_iff.mp hx
        exact (hf b hb).2
      · exact hd.feeds a x hx
    core := by
      rw [bitasset_modify, hd.core]
      split <;> rfl }

theorem globallySettleAsset_settles (h : d.globallySettleAsset mia p = .ok d') (hd : d.Sound) : ∃ b, Settles d d' mia p b := by
  simp only [globallySettleAsset, getDynamicData, bind_eq_ok, fcAssert_eq_ok, getBitasset_eq_ok, lookup_eq_ok] at h
  obtain ⟨b, hb, -, hunsettled, dyn, hdyn, ⟨g, d₁⟩, h₁, price, hprice, h⟩ := h
  simp only [mkPrice, bind_eq_ok, fcAssert_eq_ok, pure_eq_ok] at hprice
  obtain ⟨-, (hne : mia ≠ b.options.shortBackingAsset), rfl⟩ := hprice
  have hsupply : dyn.currentSupply = d.currentSupply mia := by simp [currentSupply, hdyn]
  have hperm : (d.callsOf b.options.shortBackingAsset mia).Perm (d.callsOn mia) := callsOf_perm hd hb hne.symm
  have hnodup : ((d.callsOf b.options.shortBackingAsset mia).map CallOrder.id).Nodup :=
    (hperm.map _).nodup_iff.mpr (hd.calls.nodup.sublist (List.filter_sublist.map _))
  obtain ⟨⟨⟨F, hF, hworth, hdebt, hcover, hcount⟩, hlimits, hrequests, hcalls, hpriced⟩, hg⟩ :=
    settleCalls_closes (t := none) h₁ hd (fun c hc => List.mem_of_mem_filter (hperm.mem_iff.mp hc)) hnodup
  have hgathered : g = d.gathered mia p := by rw [hg, zero_add, (hperm.map _).sum_eq, gathered]
  have hdebts : ∀ a, ((d.callsOf b.options.shortBackingAsset mia).map (·.getDebt.of a)).sum = Asset.of ⟨d.debt mia, mia⟩ a :=
    fun a => ((hperm.map _).sum_eq).trans (debt_callsOn d mia a)
  have hb₁ : d₁.bitasset mia = some b := by rw [hF.bitasset, hb]
  -- the supply that the closed call orders have taken away
  have hburnt : ∀ a, F .supply a = -Asset.of ⟨d.debt mia, mia⟩ a := by
    intro a
    have := hcover a
    rw [Shift.uncovered, hdebt, hdebts] at this
    omega
  set f : BitassetData → BitassetData := fun b' => { b' with
    settlementPrice := ⟨⟨dyn.currentSupply, mia⟩, ⟨g, b.options.shortBackingAsset⟩⟩
    settlementFund := g } with hf
  have hrestored : Deals none (d₁.modifyBitasset mia f) d' (put .supply (Asset.of ⟨d.debt mia, mia⟩)) := by
    refine modifyDynamicData_supply h fun x x' hx hx' => ?_
    cases hx'
    refine ⟨?_, rfl, rfl⟩
    have hx₁ : d₁.currentSupply mia = x.currentSupply := by
      have hx : d₁.dynamicData[mia]? = some x := hx
      simp [currentSupply, hx]
    have := hF.amounts .supply mia
    simp only [amount, hburnt, Asset.of, if_true, hx₁] at this
    simp only [hsupply]
    omega
  have hchanges := (Changes.trans hF.amounts (modifyBitasset_changes f hb₁)).trans hrestored.amounts
  have hsame : d'.limitOrders = d₁.limitOrders ∧ d'.callOrders = d₁.callOrders ∧ d'.settlements = d₁.settlements := by
    obtain ⟨x, x', -, -, rfl⟩ := modifyDynamicData_eq_ok h
    exact ⟨rfl, rfl, rfl⟩
  refine ⟨b, hb, hunsettled, hne, ?_, ⟨_, hchanges, fun a => ?_, funext fun a => ?_, fun a => ?_, fun account => ?_⟩,
    hsame.1.trans hlimits, ?_, hsame.2.2.trans hrequests, hrestored.bids.trans hF.bids,
    fun c hc => hpriced c (hperm.mem_iff.mpr hc),
    hrestored.sound ((hF.sound hd).modifyBitasset fun b' hb' => ⟨rfl, { (hF.sound hd).feeds mia b' hb' with }⟩)⟩
  · rw [hrestored.bitassets, modifyBitasset, hF.bitassets, hf, hsupply, hgathered]
  · have hsum : ((d.callsOf b.options.shortBackingAsset mia).map (paidAt p)).sum = g := by rw [hg, zero_add]
    simp only [worth_add, worth_put, hworth, hdebts, hsum]
    show _ + (Asset.of ⟨g, b.options.shortBackingAsset⟩ a - Asset.of _ a) + _ = _
    ring
  · simp [put_ne, hburnt]
  · simp [put_ne, hdebt, hdebts]
  · simp [hcount]
  · rw [hsame.2.1, hcalls]
    refine List.filter_congr fun c hc => ?_
    rw [Bool.eq_iff_iff, decide_eq_true_eq, decide_eq_true_eq]
    constructor
    · intro hc' hdebtType
      exact hc' c (hperm.mem_iff.mpr (List.mem_filter.mpr ⟨hc, by simpa using hdebtType⟩)) rfl
    · intro hdebtType c' hc' heq
      obtain ⟨hmem, hc'⟩ := List.mem_filter.mp (hperm.mem_iff.mp hc')
      rw [List.inj_on_of_nodup_map hd.calls.nodup hc hmem heq] at hdebtType
      exact hdebtType (by simpa using hc')

end

end Database

end Khc.Market
