import Khc.Market.Consistent

/-! The revival of a settled asset: collateral bids become call orders, and all other bids are paid back. -/

namespace Khc.Market

open Lib
open Chain (Asset Price AccountId AssetId)

/-- The data of an asset that is settled no more -/
def BitassetData.revived (b : BitassetData) : BitassetData :=
  { b with settlementPrice := Price.default, settlementFund := 0 }

namespace Database

/-! ### Single bids -/

/-- From the first state to the second, bids are taken out and some of them become call orders; the quantities grow
    by `F`. -/
structure Redeems (d d' : Database) (F : Shift) : Prop where
  same : d' = { d with
    statistics := d'.statistics, balances := d'.balances, dynamicData := d'.dynamicData, bids := d'.bids,
    callOrders := d'.callOrders, nextCallOrder := d'.nextCallOrder, nextBid := d'.nextBid, applied := d'.applied }
  changes : Changes d d' F
  sound : d'.Sound
  bids : d'.bids.Sublist d.bids

section
variable {d d' d'' : Database} {F G : Shift} {mia backing : AssetId} {bid : CollateralBid} {op : Bool}

theorem Redeems.refl (hd : d.Sound) : Redeems d d 0 := ⟨rfl, fun _ _ => (add_zero _).symm, hd, List.Sublist.refl _⟩

theorem Redeems.trans (h : Redeems d d' F) (h' : Redeems d' d'' G) : Redeems d d'' (F + G) where
  same := by rw [h'.same, h.same]
  changes := h.changes.trans h'.changes
  sound := h'.sound
  bids := h'.bids.trans h.bids

theorem Redeems.bitassets (h : Redeems d d' F) : d'.bitassets = d.bitassets := by rw [h.same]

theorem removeBid_changes (h : bid ∈ d.bids) (hd : d.Sound) :
    Changes d (d.removeBid bid.id) (put .bidden (-bid.invSwanPrice.base.of)) := by
  refine amount_put (fun a => ?_) fun q hq a => ?_
  · have hsum := sum_map_eraseP (fun b : CollateralBid => b.invSwanPrice.base.of a) (hd.bids.find?_of_mem h)
    simpa [amount, bidden, removeBid, sub_eq_add_neg] using hsum
  · cases q <;> first | rfl | exact absurd rfl hq

/-- A sound state stays sound when a bid is taken out. -/
theorem Sound.removeBid (hd : d.Sound) (id : Nat) : (d.removeBid id).Sound where
  solvent := ⟨hd.solvent.balances, hd.solvent.fees⟩
  limits := hd.limits
  forSale := hd.forSale
  calls := hd.calls
  secured c hc := { hd.secured c hc with }
  requests := hd.requests
  requests_nonneg := hd.requests_nonneg
  bids := ⟨nodup_eraseP hd.bids.nodup, fun b hb => hd.bids.lt b (List.mem_of_mem_eraseP hb)⟩
  bidden b hb := { hd.bidden b (List.mem_of_mem_eraseP hb) with }
  feeds := hd.feeds
  core := hd.core

/-- A cancelled bid is paid back. -/
theorem cancelBid_redeems (h : d.cancelBid bid op = .ok d') (hd : d.Sound) (hbid : bid ∈ d.bids) :
    Redeems d d' (put .total bid.invSwanPrice.base.of - put .bidden bid.invSwanPrice.base.of) ∧
      d'.callOrders = d.callOrders ∧ d'.bids = d.bids.eraseP (·.id = bid.id) := by
  simp only [cancelBid, bind_eq_ok, pure_eq_ok] at h
  obtain ⟨d₁, h₁, rfl⟩ := h
  have m : Moves d (if op then d₁.pushAppliedOperation (.bidCollateral bid.bidder bid.invSwanPrice.base
      ⟨0, bid.invSwanPrice.quote.assetId⟩) else d₁) (put .total bid.invSwanPrice.base.of) :=
    (adjustBalance_moves h₁).andThen pushIf_moves
  generalize (if op then d₁.pushAppliedOperation (.bidCollateral bid.bidder bid.invSwanPrice.base
      ⟨0, bid.invSwanPrice.quote.assetId⟩) else d₁) = d₂ at m
  have hd₂ := (m.deals (t := none)).sound hd
  have hbid₂ : bid ∈ d₂.bids := m.bids ▸ hbid
  refine ⟨⟨?_, ?_, hd₂.removeBid _, ?_⟩, m.callOrders, by rw [removeBid, m.bids]⟩
  · rw [m.same]
    rfl
  · have hchanges := Changes.trans m.amounts (removeBid_changes hbid₂ hd₂)
    rwa [put_neg, ← sub_eq_add_neg] at hchanges
  · rw [removeBid, m.bids]
    exact List.eraseP_sublist

/-- A new call order -/
theorem createCallOrder_changes {c : CallOrder} (h : d.createCallOrder c = .ok d') :
    d' = { d with callOrders := d.callOrders ++ [{ c with id := d.nextCallOrder }], nextCallOrder := d.nextCallOrder + 1 } ∧
      Changes d d' (put .collateral c.getCollateral.of + put .debt c.getDebt.of -
        put (.uncounted c.borrower) c.getCollateral.core.of) ∧
      (d.Sound → 0 < c.debt → 0 < c.collateral → c.callPrice.InRange →
        (∃ b, d.bitasset c.debtType = some b ∧ b.options.shortBackingAsset = c.collateralType) → d'.Sound) := by
  simp only [createCallOrder, bind_eq_ok, fcAssert_eq_ok, pure_eq_ok] at h
  obtain ⟨-, -, rfl⟩ := h
  refine ⟨rfl, fun q a => ?_, fun hd hdebt hcoll hpriced hback => ?_⟩
  · cases q with
    | uncounted account =>
      simp only [Pi.add_apply, Pi.sub_apply, put_core, put_ne, ne_eq, reduceCtorEq, not_false_eq_true, add_zero, zero_sub]
      rw [← sub_eq_add_neg, amount, amount, ← Asset.of_sub]
      simp only [coreInOrders, totalCoreInOrders, List.map_append, List.sum_append, List.map_cons, List.map_nil,
        List.sum_cons, List.sum_nil, add_zero, CallOrder.commits]
      congr 2
      show _ - (_ + (_ + _)) = _
      rw [← add_assoc, ← sub_sub]
      rfl
    | collateral =>
      simp only [amount, collateral, List.map_append, List.sum_append, List.map_cons, List.map_nil, List.sum_cons,
        List.sum_nil, add_zero, Pi.add_apply, Pi.sub_apply, put_self, put_ne, ne_eq, reduceCtorEq, not_false_eq_true, sub_zero]
      rfl
    | debt =>
      simp only [amount, debt, List.map_append, List.sum_append, List.map_cons, List.map_nil, List.sum_cons,
        List.sum_nil, add_zero, Pi.add_apply, Pi.sub_apply, put_self, put_ne, ne_eq, reduceCtorEq, not_false_eq_true,
        zero_add, sub_zero]
      rfl
    | _ =>
      simp [put_ne]
      rfl
  · exact {
      solvent := ⟨hd.solvent.balances, hd.solvent.fees⟩
      limits := hd.limits
      forSale := hd.forSale
      calls := hd.calls.snoc rfl
      secured := by
        intro c' hc'
        rcases List.mem_append.mp hc' with hc' | hc'
        · exact { hd.secured c' hc' with }
        · rw [List.mem_singleton.mp hc']
          exact ⟨hdebt, hcoll, hpriced, hback⟩
      requests := hd.requests
      requests_nonneg := hd.requests_nonneg
      bids := hd.bids
      bidden := fun b hb => { hd.bidden b hb with }
      feeds := hd.feeds
      core := hd.core }

/-- An executed bid becomes a call order. -/
theorem executeBid_redeems {debt fromFund : Int} {feed : PriceFeed} (h : d.executeBid bid debt fromFund feed = .ok d')
    (hd : d.Sound) (hbid : bid ∈ d.bids) (hdebt : 0 < debt) (hfund : 0 ≤ fromFund) (hratio : 0 < feed.maintenanceCollateralRatio) :
    Redeems d d' (put .collateral (Asset.of ⟨bid.invSwanPrice.base.amount + fromFund, bid.invSwanPrice.base.assetId⟩) +
      put .debt (Asset.of ⟨debt, bid.debtType⟩) - put .bidden bid.invSwanPrice.base.of) ∧
      d'.bids = d.bids.eraseP (·.id = bid.id) ∧ ∃ callPrice,
        Market.callPrice ⟨debt, bid.debtType⟩ ⟨bid.invSwanPrice.base.amount + fromFund, bid.invSwanPrice.base.assetId⟩
          feed.maintenanceCollateralRatio = .ok callPrice ∧ 
        d'.callOrders = d.callOrders ++ [⟨d.nextCallOrder, bid.bidder, bid.invSwanPrice.base.amount + fromFund, debt,
          callPrice, none⟩] := by
  simp only [executeBid, bind_eq_ok, safe_eq_ok, pure_eq_ok] at h
  obtain ⟨_, ⟨-, rfl⟩, callPrice, hprice, d₁, h₁, d₂, h₂, rfl⟩ := h
  obtain ⟨hbase, hquote, (hne : bid.invSwanPrice.base.amount + fromFund ≠ 0)⟩ := callPrice_assets hprice
  have hbid' := hd.bidden bid hbid
  have hcoll : 0 < bid.invSwanPrice.base.amount + fromFund := by
    have := hbid'.collateral
    omega
  obtain ⟨hcreated, hchanges, hsound⟩ := createCallOrder_changes h₁
  have hd₁ : d₁.Sound := by
    refine hsound hd hdebt hcoll (callPrice_bounded hprice hdebt hcoll hratio) ?_
    simp only [CallOrder.debtType, CallOrder.collateralType, hbase, hquote]
    exact hbid'.backing
  have m := (adjustCoreInOrders_moves h₂).andThen (pushAppliedOperation_moves (.executeBid bid.bidder
    ⟨bid.invSwanPrice.base.amount + fromFund, bid.invSwanPrice.base.assetId⟩ ⟨debt, bid.invSwanPrice.quote.assetId⟩))
  generalize d₂.pushAppliedOperation _ = d₃ at m ⊢
  have hbids : d₁.bids = d.bids := by rw [hcreated]
  have hd₃ := (m.deals (t := none)).sound hd₁
  have hbid₃ : bid ∈ d₃.bids := by rwa [m.bids, hbids]
  refine ⟨⟨?_, ?_, hd₃.removeBid _, ?_⟩, by rw [removeBid, m.bids, hbids], callPrice, hprice, ?_⟩
  · rw [m.same, hcreated]
    rfl
  · have hcoll' : CallOrder.getCollateral ⟨d.nextCallOrder, bid.bidder, bid.invSwanPrice.base.amount + fromFund, debt,
        callPrice, none⟩ = ⟨bid.invSwanPrice.base.amount + fromFund, bid.invSwanPrice.base.assetId⟩ := Asset.eq_of rfl hbase
    have hdebt' : CallOrder.getDebt ⟨d.nextCallOrder, bid.bidder, bid.invSwanPrice.base.amount + fromFund, debt,
        callPrice, none⟩ = ⟨debt, bid.debtType⟩ := Asset.eq_of rfl hquote
    have hchanges₃ := (hchanges.trans m.amounts).trans (removeBid_changes hbid₃ hd₃)
    rwa [hcoll', hdebt', put_neg, ← sub_eq_add_neg, sub_add_cancel] at hchanges₃
  · rw [removeBid, m.bids, hbids]
    exact List.eraseP_sublist
  · rw [removeBid, m.callOrders, hcreated]

/-! ### Bids that are paid back -/

variable {l : List CollateralBid}

theorem bids_after_cons {b : CollateralBid} {bs : List CollateralBid} (hd : d.Sound)
    (h : d'.bids = d.bids.eraseP (·.id = b.id)) (hl : ∀ x ∈ b :: bs, x ∈ d.bids) (hnodup : ((b :: bs).map CollateralBid.id).Nodup) :
    (∀ x ∈ bs, x ∈ d'.bids) ∧ (d'.bids.filter fun x => ∀ y ∈ bs, x.id ≠ y.id) = d.bids.filter fun x => ∀ y ∈ b :: bs, x.id ≠ y.id := by
  rw [List.map_cons, List.nodup_cons] at hnodup
  rw [h, eraseP_key_eq_filter hd.bids.nodup]
  constructor
  · intro x hx
    refine List.mem_filter.mpr ⟨hl x (List.mem_cons_of_mem _ hx), ?_⟩
    simpa using fun heq => hnodup.1 (List.mem_map.mpr ⟨x, hx, heq⟩)
  · rw [List.filter_filter]
    refine List.filter_congr fun x _ => ?_
    rw [Bool.eq_iff_iff]
    simp [and_comm]

/-- Bids that are cancelled one after the other are paid back. -/
theorem cancelBids_redeems (h : l.foldlM (fun d bid => d.cancelBid bid true) d = .ok d') (hd : d.Sound)
    (hl : ∀ b ∈ l, b ∈ d.bids) (hnodup : (l.map CollateralBid.id).Nodup) :
    Redeems d d' (put .total (fun a => (l.map (·.invSwanPrice.base.of a)).sum) -
        put .bidden fun a => (l.map (·.invSwanPrice.base.of a)).sum) ∧
      d'.callOrders = d.callOrders ∧ d'.bids = d.bids.filter fun x => ∀ y ∈ l, x.id ≠ y.id := by
  induction l generalizing d with
  | nil =>
    obtain rfl := Except.ok.inj h
    have hnone : (fun a : AssetId => (([] : List CollateralBid).map (·.invSwanPrice.base.of a)).sum) = 0 := rfl
    refine ⟨?_, rfl, by simp⟩
    rw [hnone, put_zero, put_zero, sub_zero]
    exact .refl hd
  | cons b bs ih =>
    rw [List.foldlM_cons, bind_eq_ok] at h
    obtain ⟨d₁, h₁, h⟩ := h
    obtain ⟨hredeems, hcalls, hbids⟩ := cancelBid_redeems h₁ hd (hl b List.mem_cons_self)
    obtain ⟨hleft, hfilter⟩ := bids_after_cons hd hbids hl hnodup
    rw [List.map_cons, List.nodup_cons] at hnodup
    obtain ⟨hredeems', hcalls', hbids'⟩ := ih h hredeems.sound hleft hnodup.2
    refine ⟨?_, hcalls'.trans hcalls, hbids'.trans hfilter⟩
    have hsum : (fun a => ((b :: bs).map (·.invSwanPrice.base.of a)).sum) =
        b.invSwanPrice.base.of + fun a => (bs.map (·.invSwanPrice.base.of a)).sum := by
      funext a
      rw [List.map_cons, List.sum_cons]
      rfl
    rw [hsum, put_add, put_add, add_sub_add_comm]
    exact hredeems.trans hredeems'

/-! ### Bids that are executed -/

/-- Bids that are all needed to cover the supply -/
def Needed (supply : Int) : Int → List CollateralBid → Prop
  | _, [] => True
  | covered, bid :: bids => covered < supply ∧ Needed supply (covered + bid.invSwanPrice.quote.amount) bids

/-- The call orders that bids become -/
structure Executes (d d' : Database) (mia backing : AssetId) (l : List CollateralBid) (debt fund : Int) : Prop where
  redeems : ∃ F : Shift, Redeems d d' F ∧ (∀ a, F.worth a = Asset.of ⟨fund, backing⟩ a) ∧
    (∀ a, F.uncovered a = -Asset.of ⟨debt, mia⟩ a) ∧ F .supply = 0 ∧ ∀ account, F.miscount account = 0
  bids : d'.bids = d.bids.filter fun x => ∀ y ∈ l, x.id ≠ y.id
  calls : ∃ created, d'.callOrders = d.callOrders ++ created ∧ created.map CallOrder.borrower = l.map CollateralBid.bidder ∧
    (∀ c ∈ created, c.debtType = mia ∧ c.collateralType = backing) ∧ (created.map CallOrder.debt).sum = debt ∧
    (created.map CallOrder.collateral).sum = fund + (l.map (·.invSwanPrice.base.amount)).sum

theorem Executes.nil (hd : d.Sound) : Executes d d mia backing [] 0 0 where
  redeems := ⟨0, .refl hd, fun a => by simp, fun a => by simp, rfl, fun _ => miscount_zero⟩
  bids := by simp
  calls := ⟨[], by simp⟩

/-- One more bid is executed before the others. -/
theorem Executes.cons {d₁ : Database} {debt debt' fund fund' : Int} {feed : PriceFeed} (h : d.executeBid bid debt fund feed = .ok d₁)
    (hs : Executes d₁ d' mia backing l debt' fund') (hd : d.Sound) (hl : ∀ b ∈ bid :: l, b ∈ d.bids)
    (hnodup : ((bid :: l).map CollateralBid.id).Nodup) (hassets : bid.debtType = mia ∧ bid.invSwanPrice.base.assetId = backing)
    (hdebt : 0 < debt) (hfund : 0 ≤ fund) (hratio : 0 < feed.maintenanceCollateralRatio) :
    Executes d d' mia backing (bid :: l) (debt + debt') (fund + fund') := by
  obtain ⟨hredeems, hbids, callPrice, hprice, hcalls⟩ :=
    executeBid_redeems h hd (hl bid List.mem_cons_self) hdebt hfund hratio
  obtain ⟨⟨F, hF, hworth, huncovered, hsupply, hcount⟩, hbids', created, hcalls', hborrowers, htypes, hdebts, hcolls⟩ := hs
  obtain ⟨-, hfilter⟩ := bids_after_cons hd hbids hl hnodup
  obtain ⟨hbase, hquote, -⟩ := callPrice_assets hprice
  refine ⟨⟨_, hredeems.trans hF, fun a => ?_, fun a => ?_, ?_, fun account => ?_⟩, hbids'.trans hfilter,
    ⟨d.nextCallOrder, bid.bidder, bid.invSwanPrice.base.amount + fund, debt, callPrice, none⟩ :: created, ?_, ?_, ?_, ?_, ?_⟩
  · simp only [worth_add, worth_sub, worth_put, hworth, Asset.of_add]
    rw [Asset.of_mk (y := bid.invSwanPrice.base) rfl, hassets.2]
    ring
  · simp only [uncovered_add, uncovered_sub, uncovered_put, huncovered, Asset.of_add, hassets.1]
    ring
  · funext a
    simp [put_ne, hsupply]
  · simp [hcount]
  · rw [hcalls', hcalls, List.append_assoc]
    rfl
  · simp [hborrowers]
  · refine List.forall_mem_cons.mpr ⟨⟨hquote.trans hassets.1, hbase.trans hassets.2⟩, htypes⟩
  · simp [hdebts]
  · simp only [List.map_cons, List.sum_cons, hcolls]
    ring

/-- The bids that cover the supply are executed, and what is left to cover and of the fund stays in proportion. -/
theorem executeBids_executes {bad : BitassetData} {toCover toCover' fund fund' : Int}
    (h : executeBids bad l toCover fund d = .ok (toCover', fund', d')) (hd : d.Sound) (hl : ∀ b ∈ l, b ∈ d.bids)
    (hnodup : (l.map CollateralBid.id).Nodup) (hassets : ∀ b ∈ l, b.debtType = mia ∧ b.invSwanPrice.base.assetId = backing)
    (hbase : bad.settlementPrice.base.assetId = mia) (hbase_pos : 0 < bad.settlementPrice.base.amount) (hquote_nonneg : 0 ≤ bad.settlementPrice.quote.amount)
    (hratio : 0 < bad.currentFeed.maintenanceCollateralRatio) {supply covered : Int} (hcover : toCover = max 0 (supply - covered))
    (hneeded : Needed supply covered l)
    (hbacked : toCover * bad.settlementPrice.quote.amount ≤ fund * bad.settlementPrice.base.amount) :
    Executes d d' mia backing l (toCover - toCover') (fund - fund') := by
  induction l generalizing d toCover fund covered with
  | nil =>
    cases h
    rw [sub_self, sub_self]
    exact .nil hd
  | cons bid bids ih =>
    obtain ⟨hless, hneeded⟩ := hneeded
    simp only [executeBids, bind_eq_ok, safe_eq_ok] at h
    obtain ⟨fromFund, hmul, _, ⟨-, rfl⟩, _, ⟨-, rfl⟩, d₁, h₁, h⟩ := h
    have hbid := hd.bidden bid (hl bid List.mem_cons_self)
    obtain ⟨hdebtType, hbacking⟩ := hassets bid List.mem_cons_self
    have hpos : 0 < toCover := by omega
    obtain ⟨-, hfrom, hdown, -⟩ := mul_of_base hmul (hdebtType.trans hbase.symm) hbid.debt.le hquote_nonneg
    -- what the bid takes over of the debt and of the fund
    have hshare : ∃ debt used, (if bid.invSwanPrice.quote.amount ≥ toCover then toCover else bid.invSwanPrice.quote.amount) = debt ∧
        (if bid.invSwanPrice.quote.amount ≥ toCover then fund else fromFund.amount) = used ∧ 0 < debt ∧ 0 ≤ used ∧
        toCover - debt = max 0 (supply - (covered + bid.invSwanPrice.quote.amount)) ∧
        (toCover - debt) * bad.settlementPrice.quote.amount ≤ (fund - used) * bad.settlementPrice.base.amount := by
      have hdebt := hbid.debt
      by_cases hlast : bid.invSwanPrice.quote.amount ≥ toCover
      · refine ⟨toCover, fund, if_pos hlast, if_pos hlast, hpos, ?_, by omega, by simp⟩
        have := Int.mul_nonneg hpos.le hquote_nonneg
        exact Int.nonneg_of_mul_nonneg_left (this.trans hbacked) hbase_pos
      · refine ⟨_, _, if_neg hlast, if_neg hlast, hdebt, hfrom, by omega, ?_⟩
        rw [sub_mul, sub_mul]
        omega
    obtain ⟨debt, used, hdebt, hused, hdebt_pos, hused_nonneg, hcover', hbacked'⟩ := hshare
    rw [hdebt, hused] at h₁ h
    obtain ⟨hredeems, hbids, -⟩ := executeBid_redeems h₁ hd (hl bid List.mem_cons_self) hdebt_pos hused_nonneg hratio
    obtain ⟨hleft, -⟩ := bids_after_cons hd hbids hl hnodup
    have hexecutes := ih h hredeems.sound hleft (List.nodup_cons.mp hnodup).2
      (fun b hb => hassets b (List.mem_cons_of_mem _ hb)) hcover' hneeded hbacked'
    have hcons := Executes.cons h₁ hexecutes hd hl hnodup (hassets bid List.mem_cons_self) hdebt_pos hused_nonneg hratio
    have hdebts : debt + (toCover - debt - toCover') = toCover - toCover' := by omega
    have hfunds : used + (fund - used - fund') = fund - fund' := by omega
    rwa [hdebts, hfunds] at hcons

/-! ### An asset that is settled no more -/

theorem bidsBelowMax_mem {b : CollateralBid} (h : b ∈ d.bidsBelowMax backing mia) : b ∈ d.bids ∧ b.debtType = mia := by
  rw [bidsBelowMax, bidsOn, List.mem_filter, List.mem_filter, (List.perm_insertionSort _ _).mem_iff, decide_eq_true_eq] at h
  exact h.1

theorem bidsBelowMax_nodup (hd : d.Sound) : ((d.bidsBelowMax backing mia).map CollateralBid.id).Nodup := by
  have hsorted : ((d.bids.insertionSort fun a b => ¬b.precedes a).map CollateralBid.id).Nodup :=
    ((List.perm_insertionSort _ _).map _).nodup_iff.mpr hd.bids.nodup
  exact hsorted.sublist ((List.filter_sublist.trans List.filter_sublist).map _)

theorem cancelBidsAndReviveMpa_eq_ok (h : d.cancelBidsAndReviveMpa mia = .ok d') :
    ∃ bad d₁, d.bitasset mia = some bad ∧ bad.hasSettlement ∧
      (d.bidsBelowMax bad.options.shortBackingAsset mia).foldlM (fun d bid => d.cancelBid bid true) d = .ok d₁ ∧
      d' = d₁.modifyBitasset mia BitassetData.revived := by
  simp only [cancelBidsAndReviveMpa, bind_eq_ok, fcAssert_eq_ok, getBitasset_eq_ok, pure_eq_ok] at h
  obtain ⟨bad, hbad, -, hsettled, -, -, d₁, h₁, rfl⟩ := h
  exact ⟨bad, d₁, hbad, hsettled, h₁, rfl⟩

/-- When bids have taken over the whole supply and the whole fund, the asset lives again. -/
theorem Executes.preserves {d₁ : Database} {b : BitassetData} (h : Executes d d₁ mia b.options.shortBackingAsset l
    (d.currentSupply mia) b.settlementFund) (hd : d.Consistent) (hb : d.bitasset mia = some b)
    (hrevive : d₁.cancelBidsAndReviveMpa mia = .ok d') : Preserves d d' := by
  obtain ⟨⟨F, hF, hworth, huncovered, hsupply, hcount⟩, -, created, hcalls, -, htypes, -, -⟩ := h
  obtain ⟨bad, d₂, hbad, hsettled, hcancel, rfl⟩ := cancelBidsAndReviveMpa_eq_ok hrevive
  have hsame : d₁.bitasset mia = d.bitasset mia := by rw [bitasset, bitasset, hF.bitassets]
  obtain rfl : b = bad := Option.some.inj (hb.symm.trans (hsame.symm.trans hbad))
  obtain ⟨hG, hcalls₂, -⟩ := cancelBids_redeems hcancel hF.sound (fun b hb => (bidsBelowMax_mem hb).1)
    (bidsBelowMax_nodup hF.sound)
  have hall := hF.trans hG
  have hbitasset : ∀ a, d₂.bitasset a = d.bitasset a := fun a => by rw [bitasset, bitasset, hall.bitassets]
  have hchanges := hall.changes.trans (modifyBitasset_changes
    BitassetData.revived ((hbitasset mia).trans hb))
  have hbacks := hd.settled mia b hb hsettled
  have hcallOrders : d₂.callOrders = d.callOrders ++ created := hcalls₂.trans hcalls
  have huncovered' : ∀ a, (d₂.modifyBitasset mia .revived).uncovered a =
      d.uncovered a - Asset.of ⟨d.currentSupply mia, mia⟩ a := by
    intro a
    rw [uncovered_of_amounts hchanges]
    simp only [uncovered_add, uncovered_sub, uncovered_put, huncovered]
    ring
  have hsound : (d₂.modifyBitasset mia .revived).Sound :=
    hall.sound.modifyBitasset fun b' hb' => ⟨rfl, { hall.sound.feeds mia b' hb' with }⟩
  refine ⟨{ hsound with live := ?_, settled := ?_ },
    keeps_of_amounts hchanges (fun a => ?_) fun account => by simp [hcount], ?_, fun a => ?_⟩
  · intro a x hx hlive
    rw [bitasset_modify, hbitasset] at hx
    split at hx
    · rename_i ha
      subst ha
      rw [hb, Option.map_some, Option.some.injEq] at hx
      subst hx
      refine ⟨rfl, ?_⟩
      rw [huncovered', Asset.of, if_pos rfl, uncovered, Shift.uncovered, amount, amount, debt_eq_zero hbacks.calls]
      ring
    · rename_i ha
      have howes := hd.live a x hx hlive
      refine ⟨howes.fund, ?_⟩
      rw [huncovered', howes.covered, Asset.of, if_neg ha, sub_zero]
  · intro a x hx hsettled'
    rw [bitasset_modify, hbitasset] at hx
    split at hx
    · rename_i ha
      subst ha
      rw [hb, Option.map_some, Option.some.injEq] at hx
      subst hx
      cases hsettled'
    · rename_i ha
      have hbacks' := hd.settled a x hx hsettled'
      have hsupply' : (d₂.modifyBitasset mia .revived).currentSupply a =
          d.currentSupply a := by
        have hadded := hchanges .supply a
        simpa [amount, put_ne, hsupply] using hadded
      refine { hbacks' with
        calls := ?_
        supply_nonneg := hsupply'.symm ▸ hbacks'.supply_nonneg
        backed := hsupply'.symm ▸ hbacks'.backed
        empty := hsupply'.symm ▸ hbacks'.empty }
      intro c hc
      rcases List.mem_append.mp (hcallOrders ▸ hc : c ∈ d.callOrders ++ created) with hc | hc
      · exact hbacks'.calls c hc
      · rw [(htypes c hc).1]
        exact ha
  · simp only [worth_add, worth_sub, worth_put, hworth]
    show _ + _ + (Asset.of ⟨0, _⟩ a - Asset.of _ a) = _
    rw [Asset.of_zero]
    ring
  · have hlimits : d₂.limitOrders = d.limitOrders := by rw [hall.same]
    show List.SublistForall₂ _ d₂.limitOrders _
    rw [hlimits]
    exact Std.Refl.refl _
  · rw [bitasset_modify, hbitasset]
    split
    · cases d.bitasset a <;> rfl
    · rfl

/-! ### Revival by a feed and by bids -/

/-- The bid that a revival makes for the issuer offers nothing of its own. -/
theorem createBid_changes {bidder : AccountId} {p : Price} (h : d.createBid bidder p = .ok (bid, d')) :
    bid = ⟨d.nextBid, bidder, p⟩ ∧ d' = { d with bids := d.bids ++ [bid], nextBid := d.nextBid + 1 } ∧
      Changes d d' (put .bidden p.base.of) ∧ (d.Sound → d.Bids bid → d'.Sound) ∧
      ∀ b ∈ d.bids, ¬(b.debtType = bid.debtType ∧ b.bidder = bidder) := by
  simp only [createBid, bind_eq_ok, fcAssert_eq_ok, pure_eq_ok, Prod.mk.injEq] at h
  obtain ⟨-, hunique, rfl, rfl⟩ := h
  refine ⟨rfl, rfl, amount_put (fun a => ?_) fun q hq a => ?_, fun hd hbid => ?_, hunique⟩
  · simp [amount, bidden]
  · cases q <;> first | rfl | exact absurd rfl hq
  · exact {
      solvent := ⟨hd.solvent.balances, hd.solvent.fees⟩
      limits := hd.limits
      forSale := hd.forSale
      calls := hd.calls
      secured := fun c hc => { hd.secured c hc with }
      requests := hd.requests
      requests_nonneg := hd.requests_nonneg
      bids := hd.bids.snoc rfl
      bidden := by
        intro b hb
        rcases List.mem_append.mp hb with hb | hb
        · exact { hd.bidden b hb with }
        · rw [List.mem_singleton.mp hb]
          exact { hbid with }
      feeds := hd.feeds
      core := hd.core }

/-- The whole supply and the whole fund become a call order of the issuer. -/
theorem pseudoBid_executes {d₁ : Database} {b : BitassetData} {issuer : AccountId} {p : Price} (hd : d.Consistent)
    (hb : d.bitasset mia = some b) (hsettled : b.hasSettlement) (hpos : 0 < d.currentSupply mia)
    (hprice : p = ⟨⟨0, b.options.shortBackingAsset⟩, ⟨d.currentSupply mia, mia⟩⟩)
    (h₁ : d.createBid issuer p = .ok (bid, d₁))
    (h : d₁.executeBid bid (d.currentSupply mia) b.settlementFund b.currentFeed = .ok d') :
    Executes d d' mia b.options.shortBackingAsset [bid] (d.currentSupply mia) b.settlementFund := by
  have hbacks := hd.settled mia b hb hsettled
  obtain ⟨hbid, hcreated, hchanges, hsound, -⟩ := createBid_changes h₁
  have hassets : bid.debtType = mia ∧ bid.invSwanPrice.base = ⟨0, b.options.shortBackingAsset⟩ := by
    rw [hbid, hprice]
    exact ⟨rfl, rfl⟩
  have hd₁ : d₁.Sound := by
    refine hsound hd.toSound ⟨?_, ?_, b, hassets.1 ▸ hb, ?_⟩
    · rw [hassets.2]
    · rw [hbid, hprice]
      exact hpos
    · rw [hassets.2]
  have hmem : bid ∈ d₁.bids := by simp [hcreated]
  obtain ⟨hredeems, hbids, callPrice, hcall, hcalls⟩ := executeBid_redeems h hd₁ hmem hpos hbacks.fund_nonneg
    (hd.feeds mia b hb).median.ratio_pos
  obtain ⟨hbase, hquote, -⟩ := callPrice_assets hcall
  have hfresh : ∀ x ∈ d.bids, x.id ≠ bid.id := fun x hx => (hbid ▸ (hd.bids.lt x hx).ne : x.id ≠ bid.id)
  have hbids' : d'.bids = d.bids := by
    rw [hbids, hcreated, List.eraseP_append_right _ fun x hx => by simpa using hfresh x hx]
    simp
  have hzero : bid.invSwanPrice.base.of = 0 := by
    rw [hassets.2]
    exact funext fun _ => Asset.of_zero
  have hnone : put .bidden p.base.of = 0 := by
    rw [hbid] at hzero
    rw [hzero, put_zero]
  rw [hnone] at hchanges
  rw [hassets.2, zero_add] at hredeems hcalls hcall
  refine ⟨⟨_, ⟨?_, hchanges.trans hredeems.changes, hredeems.sound, hbids' ▸ List.Sublist.refl _⟩, fun a => ?_, fun a => ?_,
    ?_, fun account => ?_⟩, ?_, [⟨d₁.nextCallOrder, bid.bidder, b.settlementFund, d.currentSupply mia, callPrice, none⟩], ?_,
    rfl, ?_, ?_, ?_⟩
  · rw [hredeems.same, hcreated]
  · simp
  · simp [hassets.1]
  · funext a
    simp [put_ne]
  · simp
  · rw [hbids', eq_comm, List.filter_eq_self]
    simpa using hfresh
  · rw [hcalls, hcreated]
  · simp [CallOrder.debtType, CallOrder.collateralType, hbase, hquote, hassets]
  · simp
  · simp [hassets.2]

theorem reviveBitasset_preserves (h : d.reviveBitasset mia = .ok d') (hd : d.Consistent) : Preserves d d' := by
  simp only [reviveBitasset, getDynamicData, bind_eq_ok, fcAssert_eq_ok, getBitasset_eq_ok, lookup_eq_ok] at h
  obtain ⟨b, hb, -, hsettled, dyn, hdyn, -, -, -, -, d₁, h₁, h⟩ := h
  have hsupply : d.currentSupply mia = dyn.currentSupply := by simp [currentSupply, hdyn]
  split at h₁
  · rename_i hpos
    simp only [bind_eq_ok, mkPrice, fcAssert_eq_ok, pure_eq_ok] at h₁
    obtain ⟨a, -, p, ⟨-, -, hprice⟩, ⟨bid, d₂⟩, h₂, h₁⟩ := h₁
    rw [← hsupply] at hpos hprice h₁
    exact (pseudoBid_executes hd hb hsettled hpos hprice.symm h₂ h₁).preserves hd hb h
  · simp only [bind_eq_ok, fcAssert_eq_ok] at h₁
    obtain ⟨-, hzero, h₁⟩ := h₁
    cases h₁
    have hnone : d.currentSupply mia = 0 := by
      have := (hd.settled mia b hb hsettled).supply_nonneg
      omega
    have hnil : Executes d d mia b.options.shortBackingAsset [] (d.currentSupply mia) b.settlementFund := by
      rw [hnone, hzero]
      exact .nil hd.toSound
    exact hnil.preserves hd hb h

/-- The bids that cover the supply are the best ones, and all of them are needed. -/
theorem coveringBids_needed {b : BitassetData} {supply covered all : Int} {bids : List CollateralBid}
    (h : coveringBids b supply bids covered = .ok (l, all)) :
    l <+: bids ∧ Needed supply covered l ∧ all = covered + (l.map (·.invSwanPrice.quote.amount)).sum := by
  induction bids generalizing covered l with
  | nil =>
    cases h
    exact ⟨List.nil_prefix, trivial, by simp⟩
  | cons bid bids ih =>
    simp only [coveringBids] at h
    split at h
    · rename_i hless
      simp only [bind_eq_ok, fcAssert_eq_ok, safe_eq_ok] at h
      obtain ⟨fromFund, -, -, -, total, -, callPrice, -, h⟩ := h
      split at h
      · simp only [bind_eq_ok, safe_eq_ok, pure_eq_ok, Prod.mk.injEq] at h
        obtain ⟨_, ⟨-, rfl⟩, ⟨rest, all'⟩, hrest, rfl, rfl⟩ := h
        obtain ⟨hfirst, hneeded, hsum⟩ := ih hrest
        refine ⟨(List.prefix_cons_inj bid).mpr hfirst, ⟨hless, hneeded⟩, ?_⟩
        rw [hsum, List.map_cons, List.sum_cons, add_assoc]
      · cases pure_eq_ok.mp h
        exact ⟨List.nil_prefix, trivial, by simp⟩
    · cases h
      exact ⟨List.nil_prefix, trivial, by simp⟩

/-- Either the bids do not cover the supply and nothing happens, or the best ones take over the supply and the fund. -/
theorem processBids_cases {b : BitassetData} (h : d.processBids b = .ok d') (hd : d.Consistent)
    (hb : d.bitasset mia = some b) (hsettled : b.hasSettlement) :
    d' = d ∨ ∃ l d₁, l <+: d.bidsBelowMax b.options.shortBackingAsset mia ∧
      Executes d d₁ mia b.options.shortBackingAsset l (d.currentSupply mia) b.settlementFund ∧
      d₁.cancelBidsAndReviveMpa mia = .ok d' := by
  have hbacks := hd.settled mia b hb hsettled
  unfold processBids at h
  split at h
  · exact .inl (pure_eq_ok.mp h).symm
  · split at h
    · exact .inl (pure_eq_ok.mp h).symm
    · simp only [getDynamicData, bind_eq_ok, lookup_eq_ok] at h
      obtain ⟨x, hx, dyn, hdyn, ⟨l, all⟩, hl, h⟩ := h
      have hasset : x.assetId = mia := by
        rcases mul_eq_ok hx with ⟨heq, -⟩ | ⟨-, -, hx⟩
        · exact absurd (heq.trans hbacks.base).symm hbacks.assets
        · exact (convert_eq_ok hx).2.1.trans hbacks.base
      rw [hasset] at hdyn hl h
      have hsupply : dyn.currentSupply = d.currentSupply mia := by simp [currentSupply, hdyn]
      obtain ⟨hfirst, hneeded, -⟩ := coveringBids_needed hl
      split at h
      · exact .inl (pure_eq_ok.mp h).symm
      · simp only [bind_eq_ok, fcAssert_eq_ok] at h
        obtain ⟨⟨toCover, fund, d₁⟩, h₁, -, hfund, -, hcover, h⟩ := h
        have hmem : ∀ b' ∈ l, b' ∈ d.bids ∧ b'.debtType = mia := fun b' hb' => bidsBelowMax_mem (hfirst.subset hb')
        rw [hsupply] at h₁ hneeded
        have hassets : ∀ b' ∈ l, b'.debtType = mia ∧ b'.invSwanPrice.base.assetId = b.options.shortBackingAsset := by
          intro b' hb'
          obtain ⟨y, hy, hback⟩ := (hd.bidden b' (hmem b' hb').1).backing
          rw [(hmem b' hb').2, hb] at hy
          cases hy
          exact ⟨(hmem b' hb').2, hback.symm⟩
        have hexecutes := executeBids_executes h₁ hd.toSound (fun b' hb' => (hmem b' hb').1)
          ((bidsBelowMax_nodup hd.toSound).sublist (hfirst.sublist.map _)) hassets hbacks.base
          hbacks.base_pos hbacks.quote_nonneg (hd.feeds mia b hb).median.ratio_pos
          (by rw [sub_zero, max_eq_right hbacks.supply_nonneg]) hneeded hbacks.backed
        rw [show toCover = 0 from hcover, show fund = 0 from hfund, sub_zero, sub_zero] at hexecutes
        exact .inr ⟨l, d₁, hfirst, hexecutes, h⟩

theorem processBids_preserves {b : BitassetData} (h : d.processBids b = .ok d') (hd : d.Consistent)
    (hb : d.bitasset mia = some b) (hsettled : b.hasSettlement) : Preserves d d' := by
  rcases processBids_cases h hd hb hsettled with rfl | ⟨l, d₁, -, hexecutes, hrevive⟩
  · exact .refl hd
  · exact hexecutes.preserves hd hb hrevive

end

end Database

end Khc.Market
