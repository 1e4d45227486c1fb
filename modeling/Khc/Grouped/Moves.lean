import Khc.Grouped.Columns

/-! # Orders placed in the groups of a market and taken from them -/

/-! An order is placed among the groups of its market, in each round of the loop of `object_inserted`. -/

namespace Khc.Grouped

open Chain (Asset Price AssetId graphene100Percent)
open Lib
open Market (LimitOrder RationalDistance Eval safe_eq_ok scale)

variable {o : LimitOrder} {group : Nat} {idx idx' before rest : OrderGroups} {itr : OrderGroup}

/-- The ratio of the ends of a full group, and its inverse -/
def upRatio (group : Nat) : ℚ := (graphene100Percent + group) / graphene100Percent

def downRatio (group : Nat) : ℚ := graphene100Percent / (graphene100Percent + group)

/-- How far the groups of a type reach -/
def reach [RationalDistance] (group : Nat) : Reach := ⟨fun v => scaledRate v (upRatio group), fun v => scaledRate v (downRatio group)⟩

/-- The column of the groups of a type that an order may be in -/
def columnOf (group : Nat) (o : LimitOrder) : Column := ⟨group, o.sellPrice.base.assetId, o.sellPrice.quote.assetId⟩

def lotOf (o : LimitOrder) : Lot ℚ := ⟨o.sellPrice.rate, o.forSale⟩

/-! ### Prices within a market -/

section
variable {p q : Price}

theorem lt_iff_rate (hp : p.Valid) (hq : q.Valid) (hbase : p.base.assetId = q.base.assetId) (hquote : p.quote.assetId = q.quote.assetId) :
    p.lt q = true ↔ p.rate < q.rate :=
  (Price.lt_iff hp hq).trans (Price.key_lt_iff hbase hquote)

theorem gt_iff_rate (hp : p.Valid) (hq : q.Valid) (hbase : p.base.assetId = q.base.assetId) (hquote : p.quote.assetId = q.quote.assetId) :
    p.gt q = true ↔ q.rate < p.rate :=
  (Price.gt_iff hp hq).trans (Price.key_lt_iff hbase.symm hquote.symm)

/-- What the code knows about a price after it has capped it -/
structure CappedPrice.Caps (c : CappedPrice) (p : Price) : Prop where
  valid : c.price.Valid
  base : c.price.base.assetId = p.base.assetId
  quote : c.price.quote.assetId = p.quote.assetId
  rate : c.price.rate = capped p.rate
  max : c.max = true ↔ greatest < p.rate
  min : c.min = true ↔ p.rate < least

theorem CappedPrice.of_caps (hp : p.Valid) : (CappedPrice.of p).Caps p := by
  have hmax : (Price.max p.base.assetId p.quote.assetId).Valid := Price.max_valid hp.assets
  have hmin : (Price.min p.base.assetId p.quote.assetId).Valid := Price.min_valid hp.assets
  have hgt : p.gt (Price.max p.base.assetId p.quote.assetId) = true ↔ greatest < p.rate := by
    rw [gt_iff_rate hp hmax rfl rfl, Price.rate_max, greatest]
  have hlt : p.lt (Price.min p.base.assetId p.quote.assetId) = true ↔ p.rate < least := by
    rw [lt_iff_rate hp hmin rfl rfl, Price.rate_min, least, one_div]
  unfold CappedPrice.of
  dsimp only
  by_cases hhigh : greatest < p.rate
  · rw [if_pos (hgt.mpr hhigh)]
    refine ⟨hmax, rfl, rfl, ?_, iff_of_true rfl hhigh, iff_of_false Bool.false_ne_true (least_le_greatest.trans hhigh.le).not_gt⟩
    exact Price.rate_max.trans (capped_of_greatest hhigh).symm
  · rw [if_neg (hgt.not.mpr hhigh)]
    by_cases hlow : p.rate < least
    · rw [if_pos (hlt.mpr hlow)]
      refine ⟨hmin, rfl, rfl, ?_, iff_of_false Bool.false_ne_true hhigh, iff_of_true rfl hlow⟩
      rw [Price.rate_min, capped_le_least hlow.le, least, one_div]
    · rw [if_neg (hlt.not.mpr hlow)]
      refine ⟨hp, rfl, rfl, ?_, iff_of_false Bool.false_ne_true hhigh, iff_of_false Bool.false_ne_true hlow⟩
      rw [capped, if_neg hhigh, if_neg hlow]

end

/-! ### Reach -/

theorem upRatio_gt (hgroup : 0 < group) : 1 < upRatio group := by
  have hpos : (0 : ℚ) < group := by exact_mod_cast hgroup
  have hdenom : (0 : ℚ) < graphene100Percent := by norm_num [graphene100Percent]
  exact (one_lt_div hdenom).mpr (lt_add_of_pos_right _ hpos)

theorem downRatio_lt (hgroup : 0 < group) : 0 < downRatio group ∧ downRatio group < 1 := by
  have hpos : (0 : ℚ) < group := by exact_mod_cast hgroup
  have hnum : (0 : ℚ) < graphene100Percent := by norm_num [graphene100Percent]
  have hdenom : (0 : ℚ) < graphene100Percent + group := add_pos hnum hpos
  exact ⟨div_pos hnum hdenom, (div_lt_one hdenom).mpr (lt_add_of_pos_right _ hpos)⟩

section
variable [RationalDistance] {c : Column} {p np : Price}

theorem scale_up (hgroup : 0 < group) (h : scale p (upRatio group) = .ok np) :
    np.Valid ∧ np.base.assetId = p.base.assetId ∧ np.quote.assetId = p.quote.assetId ∧ np.rate = (reach group).up p.rate := by
  have hone := upRatio_gt hgroup
  refine scale_eq_ok h (one_pos.trans hone) fun heq => ?_
  exact (Rat.num_le_denom_iff.mp heq.le).not_gt hone

theorem scale_down (hgroup : 0 < group) (h : scale p (downRatio group) = .ok np) :
    np.Valid ∧ np.base.assetId = p.base.assetId ∧ np.quote.assetId = p.quote.assetId ∧ np.rate = (reach group).down p.rate := by
  obtain ⟨hpos, hone⟩ := downRatio_lt hgroup
  exact scale_eq_ok h hpos (Rat.num_lt_denom_iff.mpr hone).ne

theorem OrderGroups.Ordered.bounded (h : idx.Ordered) (hgroup : 0 < group) : (reach group).Bounded (idx.bands c) := by
  constructor
  · rintro b ⟨e, he, -, rfl⟩
    have hone := upRatio_gt hgroup
    refine (scaledRate_bounds (h.sound e he).minValid.rate_pos (one_pos.trans hone)).1 ?_
    exact not_le.mp fun hle => (Rat.num_le_denom_iff.mp hle).not_gt hone
  · rintro b ⟨e, he, -, rfl⟩
    obtain ⟨hpos, hone⟩ := downRatio_lt hgroup
    exact (scaledRate_bounds (h.sound e he).maxValid.rate_pos hpos).2 (Rat.num_lt_denom_iff.mpr hone)

end

/-! ### What becomes of the groups -/

section
variable {capped : CappedPrice} {updateMax : Bool} {lots : List (Lot ℚ)}

open OrderGroups

/-- A new group starts and ends at the order. -/
theorem createOgo_becomes (h : idx.Ordered) (hout : ∀ b ∈ idx.bands (columnOf group o), ¬b.Contains o.sellPrice.rate)
    (hlo : ∀ b ∈ idx.bands (columnOf group o), b.lo ≤ b.hi) :
    Becomes idx (createOgo o group idx) (columnOf group o)
      (insert ⟨o.sellPrice.rate, o.sellPrice.rate, o.forSale⟩ (idx.bands (columnOf group o))) := by
  refine h.becomes_put (k := ⟨group, o.sellPrice⟩) (fun b hb heq => hout b hb ?_) ⟨o.valid, o.valid, rfl, rfl⟩
  exact ⟨heq.le, heq.ge.trans (hlo b hb)⟩

/-- A group comes down to the order. -/
theorem rekey_becomes (h : Ordered (before ++ itr :: rest)) (hcol : itr.1.column = columnOf group o)
    (hfresh : ∀ b ∈ bands (before ++ itr :: rest) (columnOf group o) \ {itr.band}, b.lo ≠ o.sellPrice.rate)
    (hok : rekey o group itr (before ++ rest) = .ok idx') :
    Becomes (before ++ itr :: rest) idx' (columnOf group o)
      (insert ⟨o.sellPrice.rate, itr.band.hi, itr.band.total + o.forSale⟩ (bands (before ++ itr :: rest) (columnOf group o) \ {itr.band})) := by
  obtain ⟨total, htotal, hok⟩ := bind_eq_ok.mp hok
  obtain rfl := Except.ok.inj hok
  obtain ⟨-, rfl⟩ := safe_eq_ok.mp htotal
  have hsound := h.sound itr (List.mem_append_right _ List.mem_cons_self)
  obtain ⟨-, hbase, hquote⟩ := Column.mk.inj hcol
  have hrekey := h.becomes_rekey (k := ⟨group, o.sellPrice⟩) (d := ⟨itr.2.maxPrice, o.forSale + itr.2.totalForSale⟩) hcol hfresh
    ⟨o.valid, hsound.maxValid, hsound.base.trans hbase, hsound.quote.trans hquote⟩
  rw [show itr.band.total + o.forSale = o.forSale + itr.2.totalForSale from add_comm _ _]
  exact hrekey

/-- A group goes up to the order, or stays. -/
theorem assign_becomes {maxPrice : Price} (h : Ordered (before ++ itr :: rest)) (hcol : itr.1.column = columnOf group o)
    (hmax : maxPrice = o.sellPrice ∨ maxPrice = itr.2.maxPrice)
    (hok : (do
      let total ← Market.safe (itr.2.totalForSale + o.forSale)
      return before ++ (itr.1, { maxPrice, totalForSale := total }) :: rest : Eval OrderGroups) = .ok idx') :
    Becomes (before ++ itr :: rest) idx' (columnOf group o)
      (insert ⟨itr.band.lo, maxPrice.rate, itr.band.total + o.forSale⟩ (bands (before ++ itr :: rest) (columnOf group o) \ {itr.band})) := by
  obtain ⟨total, htotal, hok⟩ := bind_eq_ok.mp hok
  obtain rfl := Except.ok.inj hok
  obtain ⟨-, rfl⟩ := safe_eq_ok.mp htotal
  have hsound := h.sound itr (List.mem_append_right _ List.mem_cons_self)
  obtain ⟨-, hbase, hquote⟩ := Column.mk.inj hcol
  rw [← hcol]
  refine h.becomes_assign ?_
  rcases hmax with rfl | rfl
  · exact ⟨hsound.minValid, o.valid, hbase.symm, hquote.symm⟩
  · exact ⟨hsound.minValid, hsound.maxValid, hsound.base, hsound.quote⟩

theorem joinNext_becomes (hcapped : capped.Caps o.sellPrice) (h : Ordered (before ++ itr :: rest)) (hcol : itr.1.column = columnOf group o)
    (hg : Gathered (bands (before ++ itr :: rest) (columnOf group o)) lots) (he : Edges (bands (before ++ itr :: rest) (columnOf group o)))
    (hnext : Next (bands (before ++ itr :: rest) (columnOf group o)) (Grouped.capped o.sellPrice.rate) itr.band)
    (hup : updateMax = true ↔ itr.band.hi < Grouped.capped o.sellPrice.rate)
    (hok : joinNext o group capped updateMax before itr rest = .ok idx') :
    Becomes (before ++ itr :: rest) idx' (columnOf group o)
      (insert (joinedNext itr.band (lotOf o)) (bands (before ++ itr :: rest) (columnOf group o) \ {itr.band})) := by
  have hsound := h.sound itr (List.mem_append_right _ List.mem_cons_self)
  obtain ⟨-, hbase, hquote⟩ := Column.mk.inj hcol
  have hlow : (capped.min && o.sellPrice.lt itr.1.minPrice) = true ↔ o.sellPrice.rate < least ∧ o.sellPrice.rate < itr.band.lo := by
    rw [Bool.and_eq_true, hcapped.min, lt_iff_rate o.valid hsound.minValid hbase.symm hquote.symm]
    rfl
  have hwide : (updateMax || (capped.max && o.sellPrice.gt itr.2.maxPrice)) = true ↔
      itr.band.hi < Grouped.capped o.sellPrice.rate ∨ (greatest < o.sellPrice.rate ∧ itr.band.hi < o.sellPrice.rate) := by
    rw [Bool.or_eq_true, Bool.and_eq_true, hup, hcapped.max,
      gt_iff_rate o.valid hsound.maxValid (hsound.base.trans hbase).symm (hsound.quote.trans hquote).symm]
    rfl
  unfold joinNext at hok
  split at hok
  · rename_i hmin
    have hmin' := hlow.mp hmin
    have hjoined : joinedNext itr.band (lotOf o) = ⟨o.sellPrice.rate, itr.band.hi, itr.band.total + o.forSale⟩ := if_pos hmin'
    rw [hjoined]
    refine rekey_becomes h hcol (fun b hb heq => ?_) hok
    have hhi := low_apart hg he hnext hmin'.1 hb.1 hb.2
    exact ((hmin'.2.trans_le (hg.ordered itr.band hnext.mem)).trans hhi).ne heq.symm
  · rename_i hmin
    have hjoined : joinedNext itr.band (lotOf o) = ⟨itr.band.lo, (if updateMax || (capped.max && o.sellPrice.gt itr.2.maxPrice)
        then o.sellPrice else itr.2.maxPrice).rate, itr.band.total + o.forSale⟩ := by
      refine (if_neg (hlow.not.mp hmin)).trans ?_
      by_cases hup' : (updateMax || (capped.max && o.sellPrice.gt itr.2.maxPrice)) = true
      · rw [if_pos hup', if_pos]
        · rfl
        · exact hwide.mp hup'
      · rw [if_neg hup', if_neg]
        · rfl
        · exact hwide.not.mp hup'
    rw [hjoined]
    refine assign_becomes h hcol ?_ hok
    split
    · exact .inl rfl
    · exact .inr rfl

/-- The outcome for the column of the order -/
def PlacedIn [RationalDistance] (o : LimitOrder) (group : Nat) (idx idx' : OrderGroups) : Prop :=
  ∃ bands', Placed (reach group) (idx.bands (columnOf group o)) (lotOf o) bands' ∧ Becomes idx idx' (columnOf group o) bands'

variable [RationalDistance]

theorem createOgo_placed (hgroup : 0 < group) (h : idx.Ordered) (hg : Gathered (idx.bands (columnOf group o)) lots)
    (hnext : (reach group).NoneNext (idx.bands (columnOf group o)) (Grouped.capped o.sellPrice.rate))
    (hprevious : (reach group).NonePrevious (idx.bands (columnOf group o)) (Grouped.capped o.sellPrice.rate)) :
    PlacedIn o group idx (createOgo o group idx) := by
  refine ⟨_, .create hnext hprevious, ?_⟩
  exact createOgo_becomes h (create_outside hg (h.bounded hgroup) hnext hprevious) hg.ordered

theorem joinedPrevious_becomes (hcapped : capped.Caps o.sellPrice) (hgroup : 0 < group) (h : Ordered (before ++ itr :: rest))
    (hcol : itr.1.column = columnOf group o) (hg : Gathered (bands (before ++ itr :: rest) (columnOf group o)) lots)
    (hnext : (reach group).NoneNext (bands (before ++ itr :: rest) (columnOf group o)) (Grouped.capped o.sellPrice.rate))
    (hprevious : Previous (bands (before ++ itr :: rest) (columnOf group o)) (Grouped.capped o.sellPrice.rate) itr.band)
    (hok : (if capped.max && !o.sellPrice.lt itr.1.minPrice then do
      let maxPrice := if o.sellPrice.gt itr.2.maxPrice then o.sellPrice else itr.2.maxPrice
      let total ← Market.safe (itr.2.totalForSale + o.forSale)
      return before ++ (itr.1, { maxPrice, totalForSale := total }) :: rest
    else rekey o group itr (before ++ rest) : Eval OrderGroups) = .ok idx') :
    Becomes (before ++ itr :: rest) idx' (columnOf group o)
      (insert (joinedPrevious itr.band (lotOf o)) (bands (before ++ itr :: rest) (columnOf group o) \ {itr.band})) := by
  have hsound := h.sound itr (List.mem_append_right _ List.mem_cons_self)
  obtain ⟨-, hbase, hquote⟩ := Column.mk.inj hcol
  have hhigh : (capped.max && !o.sellPrice.lt itr.1.minPrice) = true ↔ greatest < o.sellPrice.rate ∧ itr.band.lo ≤ o.sellPrice.rate := by
    rw [Bool.and_eq_true, hcapped.max, Bool.not_eq_true', ← Bool.not_eq_true,
      lt_iff_rate o.valid hsound.minValid hbase.symm hquote.symm, not_lt]
    rfl
  have hgt : o.sellPrice.gt itr.2.maxPrice = true ↔ itr.band.hi < o.sellPrice.rate :=
    gt_iff_rate o.valid hsound.maxValid (hsound.base.trans hbase).symm (hsound.quote.trans hquote).symm
  split at hok
  · rename_i hmax
    have hjoined : joinedPrevious itr.band (lotOf o) = ⟨itr.band.lo,
        (if o.sellPrice.gt itr.2.maxPrice then o.sellPrice else itr.2.maxPrice).rate, itr.band.total + o.forSale⟩ := by
      refine (if_pos (hhigh.mp hmax)).trans ?_
      by_cases hup : o.sellPrice.gt itr.2.maxPrice = true
      · rw [if_pos hup, max_eq_right]
        · rfl
        · exact (hgt.mp hup).le
      · rw [if_neg hup, max_eq_left]
        · rfl
        · exact not_lt.mp (hgt.not.mp hup)
    rw [hjoined]
    refine assign_becomes h hcol ?_ hok
    split
    · exact .inl rfl
    · exact .inr rfl
  · rename_i hmax
    have hnot := hhigh.not.mp hmax
    have hjoined : joinedPrevious itr.band (lotOf o) = ⟨o.sellPrice.rate, itr.band.hi, itr.band.total + o.forSale⟩ := if_neg hnot
    rw [hjoined]
    refine rekey_becomes h hcol (fun b hb heq => ?_) hok
    have hlt := hprevious.lt_of_not hnot
    rcases down_apart hg (h.bounded hgroup) hnext hprevious hb.1 hb.2 with hhi | hhi
    · exact (heq ▸ hg.ordered b hb.1).not_gt hhi
    · exact ((hlt.trans_le (hg.ordered itr.band hprevious.mem)).trans hhi).ne heq.symm

theorem joinPrevious_placed (hcapped : capped.Caps o.sellPrice) (hgroup : 0 < group) (h : idx.Ordered)
    (hg : Gathered (idx.bands (columnOf group o)) lots) (happend : idx.before ⟨group, capped.price⟩ ++ rest = idx)
    (hnext : (reach group).NoneNext (idx.bands (columnOf group o)) (Grouped.capped o.sellPrice.rate))
    (hok : joinPrevious o group capped (idx.before ⟨group, capped.price⟩) rest = .ok idx') : PlacedIn o group idx idx' := by
  have hkey : (⟨group, capped.price⟩ : LimitOrderGroupKey).column = columnOf group o :=
    Column.mk.injEq .. ▸ ⟨rfl, hcapped.base, hcapped.quote⟩
  have hnil := h.lo_le_of_before_nil (k := ⟨group, capped.price⟩) hcapped.valid
  have hother := fun itr => h.lo_le_of_before_last (k := ⟨group, capped.price⟩) (i := itr) hcapped.valid
  have hlast := fun itr => h.previous_of_before_last (k := ⟨group, capped.price⟩) (i := itr) hcapped.valid
  simp only [hkey, hcapped.rate] at hnil hother hlast
  generalize idx.before ⟨group, capped.price⟩ = before at happend hok hnil hother hlast
  subst happend
  unfold joinPrevious at hok
  split at hok
  · rename_i hnone
    obtain rfl := Except.ok.inj hok
    exact createOgo_placed hgroup h hg hnext (.inl (hnil hnone))
  · rename_i itr hsome
    split at hok
    · rename_i hmatches
      rw [Bool.not_eq_true', ← Bool.not_eq_true, OrderGroup.matches_iff] at hmatches
      obtain rfl := Except.ok.inj hok
      exact createOgo_placed hgroup h hg hnext (.inl (hother itr hsome hmatches))
    · rename_i hmatches
      rw [Bool.not_eq_true', Bool.not_eq_false, OrderGroup.matches_iff] at hmatches
      have hcol : itr.1.column = columnOf group o := hmatches
      have hprevious := hlast itr hsome hcol
      obtain ⟨minPrice, hmin, hok⟩ := bind_eq_ok.mp hok
      obtain ⟨hminValid, hminBase, hminQuote, hminRate⟩ := scale_down hgroup hmin
      have hmem : itr ∈ before ++ rest := List.mem_append_left _ (List.mem_of_getLast? hsome)
      have hsound := h.sound itr hmem
      obtain ⟨-, hbase, hquote⟩ := Column.mk.inj hcol
      have hfar : capped.price.lt minPrice = true ↔ Grouped.capped o.sellPrice.rate < (reach group).down itr.band.hi := by
        rw [lt_iff_rate hcapped.valid hminValid, hcapped.rate, hminRate]
        · rfl
        · rw [hcapped.base, hminBase, hsound.base, hbase]
        · rw [hcapped.quote, hminQuote, hsound.quote, hquote]
      split at hok
      · rename_i hlt
        obtain rfl := Except.ok.inj hok
        exact createOgo_placed hgroup h hg hnext (.inr ⟨itr.band, hprevious, hfar.mp hlt⟩)
      · -- the group is the last one before the order
        obtain ⟨init, rfl⟩ := List.getLast?_eq_some_iff.mp hsome
        rw [List.dropLast_concat] at hok
        rw [List.append_assoc, List.singleton_append] at h hg hnext hprevious ⊢
        exact ⟨_, .previous itr.band hnext hprevious, joinedPrevious_becomes hcapped hgroup h hcol hg hnext hprevious hok⟩

/-- A round of the loop places the order. -/
theorem insertIn_placed (hgroup : 0 < group) (h : idx.Ordered) (hg : Gathered (idx.bands (columnOf group o)) lots)
    (he : Edges (idx.bands (columnOf group o))) (hok : insertIn o group idx = .ok idx') : PlacedIn o group idx idx' := by
  have hcapped := CappedPrice.of_caps o.valid
  have hkey : (⟨group, (CappedPrice.of o.sellPrice).price⟩ : LimitOrderGroupKey).column = columnOf group o :=
    Column.mk.injEq .. ▸ ⟨rfl, hcapped.base, hcapped.quote⟩
  have hnil := h.lt_lo_of_lowerBound_nil (k := ⟨group, (CappedPrice.of o.sellPrice).price⟩) hcapped.valid
  have hother := fun itr rest => h.lt_lo_of_lowerBound_cons (k := ⟨group, (CappedPrice.of o.sellPrice).price⟩) (i := itr) (r := rest)
    hcapped.valid
  have hcons := fun itr rest => h.next_of_lowerBound_cons (k := ⟨group, (CappedPrice.of o.sellPrice).price⟩) (i := itr) (r := rest)
    hcapped.valid
  have happend : idx.before ⟨group, (CappedPrice.of o.sellPrice).price⟩ ++ idx.lowerBound _ = idx := OrderGroups.before_append
  simp only [hkey, hcapped.rate] at hnil hother hcons
  unfold insertIn at hok
  split at hok
  · rename_i hempty
    obtain rfl := List.isEmpty_iff.mp hempty
    obtain rfl := Except.ok.inj hok
    have hnone : ∀ b, b ∉ bands [] (columnOf group o) := by
      rintro b ⟨e, he, -⟩
      exact List.not_mem_nil he
    exact createOgo_placed hgroup h hg (.inl fun b hb => absurd hb (hnone b)) (.inl fun b hb => absurd hb (hnone b))
  · dsimp only at hok
    split at hok
    · rename_i hlower
      rw [hlower] at happend
      exact joinPrevious_placed hcapped hgroup h hg happend (.inl (hnil hlower)) hok
    · rename_i itr rest hlower
      rw [hlower] at happend
      split at hok
      · rename_i hmatches
        rw [Bool.not_eq_true', ← Bool.not_eq_true, OrderGroup.matches_iff] at hmatches
        exact joinPrevious_placed hcapped hgroup h hg happend (.inl (hother itr rest hlower hmatches)) hok
      · rename_i hmatches
        rw [Bool.not_eq_true', Bool.not_eq_false, OrderGroup.matches_iff] at hmatches
        have hcol : itr.1.column = columnOf group o := hmatches
        have hnext := hcons itr rest hlower hcol
        have hsound := h.sound itr (happend ▸ List.mem_append_right _ List.mem_cons_self)
        obtain ⟨-, hbase, hquote⟩ := Column.mk.inj hcol
        have hgt : (CappedPrice.of o.sellPrice).price.gt itr.2.maxPrice = true ↔ itr.band.hi < Grouped.capped o.sellPrice.rate := by
          rw [gt_iff_rate hcapped.valid hsound.maxValid, hcapped.rate]
          · rfl
          · rw [hcapped.base, hsound.base, hbase]
          · rw [hcapped.quote, hsound.quote, hquote]
        split at hok
        · rename_i habove
          obtain ⟨maxPrice, hmax, hjoin⟩ := bind_eq_ok.mp hok
          obtain ⟨hmaxValid, hmaxBase, hmaxQuote, hmaxRate⟩ := scale_up hgroup hmax
          have hfar : (CappedPrice.of o.sellPrice).price.gt maxPrice = true ↔ (reach group).up itr.band.lo < Grouped.capped o.sellPrice.rate := by
            rw [gt_iff_rate hcapped.valid hmaxValid, hcapped.rate, hmaxRate]
            · rfl
            · rw [hcapped.base, hmaxBase, hbase]
            · rw [hcapped.quote, hmaxQuote, hquote]
          split at hjoin
          · rename_i hout
            have hnot : ¬(reach group).Near itr.band (Grouped.capped o.sellPrice.rate) :=
              not_or.mpr ⟨(hgt.mp habove).not_ge, (hfar.mp hout).not_ge⟩
            exact joinPrevious_placed hcapped hgroup h hg happend (.inr ⟨itr.band, hnext, hnot⟩) hjoin
          · rename_i hout
            generalize idx.before ⟨group, (CappedPrice.of o.sellPrice).price⟩ = before at happend hjoin
            clear hok
            subst happend
            refine ⟨_, .next itr.band hnext (.inr (not_lt.mp (hfar.not.mp hout))), ?_⟩
            exact joinNext_becomes hcapped h hcol hg he hnext (iff_of_true rfl (hgt.mp habove)) hjoin
        · rename_i habove
          generalize idx.before ⟨group, (CappedPrice.of o.sellPrice).price⟩ = before at happend hok
          subst happend
          refine ⟨_, .next itr.band hnext (.inl (not_lt.mp (hgt.not.mp habove))), ?_⟩
          exact joinNext_becomes hcapped h hcol hg he hnext (iff_of_false Bool.false_ne_true (hgt.not.mp habove)) hok

end

end Khc.Grouped

/-! An order is taken from the group that holds it, in each round of the loop of `remove_order`. -/

namespace Khc.Grouped

open Chain (Asset Price)
open Lib
open Market (LimitOrder Eval safe_eq_ok)
open OrderGroups

variable {o : LimitOrder} {group : Nat} {idx idx' : LimitOrderGroupIndex} {lots : List (Lot ℚ)}

/-- The lower bound of an order is the group that holds it. -/
theorem lowerBound_holds (h : idx.ogData.Ordered) (hg : Gathered (idx.ogData.bands (columnOf group o)) (lotOf o :: lots)) :
    ∃ (itr : OrderGroup) (rest : OrderGroups), idx.ogData.lowerBound ⟨group, o.sellPrice⟩ = itr :: rest ∧ itr.1.column = columnOf group o ∧
      itr.band ∈ idx.ogData.bands (columnOf group o) ∧ itr.band.Contains (lotOf o).point := by
  obtain ⟨b, hb, hin⟩ := hg.covered (lotOf o) List.mem_cons_self
  cases hlower : idx.ogData.lowerBound ⟨group, o.sellPrice⟩ with
  | nil => exact absurd (h.lt_lo_of_lowerBound_nil (k := ⟨group, o.sellPrice⟩) o.valid hlower b hb) hin.1.not_gt
  | cons itr rest =>
    by_cases hcol : itr.1.column = columnOf group o
    · have hnext := h.next_of_lowerBound_cons (k := ⟨group, o.sellPrice⟩) o.valid hlower hcol
      -- the band that contains the order contains the start of this one
      have hlo := hnext.greatest b hb hin.1
      have heq : itr.band = b :=
        hg.eq_of_contains hnext.mem hb ⟨le_rfl, hg.ordered _ hnext.mem⟩ ⟨hlo, hnext.le.trans hin.2⟩
      exact ⟨itr, rest, rfl, hcol, hnext.mem, heq ▸ hin⟩
    · exact absurd (h.lt_lo_of_lowerBound_cons (k := ⟨group, o.sellPrice⟩) o.valid hlower hcol b hb) hin.1.not_gt

/-- The group is found, and it has at least as much for sale as the order. -/
theorem removeFrom_eq (h : idx.ogData.Ordered) (hg : Gathered (idx.ogData.bands (columnOf group o)) (lotOf o :: lots))
    (hpos : ∀ l ∈ lots, 0 < l.amount) :
    ∃ (before : OrderGroups) (itr : OrderGroup) (rest : OrderGroups), idx.ogData = before ++ itr :: rest ∧ itr.1.column = columnOf group o ∧
      itr.band ∈ idx.ogData.bands (columnOf group o) ∧ itr.band.Contains (lotOf o).point ∧
      ∀ removeEmpty, removeFrom o removeEmpty idx group =
        if !removeEmpty || itr.2.totalForSale > o.forSale then do
          let total ← Market.safe (itr.2.totalForSale - o.forSale)
          return { idx with ogData := before ++ (itr.1, { itr.2 with totalForSale := total }) :: rest }
        else return { idx with ogData := before ++ rest } := by
  obtain ⟨itr, rest, hlower, hcol, hmem, hin⟩ := lowerBound_holds h hg
  have happend : idx.ogData.before ⟨group, o.sellPrice⟩ ++ idx.ogData.lowerBound _ = idx.ogData := before_append
  rw [hlower] at happend
  refine ⟨_, itr, rest, happend.symm, hcol, hmem, hin, fun removeEmpty => ?_⟩
  have hsound := h.sound itr (happend ▸ List.mem_append_right _ List.mem_cons_self)
  obtain ⟨-, hbase, hquote⟩ := Column.mk.inj hcol
  have hlt : itr.2.maxPrice.lt o.sellPrice = true ↔ itr.band.hi < o.sellPrice.rate :=
    lt_iff_rate hsound.maxValid o.valid (hsound.base.trans hbase) (hsound.quote.trans hquote)
  have hmatches : itr.matches group o = true := OrderGroup.matches_iff.mpr hcol
  have htotal : o.forSale ≤ itr.2.totalForSale := by
    have hsum := hg.total itr.band hmem
    rw [Band.sum_cons, if_pos hin] at hsum
    have hnonneg : 0 ≤ itr.band.sum lots := Band.sum_nonneg fun l hl => (hpos l hl).le
    exact (le_add_of_nonneg_right hnonneg).trans_eq hsum.symm
  unfold removeFrom
  dsimp only
  rw [hlower]
  dsimp only
  rw [hmatches, Bool.not_true, Bool.false_or, if_neg (hlt.not.mpr hin.2.not_gt), if_neg htotal.not_gt]

/-- Before a modification, the order counts for nothing in its group. -/
theorem removeFrom_modified (h : idx.ogData.Ordered) (hg : Gathered (idx.ogData.bands (columnOf group o)) (lotOf o :: lots))
    (hpos : ∀ l ∈ lots, 0 < l.amount) (hok : removeFrom o false idx group = .ok idx') :
    idx'.log = idx.log ∧ ∃ b ∈ idx.ogData.bands (columnOf group o), b.Contains o.sellPrice.rate ∧ Becomes idx.ogData idx'.ogData (columnOf group o)
      (insert { b with total := b.total - o.forSale } (idx.ogData.bands (columnOf group o) \ {b})) := by
  obtain ⟨before, itr, rest, happend, hcol, hmem, hin, heq⟩ := removeFrom_eq h hg hpos
  rw [heq, Bool.not_false, Bool.true_or, if_pos rfl] at hok
  obtain ⟨total, htotal, hok⟩ := bind_eq_ok.mp hok
  obtain rfl := Except.ok.inj hok
  obtain ⟨-, rfl⟩ := safe_eq_ok.mp htotal
  refine ⟨rfl, itr.band, hmem, hin, ?_⟩
  rw [happend] at h ⊢
  have hsound := h.sound itr (List.mem_append_right _ List.mem_cons_self)
  have hassign := h.becomes_assign (d := { itr.2 with totalForSale := itr.2.totalForSale - o.forSale })
    ⟨hsound.minValid, hsound.maxValid, hsound.base, hsound.quote⟩
  rw [hcol] at hassign
  exact hassign

/-- An order is removed. -/
theorem removeFrom_removed (h : idx.ogData.Ordered) (hg : Gathered (idx.ogData.bands (columnOf group o)) (lotOf o :: lots))
    (he : Edges (idx.ogData.bands (columnOf group o))) (hpos : ∀ l ∈ lots, 0 < l.amount) (hok : removeFrom o true idx group = .ok idx') :
    idx'.log = idx.log ∧ ∃ bands', Becomes idx.ogData idx'.ogData (columnOf group o) bands' ∧ Gathered bands' lots ∧ Edges bands' := by
  obtain ⟨before, itr, rest, happend, hcol, hmem, hin, heq⟩ := removeFrom_eq h hg hpos
  have hmore : o.forSale < itr.2.totalForSale ↔ ∃ l ∈ lots, itr.band.Contains l.point := by
    have hsum := hg.total itr.band hmem
    rw [Band.sum_cons, if_pos hin] at hsum
    rw [← Band.sum_pos_iff hpos, show itr.2.totalForSale = o.forSale + itr.band.sum lots from hsum]
    exact lt_add_iff_pos_right _
  by_cases hlt : o.forSale < itr.2.totalForSale
  · -- the group holds another order
    rw [heq, Bool.not_true, Bool.false_or, if_pos (decide_eq_true hlt)] at hok
    obtain ⟨total, htotal, hok⟩ := bind_eq_ok.mp hok
    obtain rfl := Except.ok.inj hok
    obtain ⟨-, rfl⟩ := safe_eq_ok.mp htotal
    refine ⟨rfl, _, ?_, (hg.empty hmem hin).forget ?_, he.replace hmem id id⟩
    · rw [happend] at h ⊢
      have hsound := h.sound itr (List.mem_append_right _ List.mem_cons_self)
      have hassign := h.becomes_assign (d := { itr.2 with totalForSale := itr.2.totalForSale - o.forSale })
        ⟨hsound.minValid, hsound.maxValid, hsound.base, hsound.quote⟩
      rw [hcol] at hassign
      exact hassign
    · rintro b (rfl | hb) hin'
      · exact hmore.mp hlt
      · exact absurd (hg.eq_of_contains hb.1 hmem hin' hin) hb.2
  · -- it is the only order in the group
    rw [heq, Bool.not_true, Bool.false_or, if_neg (by simpa using hlt)] at hok
    obtain rfl := Except.ok.inj hok
    refine ⟨rfl, _, ?_, hg.erase hmem hin fun l hl hin' => hlt (hmore.mpr ⟨l, hl, hin'⟩), he.subset Set.sdiff_subset⟩
    rw [happend] at h ⊢
    have herase := h.becomes_erase
    rw [hcol] at herase
    exact herase

end Khc.Grouped
