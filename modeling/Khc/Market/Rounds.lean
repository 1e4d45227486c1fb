import Khc.Market.Book

/-! The rounds in which a new limit order is matched: each of them is with the best order that is left, and no round is
    better for the new order than the one before. -/

namespace Khc.Market

open Lib
open Chain (Asset Price AccountId AssetId)

namespace Database

/-! ### Rounds -/

/-- A call order that the feed calls -/
def Called (sell : AssetId) (m : CallMarket) (c : CallOrder) : Prop := c.debtType = sell ∧ ¬c.callPrice.gt m.feedPrice.inv

/-- The taker is matched with a limit order at the price of that one, or with a call order that the feed calls at the squeeze
    price. -/
inductive Round (taker : Nat) (m : Option CallMarket) : Database → Price → Database → Prop
  | limit {d d' : Database} {usd core : LimitOrder} {result : Nat} (husd : d.findLimitOrder taker = some usd)
      (hcore : d.findLimitOrder core.id = some core) (h : d.matchLimit usd core core.sellPrice = .ok (result, d')) :
      Round taker m d core.sellPrice d'
  | call {d d' : Database} {bid : LimitOrder} {ask : CallOrder} {c : CallMarket} {fuel result : Nat} (hm : m = some c)
      (hbid : d.findLimitOrder taker = some bid) (hask : ask ∈ d.callOrders) (hcalled : Called bid.sellAssetId c ask)
      (h : d.matchCall fuel bid ask c.callMatchPrice c.feedPrice c.maintenanceCollateralRatio = .ok (result, d')) :
      Round taker m d c.callMatchPrice d'

/-- Rounds one after the other, each with the state that it starts from and its price -/
inductive Rounds (taker : Nat) (m : Option CallMarket) : Database → List (Database × Price) → Database → Prop
  | nil {d : Database} : Rounds taker m d [] d
  | cons {d d₁ d' : Database} {p : Price} {l : List (Database × Price)} (h : Round taker m d p d₁)
      (hs : Rounds taker m d₁ l d') : Rounds taker m d ((d, p) :: l) d'

/-- No order of the other side offers the taker a better price: no limit order up to the greatest price, and no call order
    that the feed calls. -/
structure Best (t : LimitOrder) (m : Option CallMarket) (x : Database × Price) : Prop where
  limits : ∀ o ∈ x.1.limitOrders, o.Opposes t → o.sellPrice.rate ≤ Chain.maxShareSupply → o.sellPrice.rate ≤ x.2.rate
  calls : ∀ c ∈ m, (∃ ask ∈ x.1.callOrders, Called t.sellAssetId c ask) → c.callMatchPrice.rate ≤ x.2.rate

/-- What is left of the taker, if anything, would receive nothing. -/
def Spent (d : Database) (taker : Nat) : Prop := ∀ o, d.findLimitOrder taker = some o → ¬o.Worthwhile

/-- The orders of the book that cross the taker are among the makers, the best first. -/
structure Shows (d : Database) (t : LimitOrder) (makers : List LimitOrder) : Prop where
  crosses : ∀ o ∈ makers, o.Crosses t
  sorted : makers.Pairwise fun x y => y.sellPrice.rate ≤ x.sellPrice.rate
  prices : ∀ o ∈ makers, ∀ o', d.findLimitOrder o.id = some o' → o'.sellPrice = o.sellPrice
  all : ∀ o ∈ d.limitOrders, o.Crosses t → o.sellPrice.rate ≤ Chain.maxShareSupply →
    ∃ o' ∈ makers, o'.id = o.id ∧ o'.sellPrice = o.sellPrice
  taker : ∀ o, d.findLimitOrder t.id = some o → o.sellPrice = t.sellPrice

section
variable {taker fuel : Nat} {m : Option CallMarket} {d d' d'' : Database} {p : Price} {l l' : List (Database × Price)}
  {t usd core : LimitOrder} {makers rest : List LimitOrder} {result : Nat} {finished : Bool} {c : CallMarket}

theorem Rounds.append (h : Rounds taker m d l d') (h' : Rounds taker m d' l' d'') : Rounds taker m d (l ++ l') d'' := by
  induction h with
  | nil => exact h'
  | cons hround _ ih => exact .cons hround (ih h')

/-- An order that is found after some trades comes from one that was found before. -/
theorem Trades.findLimitOrder {o' : LimitOrder} {id : Nat} (h : Trades (some taker) d d') (hd : d.Sound)
    (ho' : d'.findLimitOrder id = some o') : ∃ o, d.findLimitOrder id = some o ∧ o'.sellPrice = o.sellPrice := by
  obtain ⟨F, hF, -⟩ := h
  obtain ⟨o, ho, hrest⟩ := exists_of_sublistForall₂ hF.limits (List.mem_of_find?_eq_some ho')
  have hid : o'.id = id := by simpa using List.find?_some ho'
  refine ⟨o, ?_, hrest.price_eq⟩
  rw [← hid, hrest.id_eq]
  exact hd.limits.find?_of_mem ho

/-- Trades put no other orders into the book. -/
theorem Shows.trades (h : Shows d t makers) (htrades : Trades (some taker) d d') (hd : d.Sound) : Shows d' t makers where
  crosses := h.crosses
  sorted := h.sorted
  prices := by
    intro o ho o' ho'
    obtain ⟨o₁, ho₁, hprice⟩ := htrades.findLimitOrder hd ho'
    rw [hprice, h.prices o ho o₁ ho₁]
  all := by
    intro o ho hcross hrate
    obtain ⟨F, hF, -⟩ := htrades
    obtain ⟨o₁, ho₁, hrest⟩ := exists_of_sublistForall₂ hF.limits ho
    have hprice := hrest.price_eq
    obtain ⟨o₂, ho₂, hid, hprice₂⟩ := h.all o₁ ho₁ ((LimitOrder.crosses_congr hprice).mp hcross) (hprice ▸ hrate)
    exact ⟨o₂, ho₂, hid.trans hrest.id_eq.symm, hprice₂.trans hprice.symm⟩
  taker := by
    intro o ho
    obtain ⟨o₁, ho₁, hprice⟩ := htrades.findLimitOrder hd ho
    rw [hprice, h.taker o₁ ho₁]

/-- When the first maker is gone, the other ones are shown. -/
theorem Shows.tail {o : LimitOrder} (h : Shows d t (o :: makers)) (hgone : d.findLimitOrder o.id = none) :
    Shows d t makers where
  crosses := fun o' ho' => h.crosses o' (List.mem_cons_of_mem _ ho')
  sorted := h.sorted.of_cons
  prices := fun o' ho' => h.prices o' (List.mem_cons_of_mem _ ho')
  all := by
    intro o' ho' hcross hrate
    obtain ⟨o₁, ho₁, hid, hprice⟩ := h.all o' ho' hcross hrate
    rcases List.mem_cons.mp ho₁ with rfl | ho₁
    · rw [hid, findLimitOrder, List.find?_eq_none] at hgone
      exact absurd (decide_eq_true rfl) (hgone o' ho')
    · exact ⟨o₁, ho₁, hid, hprice⟩
  taker := h.taker

theorem getLimitOrder_eq_ok {id : Nat} {o : LimitOrder} : d.getLimitOrder id = .ok o ↔ d.findLimitOrder id = some o := by
  unfold getLimitOrder
  split <;> simp_all

theorem id_of_findLimitOrder {id : Nat} {o : LimitOrder} (h : d.findLimitOrder id = some o) : o.id = id := by
  simpa using List.find?_some h

/-- An order that gets nothing at a price that it accepts gets nothing at its own. -/
theorem not_worthwhile_of_mul {o : LimitOrder} {x : Asset} (h : mul o.amountForSale p = .ok x) (hx : x.amount = 0)
    (hbase : p.base.assetId = o.receiveAssetId) (hrate : 1 ≤ p.rate * o.sellPrice.rate) : ¬o.Worthwhile := by
  rcases mul_eq_ok h with ⟨ha, -⟩ | ⟨-, -, h⟩
  · exact absurd (ha.trans hbase) o.valid.assets
  · obtain ⟨hpos, -, hamount⟩ := convert_eq_ok h
    rw [hx, Nat.add_zero, eq_comm, Int.natCast_eq_zero] at hamount
    have hquote : (0 : ℚ) < p.quote.amount * o.sellPrice.quote.amount := by exact_mod_cast Int.mul_pos hpos o.valid.quote_pos
    rw [Price.rate, Price.rate, div_mul_div_comm, one_le_div hquote] at hrate
    have hproducts : p.quote.amount * o.sellPrice.quote.amount ≤ p.base.amount * o.sellPrice.base.amount := by
      exact_mod_cast hrate
    have hquote' := Int.mul_pos hpos o.valid.quote_pos
    have hbase_pos : 0 < p.base.amount := by
      by_contra hneg
      have := Int.mul_nonpos_of_nonpos_of_nonneg (not_lt.mp hneg) o.valid.base_pos.le
      omega
    intro hworth
    refine absurd hamount ((toNat_div_ne_zero hpos hbase_pos.le).mpr ?_)
    have hmul := hproducts.trans (Int.mul_le_mul_of_nonneg_left hworth hbase_pos.le)
    rw [← Int.mul_assoc, Int.mul_comm p.base.amount] at hmul
    exact Int.le_of_mul_le_mul_right hmul o.valid.quote_pos

/-- A price that no maker shown beats -/
theorem Shows.best (h : Shows d t makers) (hmakers : ∀ o ∈ makers, o.sellPrice.rate ≤ p.rate)
    (haccepted : 1 ≤ p.rate * t.sellPrice.rate)
    (hcalls : ∀ c ∈ m, (∃ ask ∈ d.callOrders, Called t.sellAssetId c ask) → c.callMatchPrice.rate ≤ p.rate) :
    Best t m (d, p) where
  limits := by
    intro o ho hopposes hrate
    by_cases hcross : 1 ≤ o.sellPrice.rate * t.sellPrice.rate
    · obtain ⟨o₁, ho₁, -, hprice⟩ := h.all o ho ⟨hopposes, hcross⟩ hrate
      exact hprice ▸ hmakers o₁ ho₁
    · have hlt := (not_le.mp hcross).trans_le haccepted
      exact (lt_of_mul_lt_mul_right hlt t.valid.rate_pos.le).le
  calls := hcalls

/-- The first maker shown is the best of them. -/
theorem Shows.first_best {o : LimitOrder} (h : Shows d t (o :: makers)) : ∀ o' ∈ o :: makers, o'.sellPrice.rate ≤ o.sellPrice.rate :=
  List.forall_mem_cons.mpr ⟨le_refl _, fun _ ho' => List.rel_of_pairwise_cons h.sorted ho'⟩

/-- The makers are matched one after the other until the taker is finished or a maker is not to be matched. -/
theorem matchLimits_rounds {more : LimitOrder → Bool} (h : matchLimits t.id more makers d = .ok (finished, rest, d'))
    (hd : d.Sound) (hshows : d.Shows t makers)
    (hcalls : ∀ c ∈ m, (∃ ask ∈ d.callOrders, Called t.sellAssetId c ask) →
      ∀ o ∈ makers, more o → c.callMatchPrice.rate ≤ o.sellPrice.rate) :
    ∃ l used, Rounds t.id m d l d' ∧ makers = used ++ rest ∧ l.map Prod.snd = used.map LimitOrder.sellPrice ∧
      (∀ o ∈ used, more o) ∧ (∀ x ∈ l, Best t m x) ∧ d'.callOrders = d.callOrders ∧ (finished = true → d'.Spent t.id) ∧
      (finished = false → d'.Sound ∧ d'.Shows t rest ∧ ∀ o ∈ rest.head?, more o = false) := by
  induction makers generalizing d with
  | nil =>
    cases h
    exact ⟨[], [], .nil, rfl, rfl, by simp, by simp, rfl, by simp, fun _ => ⟨hd, hshows, by simp⟩⟩
  | cons o os ih =>
    rw [matchLimits] at h
    split at h
    · rename_i hmore
      simp only [bind_eq_ok, getLimitOrder_eq_ok] at h
      obtain ⟨usd, husd, core, hcore, ⟨result, d₁⟩, h₁, h⟩ := h
      have husd' := id_of_findLimitOrder husd
      have hcore' := id_of_findLimitOrder hcore
      have hprice := hshows.prices o List.mem_cons_self core hcore
      have hround : Round t.id m d o.sellPrice d₁ := hprice ▸ .limit husd (hcore'.symm ▸ hcore) h₁
      have hbest : Best t m (d, o.sellPrice) :=
        hshows.best hshows.first_best (hshows.crosses o List.mem_cons_self).2 fun c hc hasks =>
          hcalls c hc hasks o List.mem_cons_self hmore
      rcases matchLimit_trades h₁ hd (husd'.symm ▸ husd) (hcore'.symm ▸ hcore) core.valid.assets with
        ⟨rfl, rfl, x, hx, hzero⟩ | ⟨htrades, hkept, htaker, hmaker⟩
      · -- the taker would pay something for nothing
        cases pure_eq_ok.mp h
        refine ⟨[(d₁, o.sellPrice)], [o], .cons hround .nil, rfl, rfl, by simpa using hmore, by simpa using hbest, rfl,
          fun _ => ?_, by simp⟩
        intro usd' hfind
        obtain rfl : usd = usd' := Option.some.inj (husd.symm.trans hfind)
        obtain ⟨⟨hsell, -⟩, hcross⟩ := hshows.crosses o List.mem_cons_self
        have htaken := hshows.taker usd husd
        refine not_worthwhile_of_mul hx hzero ?_ ?_
        · rw [LimitOrder.receiveAssetId, htaken, hprice]
          exact hsell
        · rw [hprice, htaken]
          exact hcross
      · rw [husd'] at htrades htaker
        rw [hcore'] at hmaker
        split at h
        · rename_i htwo
          obtain ⟨l, used, hrounds, rfl, hprices, hused, hbests, hkept', hspent, hleft⟩ :=
            ih h (htrades.sound hd) ((hshows.trades htrades hd).tail (hmaker htwo)) (fun c hc hasks o' ho' =>
              hcalls c hc (hkept ▸ hasks) o' (List.mem_cons_of_mem _ ho'))
          exact ⟨(d, o.sellPrice) :: l, o :: used, .cons hround hrounds, rfl, by simp [hprices],
            List.forall_mem_cons.mpr ⟨hmore, hused⟩, List.forall_mem_cons.mpr ⟨hbest, hbests⟩, hkept'.trans hkept, hspent,
            hleft⟩
        · rename_i htwo
          cases pure_eq_ok.mp h
          refine ⟨[(d, o.sellPrice)], [o], .cons hround .nil, rfl, rfl, by simpa using hmore, by simpa using hbest, hkept,
            fun _ => ?_, by simp⟩
          intro usd' hfind
          rw [htaker htwo] at hfind
          cases hfind
    · rename_i hmore
      cases h
      exact ⟨[], [], .nil, rfl, rfl, by simp, by simp, rfl, by simp, fun _ => ⟨hd, hshows, by simpa using hmore⟩⟩

/-! ### Margin calls -/

/-- The margin calls are of the market that the order buys in, at a price that the order accepts. -/
structure Meets (d : Database) (t : LimitOrder) (c : CallMarket) : Prop where
  backing : ∃ b, d.bitasset t.sellAssetId = some b ∧ b.options.shortBackingAsset = t.receiveAssetId
  valid : c.callMatchPrice.Valid
  base : c.callMatchPrice.base.assetId = t.receiveAssetId
  quote : c.callMatchPrice.quote.assetId = t.sellAssetId
  accepted : 1 ≤ c.callMatchPrice.rate * t.sellPrice.rate
  feed : c.feedPrice.Valid

theorem Meets.trades (h : Meets d t c) (htrades : Trades (some taker) d d') : Meets d' t c := by
  obtain ⟨F, hF, -⟩ := htrades
  exact { h with backing := by simpa only [hF.bitasset] using h.backing }

/-- The margin calls that a new order meets are those of the current feed. -/
theorem callMarket_eq_ok (h : d.callMarket t = .ok (some c)) : ∃ b mssp, d.bitasset t.sellAssetId = some b ∧
    b.options.shortBackingAsset = t.receiveAssetId ∧ ¬b.currentFeed.settlementPrice.isNull ∧
    b.currentFeed.maxShortSqueezePrice = .ok mssp ∧ t.sellPrice.inv.le mssp.inv ∧
    c = ⟨mssp.inv, b.currentFeed.settlementPrice, b.currentFeed.maintenanceCollateralRatio⟩ := by
  unfold callMarket at h
  split at h
  · cases pure_eq_ok.mp h
  · rename_i b hb
    split at h
    · rename_i hcond
      obtain ⟨hback, -, -, hnull⟩ := hcond
      simp only [bind_eq_ok] at h
      obtain ⟨mssp, hmssp, h⟩ := h
      split at h
      · rename_i hle
        cases pure_eq_ok.mp h
        exact ⟨b, mssp, hb, hback, hnull, hmssp, hle, rfl⟩
      · cases pure_eq_ok.mp h
    · cases pure_eq_ok.mp h

theorem callMarket_meets (h : d.callMarket t = .ok (some c)) (hd : d.Sound) : Meets d t c := by
  obtain ⟨b, mssp, hb, hback, hnull, hmssp, hle, rfl⟩ := callMarket_eq_ok h
  obtain ⟨hmedian, hquote⟩ := hd.feeds _ _ hb
  obtain ⟨hvalid, hbase, hratio⟩ := hmedian.valid hnull
  obtain ⟨hassets, hassets'⟩ := PriceFeed.maxShortSqueezePrice_assets hmssp
  have hmssp' := (PriceFeed.maxShortSqueezePrice_valid hmssp hvalid hratio).inv
  have hbase' : mssp.inv.base.assetId = t.receiveAssetId := hassets'.trans ((hquote hnull).trans hback)
  have hquote' : mssp.inv.quote.assetId = t.sellAssetId := hassets.trans hbase
  refine ⟨⟨b, hb, hback⟩, hmssp', hbase', hquote', ?_, hvalid⟩
  rwa [Price.le_iff t.valid.inv hmssp', Price.key_le_iff hbase'.symm hquote'.symm, Price.rate_inv,
    inv_le_iff_one_le_mul₀ t.valid.rate_pos] at hle

/-- When the feed does not call the first call order of the market, it calls none. -/
theorem not_called (hd : d.Sound) (hm : Meets d t c)
    (h : ∀ ask ∈ (d.callsFrom (.min t.receiveAssetId t.sellAssetId)).head?,
      ask.debtType ≠ t.sellAssetId ∨ ask.callPrice.gt c.feedPrice.inv) :
    ∀ ask ∈ d.callOrders, ¬Called t.sellAssetId c ask := by
  rintro ask hask ⟨hdebt, hcalled⟩
  obtain ⟨b, hb, hback⟩ := hm.backing
  have hne : t.receiveAssetId ≠ t.sellAssetId := t.valid.assets.symm
  have hvalid := Price.min_valid hne
  have hpriced := (hd.secured ask hask).priced
  have hcoll : ask.collateralType = t.receiveAssetId := (hd.assets hask (hdebt ▸ hb)).trans hback
  have hmin : (Price.min t.receiveAssetId t.sellAssetId).key ≤ ask.callPrice.key := by
    rw [← hcoll, ← hdebt]
    exact hpriced.min_le
  have hmem := (mem_callsFrom hd hvalid).mpr ⟨hask, hmin⟩
  obtain ⟨first, others, hcalls⟩ := List.exists_cons_of_ne_nil (List.ne_nil_of_mem hmem)
  have hfirst : first.callPrice.key ≤ ask.callPrice.key := by
    rw [hcalls] at hmem
    rcases List.mem_cons.mp hmem with rfl | hmem
    · exact le_refl _
    · have hsorted : (first :: others).Pairwise fun x y => x.callPrice.key ≤ y.callPrice.key := hcalls ▸ callsFrom_pairwise hd
      exact (List.pairwise_cons.mp hsorted).1 ask hmem
  obtain ⟨hfirst', hmin'⟩ := (mem_callsFrom hd hvalid).mp (hcalls ▸ List.mem_cons_self : first ∈ _)
  rcases h first (by rw [hcalls]; rfl) with hother | hgt
  · exact hother (Price.assets_of_key_between (p := Price.min t.receiveAssetId t.sellAssetId) (r := ask.callPrice)
      hcoll.symm hdebt.symm hmin' hfirst).2
  · rw [Price.gt_iff (hd.secured first hfirst').priced.valid hm.feed.inv] at hgt
    rw [Price.gt_iff hpriced.valid hm.feed.inv] at hcalled
    exact hcalled (hgt.trans_le hfirst)

/-- The margin calls are matched until the taker is finished or no call order is called any more. -/
theorem matchCalls_rounds (h : matchCalls t.id t.sellAssetId t.receiveAssetId c fuel d = .ok (finished, d'))
    (hd : d.Sound) (hm : Meets d t c) (hshows : d.Shows t rest)
    (hrest : ∀ o ∈ rest, o.sellPrice.rate ≤ c.callMatchPrice.rate) :
    ∃ l, Rounds t.id (some c) d l d' ∧ (∀ x ∈ l, x.2 = c.callMatchPrice ∧ Best t (some c) x) ∧
      (finished = true → d'.Spent t.id) ∧
      (finished = false → d'.Sound ∧ d'.Shows t rest ∧ ∀ ask ∈ d'.callOrders, ¬Called t.sellAssetId c ask) := by
  induction fuel generalizing d with
  | zero => exact (throw_ne_ok.mp h).elim
  | succ fuel ih =>
    rw [matchCalls] at h
    split at h
    · rename_i hnone
      cases h
      exact ⟨[], .nil, by simp, by simp, fun _ => ⟨hd, hshows, not_called hd hm (by simp [hnone])⟩⟩
    · rename_i call calls hcalls
      split at h
      · rename_i hnot
        cases h
        exact ⟨[], .nil, by simp, by simp, fun _ => ⟨hd, hshows, not_called hd hm (by simpa [hcalls] using hnot)⟩⟩
      · rename_i hnot
        simp only [bind_eq_ok, getLimitOrder_eq_ok] at h
        obtain ⟨bid, hbid, ⟨result, d₁⟩, h₁, h⟩ := h
        have hbid' := id_of_findLimitOrder hbid
        have hask : call ∈ d.callOrders := by
          have hmem : call ∈ d.callsFrom (.min t.receiveAssetId t.sellAssetId) := hcalls ▸ List.mem_cons_self
          exact (List.perm_insertionSort _ _).mem_iff.mp (List.mem_of_mem_filter hmem)
        have hcalled : Called bid.sellAssetId c call := by
          rw [LimitOrder.sellAssetId, hshows.taker bid hbid]
          exact not_or.mp hnot |>.imp_left not_not.mp
        have hround : Round t.id (some c) d c.callMatchPrice d₁ := .call rfl hbid hask hcalled h₁
        have hbest : Best t (some c) (d, c.callMatchPrice) :=
          hshows.best hrest hm.accepted fun c' hc' _ => (Option.mem_some_iff.mp hc') ▸ le_refl _
        rcases matchCall_trades h₁ hd (hbid'.symm ▸ hbid) hask hm.valid.assets with
          ⟨rfl, rfl, x, hx, hzero⟩ | ⟨htrades, htaker⟩
        · cases pure_eq_ok.mp h
          refine ⟨[(d₁, c.callMatchPrice)], .cons hround .nil, by simpa using hbest, fun _ => ?_, by simp⟩
          intro bid' hfind
          obtain rfl : bid = bid' := Option.some.inj (hbid.symm.trans hfind)
          have htaken := hshows.taker bid hbid
          refine not_worthwhile_of_mul hx hzero ?_ ?_
          · rw [LimitOrder.receiveAssetId, htaken]
            exact hm.base
          · rw [htaken]
            exact hm.accepted
        · rw [hbid'] at htrades htaker
          split at h
          · rename_i hdone
            cases pure_eq_ok.mp h
            refine ⟨[(d, c.callMatchPrice)], .cons hround .nil, by simpa using hbest, fun _ => ?_, by simp⟩
            intro bid' hfind
            rw [htaker hdone] at hfind
            cases hfind
          · obtain ⟨l, hrounds, hbests, hspent, hleft⟩ := ih h (htrades.sound hd) (hm.trades htrades) (hshows.trades htrades hd)
            exact ⟨(d, c.callMatchPrice) :: l, .cons hround hrounds, List.forall_mem_cons.mpr ⟨⟨rfl, hbest⟩, hbests⟩,
              hspent, hleft⟩

/-! ### A new limit order -/

/-- The rounds of a new order go from better to worse prices, all of which it accepts. -/
structure Descends (t : LimitOrder) (l : List (Database × Price)) : Prop where
  sorted : l.Pairwise fun x y => y.2.rate ≤ x.2.rate
  accepted : ∀ x ∈ l, 1 ≤ x.2.rate * t.sellPrice.rate

theorem Descends.append (h : Descends t l) (h' : Descends t l') (hle : ∀ x ∈ l, ∀ y ∈ l', y.2.rate ≤ x.2.rate) :
    Descends t (l ++ l') where
  sorted := List.pairwise_append.mpr ⟨h.sorted, h'.sorted, hle⟩
  accepted x hx := (List.mem_append.mp hx).elim (h.accepted x) (h'.accepted x)

/-- Rounds at the prices of orders -/
theorem used_of_mem {used : List LimitOrder} (h : l.map Prod.snd = used.map LimitOrder.sellPrice) {x : Database × Price}
    (hx : x ∈ l) : ∃ o ∈ used, o.sellPrice = x.2 := by
  have hmem : x.2 ∈ used.map LimitOrder.sellPrice := h ▸ List.mem_map_of_mem hx
  exact List.mem_map.mp hmem

theorem Descends.of_used {used : List LimitOrder} (h : l.map Prod.snd = used.map LimitOrder.sellPrice)
    (hshows : d.Shows t (used ++ rest)) : Descends t l where
  sorted := by
    have hsorted : (used.map LimitOrder.sellPrice).Pairwise fun p q => q.rate ≤ p.rate :=
      List.pairwise_map.mpr (List.pairwise_append.mp hshows.sorted).1
    rw [← h] at hsorted
    exact List.pairwise_map.mp hsorted
  accepted x hx := by
    obtain ⟨o, ho, hprice⟩ := used_of_mem h hx
    exact hprice ▸ (hshows.crosses o (List.mem_append_left _ ho)).2

/-- A round is a trade. -/
theorem Round.trades (h : Round taker m d p d') (hd : d.Sound)
    (hm : ∀ c ∈ m, c.callMatchPrice.base.assetId ≠ c.callMatchPrice.quote.assetId) : Trades (some taker) d d' := by
  cases h with
  | limit husd hcore h =>
    have husd' := id_of_findLimitOrder husd
    rcases matchLimit_trades h hd (husd'.symm ▸ husd) hcore (LimitOrder.valid _).assets with ⟨-, rfl, -⟩ | ⟨htrades, -⟩
    · exact Trades.refl
    · exact husd' ▸ htrades
  | call hc hbid hask _ h =>
    have hbid' := id_of_findLimitOrder hbid
    rcases matchCall_trades h hd (hbid'.symm ▸ hbid) hask (hm _ hc) with ⟨-, rfl, -⟩ | ⟨htrades, -⟩
    · exact Trades.refl
    · exact hbid' ▸ htrades

theorem Rounds.trades (h : Rounds taker m d l d') (hd : d.Sound)
    (hm : ∀ c ∈ m, c.callMatchPrice.base.assetId ≠ c.callMatchPrice.quote.assetId) : Trades (some taker) d d' := by
  induction h with
  | nil => exact Trades.refl
  | cons hround _ ih =>
    have htrades := hround.trades hd hm
    exact htrades.trans (ih (htrades.sound hd))

/-- Each round starts from a state that trades have led to. -/
theorem Rounds.trades_of_mem {x : Database × Price} (h : Rounds taker m d l d') (hd : d.Sound)
    (hm : ∀ c ∈ m, c.callMatchPrice.base.assetId ≠ c.callMatchPrice.quote.assetId) (hx : x ∈ l) : Trades (some taker) d x.1 := by
  induction h with
  | nil => cases hx
  | cons hround _ ih =>
    rcases List.mem_cons.mp hx with rfl | hx
    · exact Trades.refl
    · have htrades := hround.trades hd hm
      exact htrades.trans (ih (htrades.sound hd) hx)

theorem Meets.gt_iff {o : LimitOrder} (hm : Meets d t c) (ho : o.Crosses t) :
    o.sellPrice.gt c.callMatchPrice ↔ c.callMatchPrice.rate < o.sellPrice.rate := by
  rw [Price.gt_iff o.valid hm.valid, Price.key_lt_iff]
  · exact hm.base.trans ho.1.1.symm
  · exact hm.quote.trans ho.1.2.symm

/-- All rounds of a new order are with the best order left, and when the order stays, nothing is left that it crosses. -/
theorem matchAll_rounds (h : d.matchAll fuel t.id t m makers = .ok (finished, d')) (hd : d.Sound)
    (hm : ∀ c ∈ m, Meets d t c) (hshows : d.Shows t makers) :
    ∃ l, Rounds t.id m d l d' ∧ Descends t l ∧ (∀ x ∈ l, Best t m x) ∧ (finished = true → d'.Spent t.id) ∧
      (finished = false → d'.Shows t [] ∧ ∀ c ∈ m, ∀ ask ∈ d'.callOrders, ¬Called t.sellAssetId c ask) := by
  cases m with
  | none =>
    simp only [matchAll, bind_eq_ok, pure_eq_ok, Prod.mk.injEq] at h
    obtain ⟨⟨_, rest, _⟩, h, rfl, rfl⟩ := h
    obtain ⟨l, used, hrounds, rfl, hprices, -, hbests, -, hspent, hleft⟩ := matchLimits_rounds (m := none) h hd hshows (by simp)
    refine ⟨l, hrounds, .of_used hprices hshows, hbests, hspent, fun hfinished => ?_⟩
    obtain ⟨-, hshows', hrest⟩ := hleft hfinished
    cases rest with
    | nil => exact ⟨hshows', by simp⟩
    | cons o os => simp at hrest
  | some c =>
    have hmeets := hm c rfl
    simp only [matchAll, bind_eq_ok] at h
    obtain ⟨⟨finished₁, rest, d₁⟩, h₁, h⟩ := h
    have hmore : ∀ o ∈ makers, o.sellPrice.gt c.callMatchPrice ↔ c.callMatchPrice.rate < o.sellPrice.rate :=
      fun o ho => hmeets.gt_iff (hshows.crosses o ho)
    obtain ⟨l₁, used, hrounds₁, rfl, hprices, hused, hbests₁, -, hspent₁, hleft₁⟩ := matchLimits_rounds (m := some c) h₁ hd
      hshows fun c' hc' _ o ho hgt => (Option.some.inj hc') ▸ ((hmore o ho).mp hgt).le
    have hdescends₁ : Descends t l₁ := .of_used hprices hshows
    have hbetter₁ : ∀ x ∈ l₁, c.callMatchPrice.rate ≤ x.2.rate := by
      intro x hx
      obtain ⟨o, ho, hprice⟩ := used_of_mem hprices hx
      exact hprice ▸ ((hmore o (List.mem_append_left _ ho)).mp (hused o ho)).le
    cases finished₁ with
    | true =>
      cases pure_eq_ok.mp h
      exact ⟨l₁, hrounds₁, hdescends₁, hbests₁, hspent₁, by simp⟩
    | false =>
      obtain ⟨hd₁, hshows₁, hrest⟩ := hleft₁ rfl
      have hmeets₁ := hmeets.trades (hrounds₁.trades hd fun c' hc' => (Option.some.inj hc') ▸ hmeets.valid.assets)
      have hworse : ∀ o ∈ rest, o.sellPrice.rate ≤ c.callMatchPrice.rate := by
        cases rest with
        | nil => simp
        | cons o os =>
          have hnot := hrest o rfl
          rw [← Bool.not_eq_true, hmore o (List.mem_append_right _ List.mem_cons_self), not_lt] at hnot
          exact fun o' ho' => (hshows₁.first_best o' ho').trans hnot
      simp only [Bool.false_eq_true, if_false, bind_eq_ok] at h
      obtain ⟨⟨finished₂, d₂⟩, h₂, h⟩ := h
      obtain ⟨l₂, hrounds₂, hbests₂, hspent₂, hleft₂⟩ := matchCalls_rounds h₂ hd₁ hmeets₁ hshows₁ hworse
      have hdescends₂ : Descends t l₂ := by
        refine ⟨List.pairwise_of_forall_mem_list fun x hx y hy => ?_, fun x hx => (hbests₂ x hx).1 ▸ hmeets.accepted⟩
        rw [(hbests₂ x hx).1, (hbests₂ y hy).1]
      have hdescends : Descends t (l₁ ++ l₂) :=
        hdescends₁.append hdescends₂ fun x hx y hy => (hbests₂ y hy).1 ▸ hbetter₁ x hx
      have hbests : ∀ x ∈ l₁ ++ l₂, Best t (some c) x :=
        fun x hx => (List.mem_append.mp hx).elim (hbests₁ x) fun hx => (hbests₂ x hx).2
      cases finished₂ with
      | true =>
        cases pure_eq_ok.mp h
        exact ⟨l₁ ++ l₂, hrounds₁.append hrounds₂, hdescends, hbests, hspent₂, by simp⟩
      | false =>
        obtain ⟨hd₂, hshows₂, hcalled⟩ := hleft₂ rfl
        simp only [Bool.false_eq_true, if_false, bind_eq_ok, pure_eq_ok, Prod.mk.injEq] at h
        obtain ⟨⟨_, rest', _⟩, h₃, rfl, rfl⟩ := h
        have hnoneCalled : ¬∃ ask ∈ d₂.callOrders, Called t.sellAssetId c ask := by
          rintro ⟨ask, hask, hcall⟩
          exact hcalled ask hask hcall
        obtain ⟨l₃, used', hrounds₃, rfl, hprices', -, hbests₃, hkept, hspent₃, hleft₃⟩ := matchLimits_rounds (m := some c) h₃
          hd₂ hshows₂ fun c' hc' hexists => absurd ((Option.some.inj hc') ▸ hexists) hnoneCalled
        have hlast : ∀ x ∈ l₁ ++ l₂, ∀ y ∈ l₃, y.2.rate ≤ x.2.rate := by
          intro x hx y hy
          obtain ⟨o, ho, hprice⟩ := used_of_mem hprices' hy
          have hle : y.2.rate ≤ c.callMatchPrice.rate := hprice ▸ hworse o (List.mem_append_left _ ho)
          rcases List.mem_append.mp hx with hx | hx
          · exact hle.trans (hbetter₁ x hx)
          · exact (hbests₂ x hx).1 ▸ hle
        refine ⟨l₁ ++ l₂ ++ l₃, (hrounds₁.append hrounds₂).append hrounds₃, hdescends.append (.of_used hprices' hshows₂) hlast,
          fun x hx => (List.mem_append.mp hx).elim (hbests x) (hbests₃ x), hspent₃, fun hfinished => ?_⟩
        obtain ⟨-, hshows₃, hrest'⟩ := hleft₃ hfinished
        cases rest' with
        | nil => exact ⟨hshows₃, fun c' hc' ask hask => (Option.some.inj hc') ▸ hcalled ask (hkept ▸ hask)⟩
        | cons o os => simp at hrest'

/-- The range of the book that a new order is matched with shows the makers. -/
theorem shows_makers (hd : d.Sound) (ht : t ∈ d.limitOrders) :
    d.Shows t (d.limitsBetween (.max t.receiveAssetId t.sellAssetId) t.sellPrice.inv) where
  crosses o ho := ((mem_makers t).mp ho).2.1
  sorted := by
    refine limitsBetween_pairwise.imp_of_mem fun {x y} hx hy h => ?_
    obtain ⟨-, ⟨hx, -⟩, -⟩ := (mem_makers t).mp hx
    obtain ⟨-, ⟨hy, -⟩, -⟩ := (mem_makers t).mp hy
    exact (Price.key_le_iff (hy.1.trans hx.1.symm) (hy.2.trans hx.2.symm)).mp h
  prices o ho o' ho' := by
    have hmem := ((mem_makers t).mp ho).1
    rw [eq_of_find?_key hd.limits.nodup ho' hmem rfl]
  all o ho hcross hrate := ⟨o, (mem_makers t).mpr ⟨ho, hcross, hrate⟩, rfl, rfl⟩
  taker o ho := by rw [eq_of_find?_key hd.limits.nodup ho ht rfl]

/-- What the matching of a new order comes to -/
structure Matches (d d' : Database) (t : LimitOrder) (m : Option CallMarket) (l : List (Database × Price)) : Prop where
  market : d.callMarket t = .ok m
  rounds : Rounds t.id m d l d'
  descends : Descends t l
  best : ∀ x ∈ l, Best t m x
  rest : d'.Spent t.id ∨ d'.Shows t [] ∧ ∀ c ∈ m, ∀ ask ∈ d'.callOrders, ¬Called t.sellAssetId c ask

/-- A new order stays behind another one of its side, or it is matched and what is left of it is culled if it is small. -/
theorem applyOrder_cases {gone : Bool} (h : d.applyOrder fuel t = .ok (gone, d')) (hd : d.Sound) (ht : t ∈ d.limitOrders) :
    (d.behindAnother t ∧ gone = false ∧ d' = d) ∨ (¬d.behindAnother t ∧ ∃ m l d₁, Matches d d₁ t m l ∧
      ((d₁.findLimitOrder t.id = none ∧ gone = true ∧ d' = d₁) ∨
        ∃ o, d₁.findLimitOrder t.id = some o ∧ d₁.maybeCullSmallOrder o = .ok (gone, d'))) := by
  simp only [applyOrder] at h
  split at h
  · rename_i hbehind
    cases pure_eq_ok.mp h
    exact .inl ⟨hbehind, rfl, rfl⟩
  · rename_i hfirst
    simp only [bind_eq_ok] at h
    obtain ⟨m, hm, ⟨finished, d₁⟩, hmatch, h⟩ := h
    obtain ⟨l, hrounds, hdescends, hbest, hspent, hleft⟩ :=
      matchAll_rounds hmatch hd (fun c hc => callMarket_meets (hc ▸ hm) hd) (shows_makers hd ht)
    refine .inr ⟨hfirst, m, l, d₁, ⟨hm, hrounds, hdescends, hbest, ?_⟩, ?_⟩
    · cases finished with
      | true => exact .inl (hspent rfl)
      | false => exact .inr (hleft rfl)
    · split at h
      · rename_i hnone
        cases pure_eq_ok.mp h
        exact .inl ⟨hnone, rfl, rfl⟩
      · rename_i o ho
        exact .inr ⟨o, ho, h⟩

end

end Database

end Khc.Market
