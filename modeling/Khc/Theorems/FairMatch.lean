import Khc.Market.Exchange
import Khc.Market.Reachable

/-! Two limit orders that are matched are treated fairly: the one that is used up pays the least amount that buys what it
    receives, and the other one never gets less than the price. -/

namespace Khc.Market

open Lib
open Chain (Asset Price maxShareSupply)

/-! ### The trade -/

/-- What the taker receives and pays in a match with the maker. The side that is used up pays the least amount that buys what it
    receives. -/
structure FairTrade (usd core : LimitOrder) (usdReceives coreReceives : Asset) (usedUp : Bool) : Prop where
  usdPays : coreReceives.assetId = usd.sellAssetId ∧ 0 < coreReceives.amount ∧ coreReceives.amount ≤ usd.forSale
  corePays : usdReceives.assetId = core.sellAssetId ∧ 0 < usdReceives.amount ∧ usdReceives.amount ≤ core.forSale
  least : if usedUp then PaysLeast core.sellPrice coreReceives usdReceives else PaysLeast core.sellPrice usdReceives coreReceives
  other : if usedUp then usdReceives.amount * core.sellPrice.quote.amount ≤ coreReceives.amount * core.sellPrice.base.amount
    else coreReceives.amount * core.sellPrice.base.amount ≤ usdReceives.amount * core.sellPrice.quote.amount
  rest : if usedUp then (usd.forSale - coreReceives.amount) * core.sellPrice.base.amount < core.sellPrice.quote.amount
    else (core.forSale - usdReceives.amount) * core.sellPrice.quote.amount < core.sellPrice.base.amount

section
variable {usd core o : LimitOrder} {a r y : Asset} {p : Price} {cull : Bool} {trade : Option (Asset × Asset × Bool)}

namespace Database

theorem coreBuys_bounds (h : mul core.amountForSale core.sellPrice = .ok a) (hsale : 0 < core.forSale) (hworth : core.Worthwhile) :
    a.assetId = core.sellPrice.quote.assetId ∧ 0 < a.amount := by
  obtain ⟨hasset, hnonneg, -, hup⟩ := mul_of_base h rfl hsale.le core.valid.quote_pos.le
  refine ⟨hasset, lt_of_le_of_ne hnonneg fun hzero => ?_⟩
  rw [← hzero, zero_add, one_mul] at hup
  exact absurd hworth (not_le.mpr hup)

/-- What either order sells is converted at the price of the maker, and converted back. -/
theorem limitTrade_fair (h : limitTrade usd core core.sellPrice = .ok (some (r, y, cull))) (hopposes : core.Opposes usd)
    (hsale : 0 < usd.forSale) (hsale' : 0 < core.forSale) (hworth : core.Worthwhile) : FairTrade usd core r y cull := by
  have hp := core.valid
  have husd : usd.sellAssetId = core.sellPrice.quote.assetId := hopposes.2.symm
  simp only [limitTrade, bind_eq_ok, fcAssert_eq_ok] at h
  obtain ⟨coreBuys, hbuys, -, -, h⟩ := h
  obtain ⟨hbought, hbuys'⟩ := coreBuys_bounds hbuys hsale' hworth
  split at h
  · rename_i hle
    obtain ⟨receives, hreceives, h⟩ := bind_eq_ok.mp h
    split at h
    · cases pure_eq_ok.mp h
    · rename_i hsome
      obtain ⟨pays, hpays, h⟩ := bind_eq_ok.mp h
      cases pure_eq_ok.mp h
      have hpos : 0 < r.amount := lt_of_le_of_ne (mul_nonneg hreceives) (Ne.symm hsome)
      obtain ⟨hleast, hasset, hasset', hpos', hle', hrest⟩ :=
        (sides_quote hp).paysLeast (x := usd.amountForSale) husd hsale.le hreceives hpays hpos
      obtain ⟨-, hcore⟩ := mul_le_of_le_mul hp.assets hbuys hreceives (husd.trans hbought.symm) hle
      obtain ⟨-, -, hother, -⟩ := mul_of_quote hleast.worth (hasset.trans husd) hp.assets hpos'.le hp.base_pos.le
      exact ⟨⟨hasset, hpos', hle'⟩, ⟨hasset', hpos, by simpa [LimitOrder.amountForSale, hsale'.le] using hcore⟩, hleast, hother, hrest⟩
  · rename_i hgt
    obtain ⟨receives, hreceives, h⟩ := bind_eq_ok.mp h
    cases pure_eq_ok.mp h
    obtain ⟨hleast, hasset, hasset', hpos', hle', hrest⟩ :=
      (sides_base hp).paysLeast (x := core.amountForSale) rfl hsale'.le hbuys hreceives hbuys'
    obtain ⟨-, -, hother, -⟩ := mul_of_base hleast.worth hasset hpos'.le hp.quote_pos.le
    exact ⟨⟨hbought.trans husd.symm, hbuys', (not_le.mp hgt).le⟩, ⟨hasset, hpos', hle'⟩, hleast, hother, hrest⟩

/-- What is computed fits when what the maker sells does. -/
theorem limitTrade_total (hreceives : core.amountToReceive = .ok a) (hopposes : core.Opposes usd)
    (hmax : core.forSale ≤ maxShareSupply) : ∃ trade, limitTrade usd core core.sellPrice = .ok trade := by
  have husd : usd.sellAssetId = core.sellPrice.quote.assetId := hopposes.2.symm
  have hbase := sides_base core.valid
  have hquote := sides_quote core.valid
  rw [LimitOrder.amountToReceive] at hreceives
  have hbuys := hreceives
  rw [hbase.down core.amountForSale rfl] at hbuys
  obtain ⟨-, hasset, -⟩ := convert_eq_ok hbuys
  have hcheck : fcAssert (a.assetId = usd.sellAssetId) .assetMismatch = .ok () := fcAssert_eq_ok.mpr (hasset.trans husd.symm)
  simp only [limitTrade, hreceives, hcheck, ok_bind]
  split
  · rename_i hle
    obtain ⟨r, hr⟩ := hbase.below hquote (x := core.amountForSale) (y := usd.amountForSale) rfl hreceives hmax husd hle
    rw [hr, ok_bind]
    split
    · exact ⟨none, rfl⟩
    · obtain ⟨y, hy⟩ := hquote.back (x := usd.amountForSale) husd hr (hle.trans (convert_le hbuys))
      exact ⟨some (r, y, true), by rw [hy, ok_bind]; rfl⟩
  · obtain ⟨y, hy⟩ := hbase.back (x := core.amountForSale) rfl hreceives hmax
    exact ⟨some (y, a, false), by rw [hy, ok_bind]; rfl⟩

/-! ### Who is gone -/

/-- What an order sells is worth nothing at its own price when it is worth nothing at a price that it accepts. -/
theorem not_worthwhile_of_lt (hp : p.Valid) (hrate : 1 ≤ p.rate * o.sellPrice.rate)
    (hlt : o.forSale * p.base.amount < p.quote.amount) : ¬o.Worthwhile := by
  have hquote : (0 : ℚ) < p.quote.amount * o.sellPrice.quote.amount := by
    exact_mod_cast Int.mul_pos hp.quote_pos o.valid.quote_pos
  rw [Price.rate, Price.rate, div_mul_div_comm, one_le_div hquote] at hrate
  have hproducts : p.quote.amount * o.sellPrice.quote.amount ≤ p.base.amount * o.sellPrice.base.amount := by exact_mod_cast hrate
  intro hworth
  have hmul := hproducts.trans (Int.mul_le_mul_of_nonneg_left hworth hp.base_pos.le)
  rw [← Int.mul_assoc, Int.mul_comm p.base.amount] at hmul
  exact absurd (Int.le_of_mul_le_mul_right hmul o.valid.quote_pos) (not_le.mpr hlt)

/-- An order that is used up but for what is worth nothing is gone. -/
theorem fillLimitOrder_usedUp {d d' : Database} {maker gone : Bool} (h : d.fillLimitOrder o y r true p maker = .ok (gone, d'))
    (hrest : ¬(soldOff o y).Worthwhile) : gone = true := by
  obtain ⟨-, d₁, -, ⟨-, hgone, -⟩ | ⟨-, hcull, -⟩ | ⟨-, -, hcull⟩⟩ := fillLimitOrder_cases h
  · exact hgone
  · cases hcull
  · rcases maybeCullSmallOrder_cases hcull with ⟨hgone, -⟩ | ⟨-, -, hworth⟩
    · exact hgone
    · exact absurd hworth hrest

/-- A match of a taker with the maker it crosses, at the price of the maker. Nothing happens when the taker would receive nothing.
    Else the trade is a fair one, both are filled with it, and the one that is used up is gone. -/
theorem matchLimit_fair {d : Database} (hd : d.Sound) (husd : d.findLimitOrder usd.id = some usd)
    (hcore : d.findLimitOrder core.id = some core) (hcross : core.Crosses usd) (hreceives : core.amountToReceive = .ok a)
    (hpos : 0 < a.amount) :
    (core.forSale ≤ maxShareSupply → ∃ trade, limitTrade usd core core.sellPrice = .ok trade) ∧
    (limitTrade usd core core.sellPrice = .ok none →
      d.matchLimit usd core core.sellPrice = .ok (1, d) ∧ ∃ x, mul usd.amountForSale core.sellPrice = .ok x ∧ x.amount = 0) ∧
    ∀ r y cull, limitTrade usd core core.sellPrice = .ok (some (r, y, cull)) → FairTrade usd core r y cull ∧
      ∀ taker maker d₁ d₂, d.fillLimitOrder usd y r cull core.sellPrice false = .ok (taker, d₁) →
        d₁.fillLimitOrder core r y true core.sellPrice true = .ok (maker, d₂) →
        d.matchLimit usd core core.sellPrice = .ok (matchResult taker maker, d₂) ∧ matchResult taker maker ≠ 0 ∧
          d₂.findLimitOrder (if cull then usd.id else core.id) = none := by
  have hsale := hd.forSale usd (List.mem_of_find?_eq_some husd)
  have hsale' := hd.forSale core (List.mem_of_find?_eq_some hcore)
  have hworth : core.Worthwhile := by
    by_contra hnot
    exact hpos.ne' ((amountToReceive_eq_zero hreceives).mpr hnot)
  refine ⟨limitTrade_total hreceives hcross.1, fun hnone => ⟨?_, limitTrade_none hnone⟩, fun r y cull htrade => ?_⟩
  · simp only [matchLimit, bind_eq_ok, fcAssert_eq_ok]
    exact ⟨(), hcross.1.1.symm, (), hcross.1.2.symm, (), ⟨hsale, hsale'⟩, none, hnone, rfl⟩
  · have hfair := limitTrade_fair htrade hcross.1 hsale hsale' hworth
    refine ⟨hfair, fun taker maker d₁ d₂ h₁ h₂ => ?_⟩
    obtain ⟨-, -, htaker, hmaker⟩ :=
      limitFills_trades hd husd hcore hcross.1.1.symm h₁ h₂ hfair.usdPays.2.2 hfair.corePays.2.2
    have hgone : (if cull then taker else maker) = true := by
      cases cull with
      | true =>
        refine fillLimitOrder_usedUp h₁ (not_worthwhile_of_lt core.valid hcross.2 ?_)
        exact hfair.rest
      | false =>
        refine fillLimitOrder_usedUp h₂ (not_le.mpr ?_)
        exact hfair.rest
    have hresult : matchResult taker maker ≠ 0 := by
      cases cull <;> cases taker <;> cases maker <;> first | contradiction | decide
    refine ⟨?_, hresult, ?_⟩
    · simp only [matchLimit, bind_eq_ok, fcAssert_eq_ok]
      refine ⟨(), hcross.1.1.symm, (), hcross.1.2.symm, (), ⟨hsale, hsale'⟩, some (r, y, cull), htrade, ?_⟩
      simp only [bind_eq_ok, fcAssert_eq_ok]
      exact ⟨(taker, d₁), h₁, (maker, d₂), h₂, (), hresult, rfl⟩
    · cases cull with
      | true => exact htaker hgone
      | false => exact hmaker hgone

/-- Account 1 offers 601 for at least 300 of the core asset. -/
def offer (d : Database) : LimitOrder :=
  d.newLimitOrder ⟨⟨0, 0⟩, 1, ⟨601, 2⟩, ⟨300, 0⟩, 1000, false⟩ ⟨⟨0, 0⟩, 0, zero_nonneg, zero_nonneg⟩ ⟨by decide, by decide, by decide⟩

/-- Account 0 sells 500 of the core asset at one for two. The offer pays 600, and what is left of it is worth nothing. -/
theorem matchLimit_fair_sold : ∃ (d : Database) (usd core : LimitOrder), d.limitOrders = [core, usd] ∧
    core.amountForSale = ⟨500, 0⟩ ∧ usd.amountForSale = ⟨601, 2⟩ ∧ FairTrade usd core ⟨300, 0⟩ ⟨600, 2⟩ true ∧
    ∃ d', d.matchLimit usd core core.sellPrice = .ok (1, d') ∧ d'.findLimitOrder usd.id = none := by
  have hrun : ([sell 0 ⟨500, 0⟩ ⟨1000, 2⟩].foldlM step fresh).any fun d => (d.adjustBalance 1 ⟨-601, 2⟩).toOption.any fun d =>
      decide (∃ core ∈ d.limitOrders, d.limitOrders = [core] ∧ core.id ≠ d.nextLimitOrder ∧ core.amountForSale = ⟨500, 0⟩ ∧
        ((core.sellAssetId = 0 ∧ core.receiveAssetId = 2) ∧ 1 ≤ core.sellPrice.rate * (601 / 300)) ∧
        core.amountToReceive.toOption = some ⟨1000, 2⟩ ∧
        (limitTrade d.offer core core.sellPrice).toOption = some (some (⟨300, 0⟩, ⟨600, 2⟩, true)) ∧
        ((d.createLimitOrder d.offer).fillLimitOrder d.offer ⟨600, 2⟩ ⟨300, 0⟩ true core.sellPrice false).toOption.any fun x =>
          x.1 ∧ (x.2.fillLimitOrder core ⟨300, 0⟩ ⟨600, 2⟩ true core.sellPrice true).toOption.any fun y => ¬y.1) := by
    decide +kernel
  obtain ⟨d₀, hd₀, hrun⟩ := (Option.any_eq_true _ _).mp hrun
  obtain ⟨d, hd, hrun⟩ := (Option.any_eq_true _ _).mp hrun
  obtain ⟨core, -, hone, hid, hcore, hcross, hreceives, htrade, hfills⟩ := of_decide_eq_true hrun
  obtain ⟨⟨taker, d₁⟩, h₁, hfills⟩ := (Option.any_eq_true _ _).mp hfills
  obtain ⟨htaker, hfills⟩ := of_decide_eq_true hfills
  obtain ⟨⟨maker, d₂⟩, h₂, hmaker⟩ := (Option.any_eq_true _ _).mp hfills
  have hsound : d.Sound :=
    ((adjustBalance_moves (toOption_eq_some.mp hd)).deals (t := none)).sound
      (Reachable.of_foldlM fresh_genesis hd₀).lawful.toSound
  have hsale : (0 : Int) < 601 := by decide
  have hrate : (⟨⟨601, 2⟩, ⟨300, 0⟩⟩ : Price).rate = 601 / 300 := by decide +kernel
  have hbook : (d.createLimitOrder d.offer).limitOrders = [core, d.offer] := by
    rw [createLimitOrder, hone]
    rfl
  have hfind : (d.createLimitOrder d.offer).findLimitOrder core.id = some core := by
    rw [findLimitOrder, hbook]
    simp
  have hfind' : (d.createLimitOrder d.offer).findLimitOrder d.offer.id = some d.offer := by
    have hid' : core.id ≠ d.offer.id := hid
    rw [findLimitOrder, hbook]
    simp [hid']
  obtain ⟨-, -, hfair⟩ := matchLimit_fair (createLimitOrder_changes hsound (t := d.offer) rfl hsale).2 hfind' hfind
    ⟨hcross.1, hrate.symm ▸ hcross.2⟩ (toOption_eq_some.mp hreceives) (by decide)
  obtain ⟨hfair, hfills⟩ := hfair _ _ _ (toOption_eq_some.mp htrade)
  obtain ⟨hmatch, -, hgone⟩ := hfills taker maker d₁ d₂ (toOption_eq_some.mp h₁) (toOption_eq_some.mp h₂)
  obtain rfl : taker = true := htaker
  obtain rfl : maker = false := by simpa using hmaker
  exact ⟨d.createLimitOrder d.offer, d.offer, core, hbook, hcore, rfl, hfair, d₂, hmatch, hgone⟩

end Database

end

end Khc.Market
