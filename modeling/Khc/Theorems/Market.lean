import Khc.Market.Accounts
import Khc.Market.MarginRounds
import Khc.Market.Orderly
import Mathlib.Logic.Relation

/-! # What holds of the markets: the order book, orders and debt, margin calls and global settlement -/

/-! The order book: no ask and bid of it cross, and no order of it would receive nothing. -/

namespace Khc.Market.Database

open Lib

/-- As long as no order offers more than the greatest price, no ask and bid cross, and no order of the book would receive
    nothing. -/
theorem orders_uncrossed {g d : Database} (hg : g.Genesis) (h : Reaches step (fun _ i => i.2.SellsBelowMax) g d) :
    (∀ a ∈ d.limitOrders, ∀ b ∈ d.limitOrders, a.Opposes b → a.sellPrice.rate * b.sellPrice.rate < 1) ∧
      ∀ o ∈ d.limitOrders, ∀ r, o.amountToReceive = .ok r → 0 < r.amount := by
  obtain ⟨-, hbook⟩ := orderly_of_reaches h hg
  exact ⟨fun a ha b hb hopposes => not_le.mp fun hle => hbook.uncrossed a ha b hb ⟨hopposes, hle⟩,
    fun o ho r hr => (hbook.worthwhile o ho).pos hr⟩

/-- Account 0 sells 500 of the core asset, and account 1 buys 300 of that. -/
theorem orders_uncrossed_sold : ∃ d, [sell 0 ⟨500, 0⟩ ⟨1000, 2⟩, sell 1 ⟨600, 2⟩ ⟨300, 0⟩].foldlM step fresh = some d ∧
    d.limitOrders.map LimitOrder.forSale = [200] ∧
    (∀ a ∈ d.limitOrders, ∀ b ∈ d.limitOrders, a.Opposes b → a.sellPrice.rate * b.sellPrice.rate < 1) ∧
      ∀ o ∈ d.limitOrders, ∀ r, o.amountToReceive = .ok r → 0 < r.amount := by
  refine ⟨_, (Option.some_get (by decide +kernel)).symm, by decide +kernel, ?_⟩
  refine orders_uncrossed fresh_genesis (.of_foldlM (Option.some_get (by decide +kernel)).symm fun t i hi => ?_)
  rcases List.mem_cons.mp hi with rfl | hi
  · exact (by decide : (500 : Int) ≤ Chain.maxShareSupply * 1000)
  · rw [List.mem_singleton.mp hi]
    exact (by decide : (600 : Int) ≤ Chain.maxShareSupply * 300)

/-- An order that offers more than the greatest price is not found: account 0 sells 2 * 10 ^ 18 of what it has borrowed for one
    share of the core asset, and account 1, which sells one share of that, does not meet it. -/
theorem orders_crossed : ¬∀ d : Database, d.Reachable →
    (∀ c ∈ d.callOrders, ∀ b, d.bitasset c.debtType = some b → c.callPrice.gt b.currentFeed.settlementPrice.inv) →
    (∀ a ∈ d.limitOrders, ∀ b ∈ d.limitOrders, a.Opposes b → a.sellPrice.rate * b.sellPrice.rate < 1) ∧
      ∀ o ∈ d.limitOrders, ∀ r, o.amountToReceive = .ok r → 0 < r.amount := by
  intro h
  have hrun : ([publish ⟨⟨100000000000000000, 1⟩, ⟨1, 0⟩⟩ 1750, borrow 0 100 2000000000000000000,
      sell 0 ⟨2000000000000000000, 1⟩ ⟨1, 0⟩, sell 1 ⟨1, 0⟩ ⟨1, 1⟩].foldlM step fresh).any fun d =>
      decide ((∀ c ∈ d.callOrders, (d.bitasset c.debtType).all fun b => c.callPrice.gt b.currentFeed.settlementPrice.inv) ∧
        ∃ a ∈ d.limitOrders, ∃ b ∈ d.limitOrders, (a.sellAssetId = b.receiveAssetId ∧ a.receiveAssetId = b.sellAssetId) ∧
          1 ≤ a.sellPrice.rate * b.sellPrice.rate) := by
    decide +kernel
  obtain ⟨d, hd, hstate⟩ := (Option.any_eq_true _ _).mp hrun
  obtain ⟨hcalls, a, ha, b, hb, hopposes, hcross⟩ := of_decide_eq_true hstate
  refine absurd ((h d (.of_foldlM fresh_genesis hd) fun c hc b hb => ?_).1 a ha b hb hopposes) hcross.not_gt
  have hall := hcalls c hc
  rwa [hb] at hall

end Khc.Market.Database

/-! What an account has in orders: the statistics that count for votes are right in every state. -/

namespace Khc.Market.Database

open Lib
open Chain (AccountId)

/-- The statistics of an account count the core asset that it has for sale and as collateral. -/
theorem coreInOrders_counted {d : Database} (h : d.Reachable) (account : AccountId) :
    d.totalCoreInOrders account = d.coreInOrders account ∧ 0 ≤ d.totalCoreInOrders account := by
  have hd := h.lawful
  have hcounted : d.totalCoreInOrders account = d.coreInOrders account := by
    have hmiscount := hd.counted account
    rw [miscount_eq] at hmiscount
    exact sub_eq_zero.mp hmiscount
  refine ⟨hcounted, hcounted ▸ add_nonneg (List.sum_nonneg fun x hx => ?_) (List.sum_nonneg fun x hx => ?_)⟩
  · obtain ⟨o, ho, rfl⟩ := List.mem_map.mp hx
    unfold LimitOrder.commits
    split
    · exact Chain.Asset.of_nonneg (hd.forSale o ho).le
    · exact le_refl 0
  · obtain ⟨c, hc, rfl⟩ := List.mem_map.mp hx
    unfold CallOrder.commits
    split
    · exact Chain.Asset.of_nonneg (hd.secured c hc).collateral.le
    · exact le_refl 0

example : [sell 0 ⟨500, 0⟩ ⟨600, 2⟩].foldlM step fresh |>.any (·.totalCoreInOrders 0 = 500) := by decide +kernel

/-- An account borrows with 2000 of the core asset and sells 500 of it. -/
theorem coreInOrders_counted_borrowed : ∃ d, [publish ⟨⟨1, 1⟩, ⟨1, 0⟩⟩ 1750, borrow 0 2000 1000, sell 0 ⟨500, 0⟩ ⟨600, 1⟩].foldlM
    step fresh = some d ∧ d.coreInOrders 0 = 2500 ∧ d.totalCoreInOrders 0 = d.coreInOrders 0 ∧ 0 ≤ d.totalCoreInOrders 0 := by
  refine ⟨_, (Option.some_get (by decide +kernel)).symm, by decide +kernel, ?_⟩
  exact coreInOrders_counted (.of_foldlM fresh_genesis (Option.some_get (by decide +kernel)).symm) 0

end Khc.Market.Database

/-! The supply of a market-issued asset: before a global settlement the call orders owe it, and after one the fund backs
    it. -/

namespace Khc.Market.Database

open Lib
open Chain (AssetId)

/-- The whole supply of a settled asset can be settled: account 0 borrows 1000, the issuer settles the asset, and account 0
    settles what it has. -/
theorem settled_supply_zero : ¬∀ d : Database, d.Reachable → ∀ mia b, d.bitasset mia = some b →
    (¬b.hasSettlement → d.currentSupply mia = d.debt mia) ∧
      (b.hasSettlement → (∀ c ∈ d.callOrders, c.debtType ≠ mia) ∧ 0 < d.currentSupply mia) := by
  intro h
  have hrun : ([publish ⟨⟨1, 1⟩, ⟨1, 0⟩⟩ 1750, borrow 0 2000 1000, ⟨20, .operation (.assetGlobalSettle ⟨⟨0, 0⟩, 3, 1, ⟨⟨1, 1⟩, ⟨1, 0⟩⟩⟩)⟩,
      ⟨20, .operation (.assetSettle ⟨⟨0, 0⟩, 0, ⟨1000, 1⟩⟩)⟩].foldlM step fresh).any (fun d =>
      (d.bitasset 1).any BitassetData.hasSettlement ∧ d.currentSupply 1 = 0) := by
    decide +kernel
  rw [Option.any_eq_true] at hrun
  obtain ⟨d, hd, hstate⟩ := hrun
  rw [decide_eq_true_eq, Option.any_eq_true] at hstate
  obtain ⟨⟨b, hb, hsettled⟩, hsupply⟩ := hstate
  obtain ⟨-, hpos⟩ := (h d (.of_foldlM fresh_genesis hd) 1 b hb).2 hsettled
  exact absurd hsupply hpos.ne'

/-- Before a global settlement the call orders owe the supply. After one there are no call orders, and the fund is worth the
    supply at the settlement price. -/
theorem supply_covered {d : Database} (h : d.Reachable) (mia : AssetId) (b : BitassetData) (hb : d.bitasset mia = some b) :
    (¬b.hasSettlement → d.currentSupply mia = d.debt mia) ∧
      (b.hasSettlement → (∀ c ∈ d.callOrders, c.debtType ≠ mia) ∧ 0 ≤ d.currentSupply mia ∧
        d.currentSupply mia * b.settlementPrice.quote.amount ≤ b.settlementFund * b.settlementPrice.base.amount ∧
        (d.currentSupply mia = 0 → b.settlementFund = 0)) := by
  have hd := h.lawful
  refine ⟨fun hlive => (hd.live mia b hb hlive).supply, fun hsettled => ?_⟩
  have hbacks := hd.settled mia b hb hsettled
  exact ⟨hbacks.calls, hbacks.supply_nonneg, hbacks.backed, hbacks.empty⟩

example : fresh.currentSupply 1 = fresh.debt 1 := by decide +kernel

/-- Account 0 owes the 1000 that it has borrowed. -/
theorem supply_covered_borrowed : ∃ d b, [publish ⟨⟨1, 1⟩, ⟨1, 0⟩⟩ 1750, borrow 0 2000 1000].foldlM step fresh = some d ∧
    d.bitasset 1 = some b ∧ d.currentSupply 1 = 1000 ∧ (¬b.hasSettlement → d.currentSupply 1 = d.debt 1) ∧
      (b.hasSettlement → (∀ c ∈ d.callOrders, c.debtType ≠ 1) ∧ 0 ≤ d.currentSupply 1 ∧
        d.currentSupply 1 * b.settlementPrice.quote.amount ≤ b.settlementFund * b.settlementPrice.base.amount ∧
        (d.currentSupply 1 = 0 → b.settlementFund = 0)) := by
  refine ⟨_, _, (Option.some_get (by decide +kernel)).symm, (Option.some_get (by decide +kernel)).symm, by decide +kernel, ?_⟩
  exact supply_covered (.of_foldlM fresh_genesis (Option.some_get (by decide +kernel)).symm) 1 _
    (Option.some_get (by decide +kernel)).symm

end Khc.Market.Database

/-! The loops over the margin calls end, each round with less debt or fewer orders than the one before, as long as no call
    order is called that is at its target already. -/

namespace Khc.Market.Database

open Lib Relation
open Chain (Asset Price AccountId AssetId)

section
variable {d d' : Database} {taker fuel mcr : Nat} {sell receive mia : AssetId} {m : CallMarket} {call : CallOrder}
  {bid limit t : LimitOrder} {p feedPrice : Price} {enable called : Bool} {b : BitassetData} {limits : List LimitOrder}

theorem debt_nonneg (hd : d.Sound) (a : AssetId) : 0 ≤ d.debt a := by
  refine List.sum_nonneg fun x hx => ?_
  obtain ⟨c, hc, rfl⟩ := List.mem_map.mp hx
  exact Asset.of_nonneg (hd.secured c hc).debt.le

/-! ### Rounds halt -/

theorem halts_callTrade {usdToBuy : Asset} : Halts (callTrade bid usdToBuy p) := by simp [callTrade]

theorem halts_marginTrade {usdToBuy : Asset} : Halts (marginTrade limit usdToBuy) := by simp [marginTrade]

theorem halts_matchCall (hd : d.Sound) (hbid : d.findLimitOrder bid.id = some bid) (hcall : call ∈ d.callOrders) (hc : call.Fits)
    (hp : p.Valid) (hmcr : mcr < 2 ^ 16) (hfuel : 2 ^ 65 ≤ fuel) : Halts (d.matchCall fuel bid call p feedPrice mcr) := by
  obtain ⟨hdebt, hcoll, -⟩ := hd.secured call hcall
  refine never_bind.mpr ⟨by simp, fun _ hsell => never_bind.mpr ⟨by simp, fun _ _ => never_bind.mpr ⟨by simp, fun _ hsale => ?_⟩⟩⟩
  rw [fcAssert_eq_ok] at hsell hsale
  refine never_bind.mpr ⟨CallOrder.halts_getMaxDebtToCover hc hmcr hp hdebt hcoll hfuel, fun usdToBuy hmax => ?_⟩
  refine never_bind.mpr ⟨halts_callTrade, fun trade htrade => ?_⟩
  cases trade with
  | none => exact never_pure
  | some trade =>
    obtain ⟨orderReceives, callReceives, cull⟩ := trade
    obtain ⟨hle, hle'⟩ := callTrade_le htrade hp.assets hsale.1
    obtain ⟨hreceives, hreceived, -⟩ := callTrade_receives htrade hp hsale.1
      (CallOrder.getMaxDebtToCover_nonneg hmax hp hdebt hcoll)
    refine never_bind.mpr ⟨halts_fillLimitOrder, fun x h₁ => never_bind.mpr ⟨?_, fun _ _ => never_pure⟩⟩
    obtain ⟨gone, d'⟩ := x
    obtain ⟨hdeals, -⟩ := fillLimitOrder_deals (t := some bid.id) h₁ hbid hle fun _ => rfl
    refine halts_fillCallOrder hc (fun b hb => ?_) hreceives hreceived (hle'.trans (CallOrder.getMaxDebtToCover_le hmax hdebt.le))
    rw [hdeals.bitasset] at hb
    exact (hd.feeds _ b hb).median.ratio_lt

/-! ### Rounds one after the other -/

/-- With enough rounds, the loop is not cut off. -/
def Ends {α : Type} (loop : Nat → Eval α) : Prop := ∃ n, ∀ fuel ≥ n, Halts (loop fuel)

/-- The states that rounds of the loop over the margin calls lead to -/
def CallRounds (taker : Nat) (sell receive : AssetId) (m : CallMarket) : Database → Database → Prop :=
  ReflTransGen fun d d' => ∃ call, CallRound taker sell receive m call d d'

def FeedRounds (mia : AssetId) (enable : Bool) (b : BitassetData) : List LimitOrder × Database → List LimitOrder × Database → Prop :=
  ReflTransGen fun x y => ∃ call limit, FeedRound mia enable b call limit x y

/-- No round is about a call order that is at its target. -/
def Unreached (taker : Nat) (sell receive : AssetId) (m : CallMarket) (d : Database) : Prop :=
  ∀ d₁ call d₂, CallRounds taker sell receive m d d₁ → CallRound taker sell receive m call d₁ d₂ →
    ¬call.Reached m.callMatchPrice m.feedPrice m.maintenanceCollateralRatio

/-- No round is about a call order that is at its target and a limit order that is worth something. -/
def FeedUnreached (mia : AssetId) (enable : Bool) (b : BitassetData) (x : List LimitOrder × Database) : Prop :=
  ∀ y call limit z, FeedRounds mia enable b x y → FeedRound mia enable b call limit y z →
    ¬(call.Reached limit.sellPrice b.currentFeed.settlementPrice b.currentFeed.maintenanceCollateralRatio ∧ limit.Worthwhile)

theorem CallRounds.kept {d₁ : Database} (h : CallRounds taker sell receive m d d₁) (hd : d.Sound) (hfits : ∀ c ∈ d.callOrders, c.Fits)
    (hm : m.Fed sell) : d₁.Sound ∧ ∀ c ∈ d₁.callOrders, c.Fits := by
  induction h with
  | refl => exact ⟨hd, hfits⟩
  | tail _ hround ih =>
    obtain ⟨call, hround⟩ := hround
    obtain ⟨htrades, hkept, -⟩ := hround.spends ih.1 hm
    exact ⟨htrades.sound ih.1, hkept ih.2⟩

/-- The loop ends, as each of its rounds leaves less debt. -/
theorem halts_matchCalls (hd : d.Sound) (hfits : ∀ c ∈ d.callOrders, c.Fits) (hm : m.Fed sell)
    (hgoes : Unreached taker sell receive m d) (hfuel : 2 ^ 65 + d.debt sell < fuel) : Halts (matchCalls taker sell receive m fuel d) := by
  induction fuel generalizing d with
  | zero =>
    have hdebt := debt_nonneg hd sell
    omega
  | succ fuel ih =>
    have hdebt := debt_nonneg hd sell
    unfold matchCalls
    split
    · exact never_ok
    · rename_i call rest hfirst
      refine never_ite.mpr ⟨fun _ => never_ok, fun hcalled => never_bind.mpr ⟨halts_getLimitOrder, fun bid hbid => ?_⟩⟩
      rw [getLimitOrder_eq_ok] at hbid
      have hcall : call ∈ d.callOrders :=
        (List.perm_insertionSort _ _).mem_iff.mp (List.mem_of_mem_filter (hfirst ▸ List.mem_cons_self))
      have hmatch : Halts (d.matchCall fuel bid call m.callMatchPrice m.feedPrice m.maintenanceCollateralRatio) :=
        halts_matchCall hd ((id_of_findLimitOrder hbid).symm ▸ hbid) hcall (hfits call hcall) hm.valid hm.ratio (by omega)
      refine never_bind.mpr ⟨hmatch, fun x h => ?_⟩
      obtain ⟨result, d'⟩ := x
      refine never_ite.mpr ⟨fun _ => never_pure, fun hagain => ?_⟩
      have hround : CallRound taker sell receive m call d d' := .intro hfirst hcalled hbid h hagain
      obtain ⟨htrades, hkept, hspends⟩ := hround.spends hd hm
      have hless := (hspends.resolve_left fun hnone => hgoes d call d' .refl hround hnone.1).2
      refine ih (htrades.sound hd) (hkept hfits) (fun d₁ call' d₂ hrounds => hgoes d₁ call' d₂ (.head ⟨call, hround⟩ hrounds)) (by omega)

theorem FeedRounds.kept {x y : List LimitOrder × Database} (h : FeedRounds mia enable b x y) (hd : x.2.Consistent)
    (hfits : ∀ c ∈ x.2.callOrders, c.Fits) (hb : x.2.bitasset mia = some b) (hnull : ¬b.currentFeed.settlementPrice.isNull) :
    y.2.Consistent ∧ (∀ c ∈ y.2.callOrders, c.Fits) ∧ y.2.bitasset mia = some b := by
  induction h with
  | refl => exact ⟨hd, hfits, hb⟩
  | tail _ hround ih =>
    obtain ⟨call, limit, hround⟩ := hround
    obtain ⟨hd₁, hfits₁, hb₁⟩ := ih
    obtain ⟨htrades, hkept, -⟩ := hround.spends hd₁.toSound hb₁ hnull
    refine ⟨htrades.consistent hd₁, hkept hfits₁, ?_⟩
    obtain ⟨F, hF, -⟩ := htrades
    rwa [hF.bitasset]

/-- The loop ends, as each of its rounds leaves less debt or fewer orders. -/
theorem halts_checkCallOrdersLoop (hd : d.Consistent) (hfeeds : d.FeedsFit) (hfits : ∀ c ∈ d.callOrders, c.Fits)
    (hb : d.bitasset mia = some b) (hnull : ¬b.currentFeed.settlementPrice.isNull) (hgoes : FeedUnreached mia enable b (limits, d))
    (hfuel : 2 ^ 65 + (limits.length + d.debt mia) < fuel) : Halts (checkCallOrdersLoop mia enable b fuel limits called d) := by
  induction fuel generalizing d limits called with
  | zero =>
    have hdebt := debt_nonneg hd.toSound mia
    omega
  | succ fuel ih =>
    have hdebt := debt_nonneg hd.toSound mia
    unfold checkCallOrdersLoop
    refine never_bind.mpr ⟨halts_checkForBlackswan hd.toSound hfeeds, fun x hswan => ?_⟩
    obtain ⟨swan, d'⟩ := x
    refine never_ite.mpr ⟨fun _ => never_pure, fun hno => ?_⟩
    rw [Bool.not_eq_true] at hno
    subst hno
    obtain rfl := (checkForBlackswan_preserves hswan hd).2 rfl
    dsimp only
    split
    · exact never_pure
    · exact never_pure
    · rename_i call calls l rest hfirst
      refine never_bind.mpr ⟨halts_getLimitOrder, fun limit hlimit => never_ite.mpr ⟨fun _ => never_pure, fun hcalled => ?_⟩⟩
      rw [getLimitOrder_eq_ok] at hlimit
      refine never_bind.mpr ⟨halts_mul, fun all hall => never_bind.mpr ⟨by simp, fun _ hassets => never_ite.mpr ⟨fun _ => ?_, fun _ => ?_⟩⟩⟩
      · exact never_bind.mpr ⟨by simp, fun _ _ => never_bind.mpr ⟨halts_globallySettleAsset, fun _ _ => never_pure⟩⟩
      have hcall := mem_callOrders_of_callsOf (hfirst ▸ List.mem_cons_self : call ∈ d'.callsOf _ _)
      obtain ⟨hcallDebt, hcoll, -⟩ := hd.toSound.secured call hcall
      have hratio := (hd.toSound.feeds mia b hb).median.ratio_lt
      rw [fcAssert_eq_ok] at hassets
      refine never_bind.mpr ⟨CallOrder.halts_getMaxDebtToCover (hfits call hcall) hratio limit.valid hcallDebt hcoll (by omega), fun toCover hcover => ?_⟩
      refine never_bind.mpr ⟨by simp, fun _ _ => never_bind.mpr ⟨halts_marginTrade, fun trade htrade => ?_⟩⟩
      obtain ⟨orderReceives, callReceives⟩ := trade
      have hsale := hd.toSound.forSale limit (List.mem_of_find?_eq_some hlimit)
      have hbuy := CallOrder.getMaxDebtToCover_nonneg hcover limit.valid hcallDebt hcoll
      have hmost := CallOrder.getMaxDebtToCover_le hcover hcallDebt.le
      obtain ⟨hle, hle'⟩ := marginTrade_le htrade hsale
      obtain ⟨hreceives, hreceived, -⟩ := marginTrade_receives htrade hsale hbuy
      have hfill : Halts (d'.fillCallOrder call orderReceives callReceives limit.sellPrice false) := by
        refine halts_fillCallOrder (hfits call hcall) (fun b' hb' => ?_) hreceives hreceived (hle'.trans hmost)
        exact (hd.toSound.feeds _ b' hb').median.ratio_lt
      refine never_bind.mpr ⟨hfill, fun x h₁ => never_bind.mpr ⟨halts_fillLimitOrder, fun y h₂ => ?_⟩⟩
      obtain ⟨filled, d₁⟩ := x
      obtain ⟨filled', d₂⟩ := y
      have hround : FeedRound mia enable b call limit (l :: rest, d') (if filled' then rest else l :: rest, d₂) :=
        .intro hswan hfirst hlimit hcalled hall hassets hcover htrade h₁ h₂
      obtain ⟨htrades, hkept, hspends⟩ := hround.spends hd.toSound hb hnull
      have hless := (hspends.resolve_left fun hnone => hgoes _ call limit _ .refl hround ⟨hnone.1, hnone.2.1⟩).2.2
      have hconsistent := htrades.consistent hd
      have hbitasset : ∀ a, d₂.bitasset a = d'.bitasset a := by
        obtain ⟨F, hF, -⟩ := htrades
        exact hF.bitasset
      refine ih hconsistent (fun a b' hb' => hfeeds a b' (hbitasset a ▸ hb')) (hkept hfits) (hbitasset mia ▸ hb) (fun y call' limit' z hrounds =>
        hgoes y call' limit' z (.head ⟨call, limit, hround⟩ hrounds)) (by dsimp only at hless ⊢; omega)

/-- The loops over the margin calls end, with less debt or fewer orders after each round, if and only if no round is about a call order that
    is at its target already. -/
theorem marginLoops_end_iff (hd : d.Consistent) (hfeeds : d.FeedsFit) (hfits : ∀ c ∈ d.callOrders, c.Fits) :
    (∀ taker sell receive m, m.Fed sell →
      ((∀ d₁ call d₂, CallRounds taker sell receive m d d₁ → CallRound taker sell receive m call d₁ d₂ → Progress sell d₁ d₂) ∧
        Ends (fun fuel => matchCalls taker sell receive m fuel d) ↔ Unreached taker sell receive m d)) ∧
    ∀ mia enable b limits, d.bitasset mia = some b → ¬b.currentFeed.settlementPrice.isNull →
      ((∀ x call limit y, FeedRounds mia enable b (limits, d) x → FeedRound mia enable b call limit x y → Progress mia x.2 y.2) ∧
        Ends (fun fuel => checkCallOrdersLoop mia enable b fuel limits false d) ↔ FeedUnreached mia enable b (limits, d)) := by
  refine ⟨fun taker sell receive m hm => ⟨fun h d₁ call d₂ hrounds hround hreached => ?_, fun hgoes => ⟨?_, ?_⟩⟩,
    fun mia enable b limits hb hnull => ⟨fun h x call limit y hrounds hround hreached => ?_, fun hgoes => ⟨?_, ?_⟩⟩⟩
  · have hd₁ := (CallRounds.kept hrounds hd.toSound hfits hm).1
    obtain ⟨-, -, hspends⟩ := hround.spends hd₁ hm
    obtain ⟨-, hdebt, hlength⟩ := hspends.resolve_right fun hnot => hnot.1 hreached
    rcases h.1 d₁ call d₂ hrounds hround with hless | hless
    · omega
    · omega
  · intro d₁ call d₂ hrounds hround
    have hd₁ := (CallRounds.kept hrounds hd.toSound hfits hm).1
    obtain ⟨-, -, hspends⟩ := hround.spends hd₁ hm
    exact .inl (hspends.resolve_left fun hnone => hgoes d₁ call d₂ hrounds hround hnone.1).2
  · refine ⟨2 ^ 65 + (d.debt sell).toNat + 1, fun fuel hfuel => halts_matchCalls hd.toSound hfits hm hgoes ?_⟩
    have hdebt := debt_nonneg hd.toSound sell
    omega
  · obtain ⟨hd₁, -, hb₁⟩ := FeedRounds.kept hrounds hd hfits hb hnull
    obtain ⟨-, -, hspends⟩ := hround.spends hd₁.toSound hb₁ hnull
    obtain ⟨-, -, hdebt, hlength⟩ := hspends.resolve_right fun hnot => hnot.1 hreached
    rcases h.1 x call limit y hrounds hround with hless | hless
    · omega
    · omega
  · intro x call limit y hrounds hround
    obtain ⟨hd₁, -, hb₁⟩ := FeedRounds.kept hrounds hd hfits hb hnull
    obtain ⟨-, -, hspends⟩ := hround.spends hd₁.toSound hb₁ hnull
    exact (hspends.resolve_left fun hnone => hgoes x call limit y hrounds hround ⟨hnone.1, hnone.2.1⟩).2.1
  · refine ⟨2 ^ 65 + limits.length + (d.debt mia).toNat + 1, fun fuel hfuel =>
      halts_checkCallOrdersLoop hd hfeeds hfits hb hnull hgoes ?_⟩
    have hdebt := debt_nonneg hd.toSound mia
    omega

end

/-! ### Concrete loops -/

theorem feedsFit_of_all {d : Database} (h : d.bitassets.all fun x => x.all fun b =>
    b.currentFeed.settlementPrice.base.amount < 2 ^ 63 ∧ b.currentFeed.settlementPrice.quote.amount < 2 ^ 63) : d.FeedsFit := by
  intro a b hb
  unfold bitasset at hb
  obtain ⟨x, hx, rfl⟩ : ∃ x, d.bitassets[a]? = some x ∧ x = some b := by simpa [Option.join_eq_some_iff] using hb
  have hfits := List.all_eq_true.mp h _ (List.mem_of_getElem? hx)
  simpa using hfits

theorem fits_of_all {d : Database} (h : d.callOrders.all fun c =>
    c.debt < 2 ^ 63 ∧ c.collateral < 2 ^ 63 ∧ c.targetCollateralRatio.all (· < 2 ^ 16)) : ∀ c ∈ d.callOrders, c.Fits := by
  intro c hc
  obtain ⟨hdebt, hcoll, htarget⟩ := of_decide_eq_true (List.all_eq_true.mp h c hc)
  refine ⟨hdebt, hcoll, fun t ht => ?_⟩
  rw [Option.mem_def] at ht
  rw [ht] at htarget
  exact of_decide_eq_true htarget

theorem marginLoops_end_iff_borrowed : ∃ d, [publish ⟨⟨1, 1⟩, ⟨1, 0⟩⟩ 1750, borrow 0 2000 1000, sell 0 ⟨500, 0⟩ ⟨600, 1⟩].foldlM step fresh = some d ∧
    (∀ taker sell receive m, m.Fed sell →
      ((∀ d₁ call d₂, CallRounds taker sell receive m d d₁ → CallRound taker sell receive m call d₁ d₂ → Progress sell d₁ d₂) ∧
        Ends (fun fuel => matchCalls taker sell receive m fuel d) ↔ Unreached taker sell receive m d)) ∧
    ∀ mia enable b limits, d.bitasset mia = some b → ¬b.currentFeed.settlementPrice.isNull →
      ((∀ x call limit y, FeedRounds mia enable b (limits, d) x → FeedRound mia enable b call limit x y → Progress mia x.2 y.2) ∧
        Ends (fun fuel => checkCallOrdersLoop mia enable b fuel limits false d) ↔ FeedUnreached mia enable b (limits, d)) := by
  refine ⟨_, (Option.some_get (by decide +kernel)).symm, ?_⟩
  refine marginLoops_end_iff (Reachable.of_foldlM fresh_genesis (Option.some_get (by decide +kernel)).symm).lawful.toConsistent
    (feedsFit_of_all (by decide +kernel)) (fits_of_all (by decide +kernel))

/-- The borrower of the first call order wants the ratio 2.001. One unit of its collateral is worth more than what it is short of. -/
def stallingEvents : List (Nat × Event) :=
  [publish ⟨⟨900000000000000000, 1⟩, ⟨1, 0⟩⟩ 2000,
   ⟨20, .operation (.callOrderUpdate ⟨⟨0, 0⟩, 0, ⟨1, 0⟩, ⟨400000000000000001, 1⟩, some 2001⟩)⟩,
   borrow 1 100 800000000000000000, publish ⟨⟨790000000000000000, 1⟩, ⟨1, 0⟩⟩ 2000]

def stallingSale : LimitOrderCreate := ⟨⟨0, 0⟩, 1, ⟨800000000000000000, 1⟩, ⟨1, 0⟩, 1000, false⟩

def stallingFee : PaidFee := ⟨⟨0, 0⟩, 0, Int.le_refl 0, Int.le_refl 0⟩

def beforeSale : Database := (stallingEvents.foldlM step fresh).get (by decide +kernel)

theorem beforeSale_reachable : beforeSale.Reachable := .of_foldlM fresh_genesis (Option.some_get _).symm

/-- What the new order sells is taken from its seller. -/
def afterPayment : Database :=
  ((beforeSale.adjustCoreInOrders stallingSale.seller stallingSale.amountToSell).toOption.bind fun d =>
    (d.adjustBalance stallingSale.seller stallingSale.amountToSell.neg).toOption).get (by decide +kernel)

def stallingOrder : LimitOrder := afterPayment.newLimitOrder stallingSale stallingFee (by decide)

/-- The new order is in the book, and meets the margin calls next. -/
def stalling : Database := afterPayment.createLimitOrder stallingOrder

theorem stalling_consistent : stalling.Consistent := by
  obtain ⟨d₁, h₁, h₂⟩ := Option.bind_eq_some_iff.mp (Option.some_get (_ : ((beforeSale.adjustCoreInOrders stallingSale.seller
    stallingSale.amountToSell).toOption.bind fun d => (d.adjustBalance stallingSale.seller stallingSale.amountToSell.neg).toOption).isSome)).symm
  have hd := beforeSale_reachable.lawful.toConsistent
  exact (createLimitOrder_creates (by decide) (toOption_eq_some.mp h₁) (toOption_eq_some.mp h₂) hd.toSound).consistent hd

def stallingCall : CallOrder := ⟨0, 0, 1, 400000000000000001, ⟨⟨1, 0⟩, ⟨800000000000000002, 1⟩⟩, some 2001⟩

def stallingMarket : CallMarket := ⟨⟨⟨1, 0⟩, ⟨493750000000000000, 1⟩⟩, ⟨⟨790000000000000000, 1⟩, ⟨1, 0⟩⟩, 2000⟩

/-- The first call order is called for nothing, and the loop goes on with it. -/
theorem marginLoops_stall : ¬ ∀ d : Database, d.Consistent → d.FeedsFit → (∀ c ∈ d.callOrders, c.Fits) →
    ∀ taker sell receive m, m.Fed sell →
      (∀ d₁ call d₂, CallRounds taker sell receive m d d₁ → CallRound taker sell receive m call d₁ d₂ → Progress sell d₁ d₂) ∧
        Ends (fun fuel => matchCalls taker sell receive m fuel d) := by
  intro h
  have hmarket : (stalling.callMarket stallingOrder).toOption = some (some stallingMarket) := by decide +kernel
  have hfed := callMarket_fed (toOption_eq_some.mp hmarket) stalling_consistent.toSound
  obtain ⟨hprogress, -⟩ := h stalling stalling_consistent (feedsFit_of_all (by decide +kernel)) (fits_of_all (by decide +kernel)) 0 1 0 _ hfed
  have hbid : stalling.findLimitOrder 0 = some stallingOrder := by decide +kernel
  have hcalled : ¬(stallingCall.debtType ≠ 1 ∨ stallingCall.callPrice.gt stallingMarket.feedPrice.inv) := by decide +kernel
  obtain ⟨rest, hfirst⟩ : ∃ rest, stalling.callsFrom (.min 0 1) = stallingCall :: rest := ⟨_, List.eq_cons_of_mem_head? (by decide +kernel)⟩
  have hnothing : (stalling.matchCall 20 stallingOrder stallingCall stallingMarket.callMatchPrice stallingMarket.feedPrice
      stallingMarket.maintenanceCollateralRatio).toOption.map (fun x => (x.1, x.2.debt 1, x.2.limitOrders.length)) =
      some (0, stalling.debt 1, stalling.limitOrders.length) := by decide +kernel
  obtain ⟨⟨result, d'⟩, hmatch, hresult⟩ := Option.map_eq_some_iff.mp hnothing
  simp only [Prod.mk.injEq] at hresult
  obtain ⟨rfl, hdebt, hlength⟩ := hresult
  have hround : CallRound 0 1 0 stallingMarket stallingCall stalling d' :=
    .intro hfirst hcalled hbid (toOption_eq_some.mp hmatch) (by decide)
  rcases hprogress stalling stallingCall d' .refl hround with hless | hless
  · exact hless.ne hdebt
  · exact hless.ne hlength

end Khc.Market.Database

/-! Global settlement: every call order of the asset pays for its debt into the fund and goes, and its borrower gets the
    rest of the collateral. -/

namespace Khc.Market.Database

open Lib
open Chain (Asset AccountId AssetId Price)

/-- A global settlement closes the call orders of the asset and no others, keeps the supply, gathers in the fund what the call
    orders pay, gives the borrowers the rest, and takes or makes nothing of any asset. -/
theorem globallySettleAsset_settlesAll {d d' : Database} {mia : AssetId} {p : Price} (hd : d.Consistent)
    (h : d.globallySettleAsset mia p = .ok d') :
    d'.callOrders = d.callOrders.filter (·.debtType ≠ mia) ∧
      (∀ a, d'.currentSupply a = d.currentSupply a) ∧
      (∃ b, d'.bitasset mia = some b ∧ b.settlementFund = ((d.callsOn mia).map (paidAt p)).sum) ∧
      (∀ c ∈ d.callsOn mia, ∃ r, multiplyAndRoundUp c.getDebt p = .ok r ∧ paidAt p c = min c.collateral r.amount) ∧
      (∀ owner a, d'.getBalance owner a = d.getBalance owner a +
        (((d.callsOn mia).filter (·.borrower = owner)).map fun c => (returned p c).of a).sum) ∧
      ∀ a, d'.balancesOf a + d'.collateral a + d'.funds a = d.balancesOf a + d.collateral a + d.funds a := by
  obtain ⟨b, hsettles⟩ := globallySettleAsset_settles h hd.toSound
  refine ⟨hsettles.calls, hsettles.supply_eq, ?_, hsettles.priced, fun owner a => ?_, fun a => ?_⟩
  · have hbitasset := hsettles.bitasset_eq mia
    rw [if_pos rfl, hsettles.bitasset, Option.map_some] at hbitasset
    exact ⟨_, hbitasset, rfl⟩
  · rw [globallySettleAsset_credits h hd.toSound owner a]
    congr 1
    induction d.callsOn mia with
    | nil => rfl
    | cons c cs ih =>
      rw [List.map_cons, List.sum_cons, Pi.add_apply, Pi.add_apply, ih, credit_apply]
      by_cases howner : c.borrower = owner
      · rw [if_pos howner, List.filter_cons_of_pos (by simpa using howner), List.map_cons, List.sum_cons]
      · rw [if_neg howner, List.filter_cons_of_neg (by simpa using howner), zero_add]
  · obtain ⟨F, hF, hworth, hsupply, -⟩ := hsettles.changes
    have hfees := globallySettleAsset_sameFees h
    have hzero := worth_of_amounts hF (a := a)
    rw [hworth, (hd.live mia b hsettles.bitasset hsettles.unsettled).fund, Asset.of_zero, neg_zero, add_zero] at hzero
    simp only [worth, Shift.worth, amount, total, liquid, requested, bidden, hsettles.settlements, hsettles.bids, hsettles.limits,
      hfees.accumulated, hfees.pools, hfees.pending, hsettles.supply_eq] at hzero
    omega

/-- Two accounts have borrowed 1000 each, one with 1750 and one with 3000 of the core asset. At two of it for three, each pays
    1500. -/
theorem globallySettleAsset_settlesAll_borrowed : ∃ d d' : Database,
    [publish ⟨⟨1, 1⟩, ⟨1, 0⟩⟩ 1500, borrow 0 1750 1000, borrow 1 3000 1000].foldlM step fresh = some d ∧
      (d.globallySettleAsset 1 ⟨⟨2, 1⟩, ⟨3, 0⟩⟩).toOption = some d' ∧ d'.callOrders = [] ∧ d'.getBalance 0 0 = 98500 ∧
      (∀ a, d'.currentSupply a = d.currentSupply a) ∧
      ∀ a, d'.balancesOf a + d'.collateral a + d'.funds a = d.balancesOf a + d.collateral a + d.funds a := by
  have hrun : ([publish ⟨⟨1, 1⟩, ⟨1, 0⟩⟩ 1500, borrow 0 1750 1000, borrow 1 3000 1000].foldlM step fresh).any fun d =>
      (d.globallySettleAsset 1 ⟨⟨2, 1⟩, ⟨3, 0⟩⟩).toOption.any fun d' => d'.callOrders = [] ∧ d'.getBalance 0 0 = 98500 := by
    decide +kernel
  obtain ⟨d, hd, hrun⟩ := (Option.any_eq_true _ _).mp hrun
  obtain ⟨d', hd', hstate⟩ := (Option.any_eq_true _ _).mp hrun
  obtain ⟨hcalls, hbalance⟩ := of_decide_eq_true hstate
  obtain ⟨-, hsupply, -, -, -, htotal⟩ :=
    globallySettleAsset_settlesAll (Reachable.of_foldlM fresh_genesis hd).lawful.toConsistent (toOption_eq_some.mp hd')
  exact ⟨d, d', hd, hd', hcalls, hbalance, hsupply, htotal⟩

end Khc.Market.Database
