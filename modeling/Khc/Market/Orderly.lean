import Khc.Market.Reachable

/-! What the order book is like as long as no order offers more than the greatest price: no two orders of it accept each
    other's price, and none of them would receive nothing. -/

namespace Khc.Market

open Lib
open Chain (Asset Price)

namespace LimitOrder
variable {t : Option Nat} {o o' : LimitOrder}

theorem RestOf.worthwhile (h : o'.RestOf t o) (ht : some o.id ≠ t) (hworth : o.Worthwhile) : o'.Worthwhile := by
  rcases h with rfl | ⟨-, -, -, h⟩
  · exact hworth
  · exact h ht

/-- An order does not cross its own side. -/
theorem not_crosses_self (h : o'.sellPrice = o.sellPrice) : ¬o'.Crosses o := by
  rintro ⟨⟨hsell, -⟩, -⟩
  rw [sellAssetId, h] at hsell
  exact o.valid.assets hsell

theorem Worthwhile.pos {r : Asset} (h : o.Worthwhile) (hr : o.amountToReceive = .ok r) : 0 < r.amount := by
  rcases mul_eq_ok hr with ⟨-, hconvert⟩ | ⟨hne, -, -⟩
  · obtain ⟨hpos, -, hamount⟩ := convert_eq_ok hconvert
    have hne := (toNat_div_ne_zero hpos o.valid.quote_pos.le).mpr h
    rw [Nat.add_zero] at hamount
    rw [hamount]
    exact Int.natCast_pos.mpr (Nat.pos_of_ne_zero hne)
  · exact absurd rfl hne

end LimitOrder

namespace Database
variable {d d' : Database} {fuel : Nat} {t : LimitOrder}

/-- The order sells no more than `GRAPHENE_MAX_SHARE_SUPPLY` for one share of what it wants. -/
def Event.SellsBelowMax : Event → Prop
  | .operation (.limitOrderCreate o) => o.amountToSell.amount ≤ Chain.maxShareSupply * o.minToReceive.amount
  | _ => True

/-- What the book is like as long as no order offers more than the greatest price -/
structure Orderly (d : Database) : Prop where
  uncrossed : ∀ a ∈ d.limitOrders, ∀ b ∈ d.limitOrders, ¬a.Crosses b
  worthwhile : ∀ o ∈ d.limitOrders, o.Worthwhile
  priced : ∀ o ∈ d.limitOrders, o.sellPrice.rate ≤ Chain.maxShareSupply

/-- Orders that are filled or taken out leave the book orderly. -/
theorem Orderly.thin (h : d.Orderly) (hl : List.SublistForall₂ (LimitOrder.RestOf none) d'.limitOrders d.limitOrders) :
    d'.Orderly where
  uncrossed a ha b hb hcrosses := by
    obtain ⟨a', ha', hrest⟩ := exists_of_sublistForall₂ hl ha
    obtain ⟨b', hb', hrest'⟩ := exists_of_sublistForall₂ hl hb
    have hcross := ((LimitOrder.crosses_congr hrest.price_eq).mp hcrosses).symm
    exact h.uncrossed b' hb' a' ha' ((LimitOrder.crosses_congr hrest'.price_eq.symm).mpr hcross)
  worthwhile o ho := by
    obtain ⟨o', ho', hrest⟩ := exists_of_sublistForall₂ hl ho
    exact hrest.worthwhile (by simp) (h.worthwhile o' ho')
  priced o ho := by
    obtain ⟨o', ho', hrest⟩ := exists_of_sublistForall₂ hl ho
    exact hrest.price_eq ▸ h.priced o' ho'

/-- A new order that stays is behind another one, or what the matching has left of it is worth something. -/
theorem applyOrder_stays {gone : Bool} {o : LimitOrder} (h : d.applyOrder fuel t = .ok (gone, d')) (hd : d.Sound)
    (ht : t ∈ d.limitOrders) (hfind : d'.findLimitOrder t.id = some o) :
    (d.behindAnother t ∧ d' = d) ∨ ∃ m l, Matches d d' t m l ∧ o.Worthwhile := by
  rcases applyOrder_cases h hd ht with ⟨hbehind, -, rfl⟩ | ⟨-, m, l, d₁, hmatches, hrest⟩
  · exact .inl ⟨hbehind, rfl⟩
  · rcases hrest with ⟨hnone, -, rfl⟩ | ⟨o₁, ho₁, hcull⟩
    · rw [hnone] at hfind
      cases hfind
    · have hid := id_of_findLimitOrder ho₁
      rcases maybeCullSmallOrder_cases hcull with ⟨-, hcancel, -⟩ | ⟨-, rfl, hworth⟩
      · obtain ⟨-, hgone, -⟩ := cancelLimitOrder_deals (t := none) hcancel (hid.symm ▸ ho₁)
        rw [← hid, findLimitOrder_gone ((hmatches.trades hd).sound hd).limits.nodup hgone] at hfind
        cases hfind
      · obtain rfl := Option.some.inj (ho₁.symm.trans hfind)
        exact .inr ⟨m, l, hmatches, hworth⟩

/-- What stays of a new order is worth something, and nothing in the book crosses it. -/
theorem applyOrder_clear {gone : Bool} {o : LimitOrder} (h : d.applyOrder fuel t = .ok (gone, d')) (hd : d.Sound)
    (ht : t ∈ d.limitOrders) (hworth : t.Worthwhile)
    (hpriced : ∀ x ∈ d.limitOrders, x ≠ t → x.sellPrice.rate ≤ Chain.maxShareSupply)
    (huncrossed : ∀ x ∈ d.limitOrders, x ≠ t → ∀ y ∈ d.limitOrders, y ≠ t → ¬x.Crosses y)
    (hfind : d'.findLimitOrder t.id = some o) : o.Worthwhile ∧ ∀ x ∈ d'.limitOrders, ¬x.Crosses t := by
  rcases applyOrder_stays h hd ht hfind with ⟨hbehind, rfl⟩ | ⟨m, l, hmatches, hworth'⟩
  · -- the order before it in the book would be crossed as well
    obtain ⟨better, hbetter, hne, hjoins, hrate⟩ := better_of_behindAnother hbehind
    obtain rfl : t = o := eq_of_find?_key hd.limits.nodup hfind ht rfl
    refine ⟨hworth, fun x hx hcross => ?_⟩
    by_cases hxt : x = t
    · exact LimitOrder.not_crosses_self (hxt ▸ rfl) hcross
    · exact huncrossed x hx hxt better hbetter hne (hcross.of_joins hjoins hrate)
  · refine ⟨hworth', fun x hx hcross => ?_⟩
    rcases hmatches.rest with hspent | ⟨hshows, -⟩
    · exact hspent o hfind hworth'
    · obtain ⟨F, hF, -⟩ := hmatches.trades hd
      obtain ⟨y, hy, hrest⟩ := exists_of_sublistForall₂ hF.limits hx
      have hyt : y ≠ t := by
        rintro rfl
        exact LimitOrder.not_crosses_self hrest.price_eq hcross
      obtain ⟨_, hnil, -⟩ := hshows.all x hx hcross (hrest.price_eq ▸ hpriced y hy hyt)
      cases hnil

/-- A new order comes into an orderly book. -/
structure Enters (d d' : Database) (o : LimitOrderCreate) (t : LimitOrder) : Prop where
  limits : d'.limitOrders = d.limitOrders ++ [t]
  calls : d'.callOrders = d.callOrders
  bitassets : d'.bitassets = d.bitassets
  price : t.sellPrice = o.price
  worthwhile : t.Worthwhile
  sound : d'.Sound
  others : ∀ x ∈ d'.limitOrders, x ≠ t → x ∈ d.limitOrders

theorem applyOperation_enters {o : LimitOrderCreate} (h : d.applyOperation fuel (.limitOrderCreate o) = .ok d') (hd : d.Consistent) :
    ∃ t d₁ d₂ gone, Enters d d₁ o t ∧ t ∈ d₁.limitOrders ∧ d₁.applyOrder fuel t = .ok (gone, d₂) ∧
      d'.limitOrders = d₂.limitOrders ∧ d'.callOrders = d₂.callOrders ∧ o.price.Valid := by
  obtain ⟨paid, t, d₁, d₂, d₃, gone, δ, ε, m, hcreates, hd₂, ht, happly, m', hvalid, -⟩ := applyOperation_creates h hd
  have hlimits : d₂.limitOrders = d.limitOrders ++ [t] := by rw [hcreates.same, m.limitOrders]
  refine ⟨t, d₂, d₃, gone, ⟨hlimits, ?_, ?_, hcreates.price, ?_, hd₂.toSound, fun x hx hne => ?_⟩, ht, happly, m'.limitOrders,
    m'.callOrders, hvalid⟩
  · rw [hcreates.same, m.callOrders]
  · rw [hcreates.same, m.bitassets]
  · have hquote : 0 < o.minToReceive.amount := hvalid.quote_pos
    rw [LimitOrder.Worthwhile, hcreates.price, hcreates.sale]
    exact le_mul_of_one_le_right hvalid.base_pos.le hquote
  · rw [hlimits, List.mem_append, List.mem_singleton] at hx
    exact hx.resolve_right hne

/-- A new order leaves the book orderly. -/
theorem applyOperation_orderly {o : LimitOrderCreate} (h : d.applyOperation fuel (.limitOrderCreate o) = .ok d')
    (hd : d.Consistent) (hbook : d.Orderly) (hmax : o.amountToSell.amount ≤ Chain.maxShareSupply * o.minToReceive.amount) :
    d'.Orderly := by
  obtain ⟨t, d₂, d₃, gone, henters, ht, happly, hlimits, -, hvalid⟩ := applyOperation_enters h hd
  have hd₂ := henters.sound
  have hrate : t.sellPrice.rate ≤ Chain.maxShareSupply := by
    rw [henters.price, Price.rate, div_le_iff₀ (by exact_mod_cast hvalid.quote_pos)]
    exact_mod_cast hmax
  have htrades := applyOrder_trades happly hd₂ ht
  have hclear : ∀ y ∈ d₃.limitOrders, y.id = t.id → y.Worthwhile ∧ ∀ x ∈ d₃.limitOrders, ¬x.Crosses t := fun y hy hid =>
    applyOrder_clear happly hd₂ ht henters.worthwhile (fun x hx hne => hbook.priced x (henters.others x hx hne))
      (fun x hx hne y hy hne' => hbook.uncrossed x (henters.others x hx hne) y (henters.others y hy hne'))
      (hid ▸ (htrades.sound hd₂).limits.find?_of_mem hy)
  -- each order is what is left of the new one or of one that was there before
  have hfrom : ∀ y ∈ d₃.limitOrders, (y.id = t.id ∧ y.sellPrice = t.sellPrice) ∨
      ∃ x ∈ d.limitOrders, y.sellPrice = x.sellPrice ∧ y.Worthwhile := by
    intro y hy
    obtain ⟨F, hF, -⟩ := htrades
    obtain ⟨x, hx, hrest⟩ := exists_of_sublistForall₂ hF.limits hy
    by_cases hxt : x = t
    · exact .inl ⟨hxt ▸ hrest.id_eq, hxt ▸ hrest.price_eq⟩
    · have hold := henters.others x hx hxt
      have hid : x.id ≠ t.id := fun hid => hxt (eq_of_find?_key hd₂.limits.nodup (hd₂.limits.find?_of_mem ht) hx hid)
      exact .inr ⟨x, hold, hrest.price_eq, hrest.worthwhile (fun heq => hid (Option.some.inj heq)) (hbook.worthwhile x hold)⟩
  have hbook₃ : d₃.Orderly := by
    refine ⟨fun a ha b hb hcross => ?_, fun y hy => ?_, fun y hy => ?_⟩
    · rcases hfrom b hb with ⟨hid, hprice⟩ | ⟨x, hx, hprice, -⟩
      · exact (hclear b hb hid).2 a ha ((LimitOrder.crosses_congr hprice.symm).mpr hcross.symm).symm
      · rcases hfrom a ha with ⟨hid', hprice'⟩ | ⟨x', hx', hprice', -⟩
        · exact (hclear a ha hid').2 b hb ((LimitOrder.crosses_congr hprice'.symm).mpr hcross).symm
        · have hcross' := ((LimitOrder.crosses_congr hprice').mp hcross).symm
          exact hbook.uncrossed x hx x' hx' ((LimitOrder.crosses_congr hprice.symm).mpr hcross')
    · rcases hfrom y hy with ⟨hid, -⟩ | ⟨x, -, -, hworth⟩
      · exact (hclear y hy hid).1
      · exact hworth
    · rcases hfrom y hy with ⟨-, hprice⟩ | ⟨x, hx, hprice, -⟩
      · exact hprice ▸ hrate
      · exact hprice ▸ hbook.priced x hx
  exact hbook₃.thin (hlimits ▸ Std.Refl.refl _)

theorem orderly_of_reaches {g : Database} (h : Reaches step (fun _ i => i.2.SellsBelowMax) g d) (hg : g.Genesis) :
    d.Lawful ∧ d.Orderly := by
  refine h.invariant (I := fun d => d.Lawful ∧ d.Orderly) ?_ ⟨hg.lawful, ?_, ?_, ?_⟩
  · rintro d i d' ⟨hd, hbook⟩ hi hs
    have hhandle := step_eq_some.mp hs
    refine ⟨hd.step hs, ?_⟩
    by_cases he : ∀ o, i.2 ≠ .operation (.limitOrderCreate o)
    · exact hbook.thin (handle_preserves hhandle hd.toConsistent hd.worth he).limits
    · obtain ⟨o, ho⟩ := not_forall.mp he
      rw [not_not] at ho
      rw [ho] at hhandle hi
      exact applyOperation_orderly hhandle hd.toConsistent hbook hi
  all_goals simp [hg.limitOrders]

end Database

end Khc.Market
