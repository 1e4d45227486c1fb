import Khc.Market.Consistent

/-! The two sides of a market: which orders cross, and in which order the book shows them. -/

namespace Khc.Market

open Lib
open Chain (Asset Price AccountId AssetId)

namespace LimitOrder

/-- The orders sell what the other one wants. -/
def Opposes (o t : LimitOrder) : Prop := o.sellAssetId = t.receiveAssetId ∧ o.receiveAssetId = t.sellAssetId

/-- The orders are of the same side. -/
def Joins (o t : LimitOrder) : Prop := o.sellAssetId = t.sellAssetId ∧ o.receiveAssetId = t.receiveAssetId

/-- The orders accept each other's price. -/
def Crosses (o t : LimitOrder) : Prop := o.Opposes t ∧ 1 ≤ o.sellPrice.rate * t.sellPrice.rate

variable {o o' t : LimitOrder}

theorem Crosses.symm (h : o.Crosses t) : t.Crosses o := by
  obtain ⟨⟨hsell, hreceive⟩, hrate⟩ := h
  exact ⟨⟨hreceive.symm, hsell.symm⟩, mul_comm o.sellPrice.rate _ ▸ hrate⟩

/-- An order that crosses another one crosses every better one of that side. -/
theorem Crosses.of_joins (h : o.Crosses t) (hjoins : o'.Joins t) (hrate : t.sellPrice.rate ≤ o'.sellPrice.rate) :
    o.Crosses o' := by
  obtain ⟨⟨hsell, hreceive⟩, hcross⟩ := h
  exact ⟨⟨hsell.trans hjoins.2.symm, hreceive.trans hjoins.1.symm⟩,
    hcross.trans (mul_le_mul_of_nonneg_left hrate o.valid.rate_pos.le)⟩

theorem crosses_congr (h : o'.sellPrice = o.sellPrice) : o'.Crosses t ↔ o.Crosses t := by
  simp only [Crosses, Opposes, sellAssetId, receiveAssetId, h]

/-- The order of the book -/
def key (o : LimitOrder) : (ℕ ×ₗ ℕ ×ₗ ℚ)ᵒᵈ ×ₗ ℕ := toLex (OrderDual.toDual o.sellPrice.key, o.id)

theorem precedes_iff : o.precedes t ↔ o.key < t.key := by
  rw [precedes, key, key, Prod.Lex.toLex_lt_toLex, Price.gt_iff o.valid t.valid, Price.gt_iff t.valid o.valid,
    OrderDual.toDual_lt_toDual]
  refine or_congr_right' fun hnot => and_congr_left fun _ => ?_
  rw [not_lt] at hnot ⊢
  exact ⟨fun h => congrArg OrderDual.toDual (hnot.antisymm h), fun h => (OrderDual.toDual_inj.mp h).ge⟩

end LimitOrder

namespace CallOrder

/-- The order of the call orders -/
def key (c : CallOrder) : (ℕ ×ₗ ℕ ×ₗ ℚ) ×ₗ ℕ := toLex (c.callPrice.key, c.id)

theorem precedes_iff {c c' : CallOrder} (hc : c.callPrice.Valid) (hc' : c'.callPrice.Valid) : c.precedes c' ↔ c.key < c'.key := by
  rw [precedes, key, key, Prod.Lex.toLex_lt_toLex, Price.lt_iff hc hc', Price.lt_iff hc' hc]
  refine or_congr_right' fun hnot => and_congr_left fun _ => ?_
  rw [not_lt] at hnot ⊢
  exact ⟨fun h => h.antisymm hnot, fun h => h.le⟩

end CallOrder

namespace Database
variable {d : Database} {o t : LimitOrder} {max min : Price}

theorem limitsByPrice_perm : d.limitsByPrice.Perm d.limitOrders := List.perm_insertionSort _ _

theorem limitsByPrice_pairwise : d.limitsByPrice.Pairwise fun x y => x.key ≤ y.key := by
  refine pairwise_insertionSort_key fun x _ y _ => ?_
  rw [LimitOrder.precedes_iff, not_lt]

theorem mem_limitsBetween (hmax : max.Valid) (hmin : min.Valid) :
    o ∈ d.limitsBetween max min ↔ o ∈ d.limitOrders ∧ o.sellPrice.key ≤ max.key ∧ min.key ≤ o.sellPrice.key := by
  rw [limitsBetween, List.mem_filter, limitsByPrice_perm.mem_iff, decide_eq_true_eq, Price.gt_iff o.valid hmax,
    Price.gt_iff hmin o.valid, not_lt, not_lt]

/-- The best price comes first. -/
theorem limitsBetween_pairwise : (d.limitsBetween max min).Pairwise fun x y => y.sellPrice.key ≤ x.sellPrice.key := by
  refine (limitsByPrice_pairwise.imp fun {x y} h => ?_).filter _
  exact OrderDual.toDual_le_toDual.mp (Prod.Lex.monotone_fst _ _ h)

/-- The orders that a new one meets: they cross it, at a price up to the greatest one. -/
theorem mem_makers (t : LimitOrder) : o ∈ d.limitsBetween (.max t.receiveAssetId t.sellAssetId) t.sellPrice.inv ↔
    o ∈ d.limitOrders ∧ o.Crosses t ∧ o.sellPrice.rate ≤ Chain.maxShareSupply := by
  have hne : t.receiveAssetId ≠ t.sellAssetId := t.valid.assets.symm
  have ht := t.valid.rate_pos
  rw [mem_limitsBetween (Price.max_valid hne) t.valid.inv]
  refine and_congr_right fun _ => ⟨fun ⟨hle, hge⟩ => ?_, fun ⟨⟨hopposes, hcross⟩, hrate⟩ => ⟨?_, ?_⟩⟩
  · obtain ⟨hb, hq⟩ := Price.assets_of_key_between (p := t.sellPrice.inv) (r := Price.max t.receiveAssetId t.sellAssetId)
      rfl rfl hge hle
    rw [Price.key_le_iff (q := .max t.receiveAssetId t.sellAssetId) hb hq, Price.rate_max] at hle
    rw [Price.key_le_iff hb.symm hq.symm, Price.rate_inv, inv_le_iff_one_le_mul₀ ht] at hge
    exact ⟨⟨⟨hb, hq⟩, hge⟩, hle⟩
  · rw [Price.key_le_iff (by exact hopposes.1) (by exact hopposes.2), Price.rate_max]
    exact hrate
  · rw [Price.key_le_iff (by exact hopposes.1.symm) (by exact hopposes.2.symm), Price.rate_inv, inv_le_iff_one_le_mul₀ ht]
    exact hcross

/-- An order behind another one of its side is not better than that. -/
theorem better_of_behindAnother (h : d.behindAnother t) :
    ∃ o ∈ d.limitOrders, o ≠ t ∧ o.Joins t ∧ t.sellPrice.rate ≤ o.sellPrice.rate := by
  unfold behindAnother at h
  split at h
  · rename_i o ho
    have hmem := List.mem_of_getLast? ho
    rw [List.mem_filter, limitsByPrice_perm.mem_iff, decide_eq_true_eq, LimitOrder.precedes_iff] at hmem
    obtain ⟨ho, hkey⟩ := hmem
    rw [decide_eq_true_eq] at h
    have hprice : t.sellPrice.key ≤ o.sellPrice.key :=
      OrderDual.toDual_le_toDual.mp (Prod.Lex.monotone_fst _ _ hkey.le)
    refine ⟨o, ho, ?_, h, (Price.key_le_iff h.1.symm h.2.symm).mp hprice⟩
    rintro rfl
    exact lt_irrefl _ hkey
  · cases h

/-! ### Call orders -/

theorem mem_callsFrom {c : CallOrder} (hd : d.Sound) (hmin : min.Valid) :
    c ∈ d.callsFrom min ↔ c ∈ d.callOrders ∧ min.key ≤ c.callPrice.key := by
  rw [callsFrom, List.mem_filter, (List.perm_insertionSort _ _).mem_iff, decide_eq_true_eq]
  refine and_congr_right fun hc => ?_
  rw [Price.lt_iff (hd.secured c hc).priced.valid hmin, not_lt]

/-- The least call price comes first. -/
theorem callsFrom_pairwise (hd : d.Sound) : (d.callsFrom min).Pairwise fun x y => x.callPrice.key ≤ y.callPrice.key := by
  refine ((pairwise_insertionSort_key (k := CallOrder.key) fun x hx y hy => ?_).imp fun {x y} h => ?_).filter _
  · rw [CallOrder.precedes_iff (hd.secured y hy).priced.valid (hd.secured x hx).priced.valid, not_lt]
  · exact Prod.Lex.monotone_fst _ _ h

end Database

end Khc.Market
