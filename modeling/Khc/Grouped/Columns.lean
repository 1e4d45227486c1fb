import Khc.Grouped.Placement
import Khc.Lib.Ordered

/-! The groups of one market and group type as bands of prices: which of them the map finds next to a price, and what its operations make
    of them. -/

namespace Khc.Grouped

open Chain (Asset Price AssetId)
open Lib
open Market (LimitOrder)
open OrderDual (toDual)

/-- A market and a group type -/
structure Column where
  group : Nat
  base : AssetId
  quote : AssetId

/-! ### The order of the map -/

namespace LimitOrderGroupKey
variable {a b k x : LimitOrderGroupKey}

def column (k : LimitOrderGroupKey) : Column := ⟨k.group, k.minPrice.base.assetId, k.minPrice.quote.assetId⟩

/-- The place of a key: by the group type, then by the price, the greatest first -/
def rank (k : LimitOrderGroupKey) : ℕ ×ₗ (ℕ ×ₗ ℕ ×ₗ ℚ)ᵒᵈ := toLex (k.group, toDual k.minPrice.key)

theorem lt_iff (ha : a.minPrice.Valid) (hb : b.minPrice.Valid) : a.lt b = true ↔ a.rank < b.rank := by
  unfold lt rank
  rw [Bool.or_eq_true, Bool.and_eq_true, Bool.not_eq_true', decide_eq_true_eq, decide_eq_false_iff_not, Price.lt_iff hb ha,
    Prod.Lex.toLex_lt_toLex, OrderDual.toDual_lt_toDual]
  constructor
  · rintro (hlt | ⟨hge, hkey⟩)
    · exact .inl hlt
    · exact (not_lt.mp hge).lt_or_eq.imp_right fun heq => ⟨heq, hkey⟩
  · rintro (hlt | ⟨heq, hkey⟩)
    · exact .inl hlt
    · exact .inr ⟨heq.not_gt, hkey⟩

theorem rank_le_iff (h : a.column = b.column) : a.rank ≤ b.rank ↔ b.minPrice.rate ≤ a.minPrice.rate := by
  obtain ⟨hgroup, hbase, hquote⟩ := Column.mk.inj h
  unfold rank
  rw [Prod.Lex.toLex_le_toLex, OrderDual.toDual_le_toDual, Price.key_le_iff hbase.symm hquote.symm]
  constructor
  · rintro (hlt | ⟨-, hle⟩)
    · exact absurd hgroup hlt.ne
    · exact hle
  · intro hle
    exact .inr ⟨hgroup, hle⟩

theorem rank_lt_iff (h : a.column = b.column) : a.rank < b.rank ↔ b.minPrice.rate < a.minPrice.rate := by
  rw [← not_le, rank_le_iff h.symm, not_le]

theorem column_of_rank (h : a.rank = b.rank) : a.column = b.column := by
  obtain ⟨hgroup, hkey⟩ := Prod.mk.inj h
  obtain ⟨hbase, hrest⟩ := Prod.mk.inj hkey
  obtain ⟨hquote, -⟩ := Prod.mk.inj hrest
  exact Column.mk.injEq .. ▸ ⟨hgroup, hbase, hquote⟩

/-- Between two keys of a column there are only keys of it. -/
theorem column_of_between (ha : a.rank ≤ x.rank) (hb : x.rank ≤ b.rank) (h : a.column = b.column) : x.column = a.column := by
  obtain ⟨hgroup, hbase, hquote⟩ := Column.mk.inj h
  unfold rank at ha hb
  rw [Prod.Lex.toLex_le_toLex] at ha hb
  rcases ha with ha | ⟨ha, hkey⟩
  · rcases hb with hb | ⟨hb, -⟩
    · exact absurd (ha.trans hb) hgroup.not_lt
    · exact absurd (ha.trans_eq hb) hgroup.not_lt
  · rcases hb with hb | ⟨-, hkey'⟩
    · exact absurd (ha.trans_lt hb) hgroup.not_lt
    · obtain ⟨hbase', hquote'⟩ := Price.assets_of_key_between hbase.symm hquote.symm hkey' hkey
      exact Column.mk.injEq .. ▸ ⟨ha.symm, hbase'.trans hbase.symm, hquote'.trans hquote.symm⟩

end LimitOrderGroupKey

/-! ### Groups as bands -/

variable {idx idx' before r : OrderGroups} {e e' i : OrderGroup} {k : LimitOrderGroupKey} {d : LimitOrderGroupData} {c : Column}
  {o : LimitOrder} {group : Nat}

theorem OrderGroup.matches_iff : e.matches group o = true ↔ e.1.column = ⟨group, o.sellPrice.base.assetId, o.sellPrice.quote.assetId⟩ := by
  unfold OrderGroup.matches LimitOrderGroupKey.column
  rw [Bool.and_eq_true, Bool.and_eq_true, beq_iff_eq, beq_iff_eq, beq_iff_eq, Column.mk.injEq, and_assoc]

def OrderGroup.band (e : OrderGroup) : Band ℚ := ⟨e.1.minPrice.rate, e.2.maxPrice.rate, e.2.totalForSale⟩

/-- The prices of a group are prices of its market. -/
structure OrderGroup.Sound (e : OrderGroup) : Prop where
  minValid : e.1.minPrice.Valid
  maxValid : e.2.maxPrice.Valid
  base : e.2.maxPrice.base.assetId = e.1.minPrice.base.assetId
  quote : e.2.maxPrice.quote.assetId = e.1.minPrice.quote.assetId

/-- The bands of a column -/
def OrderGroups.bands (idx : OrderGroups) (c : Column) : Set (Band ℚ) := { b | ∃ e ∈ idx, e.1.column = c ∧ e.band = b }

/-- The groups are in the order of the map. -/
structure OrderGroups.Ordered (idx : OrderGroups) : Prop where
  sorted : idx.Pairwise fun a b => a.1.rank < b.1.rank
  sound : ∀ e ∈ idx, OrderGroup.Sound e

namespace OrderGroups

theorem mem_bands (he : e ∈ idx) : e.band ∈ idx.bands e.1.column := ⟨e, he, rfl, rfl⟩

theorem bands_congr (h : ∀ e, e ∈ idx ↔ e ∈ idx') : idx.bands c = idx'.bands c := by
  ext b
  exact exists_congr fun e => and_congr_left fun _ => h e

theorem bands_cons_self : bands (e :: idx) e.1.column = insert e.band (idx.bands e.1.column) := by
  ext b
  constructor
  · rintro ⟨e', he', hcol, rfl⟩
    rcases List.mem_cons.mp he' with rfl | he'
    · exact .inl rfl
    · exact .inr ⟨e', he', hcol, rfl⟩
  · rintro (rfl | ⟨e', he', hcol, rfl⟩)
    · exact ⟨e, List.mem_cons_self, rfl, rfl⟩
    · exact ⟨e', List.mem_cons_of_mem _ he', hcol, rfl⟩

theorem bands_cons_other (h : e.1.column ≠ c) : bands (e :: idx) c = idx.bands c := by
  ext b
  constructor
  · rintro ⟨e', he', hcol, rfl⟩
    rcases List.mem_cons.mp he' with rfl | he'
    · exact absurd hcol h
    · exact ⟨e', he', hcol, rfl⟩
  · rintro ⟨e', he', hcol, rfl⟩
    exact ⟨e', List.mem_cons_of_mem _ he', hcol, rfl⟩

theorem before_append : idx.before k ++ idx.lowerBound k = idx := List.takeWhile_append_dropWhile

namespace Ordered

theorem sublist (h : idx.Ordered) (hsub : List.Sublist idx' idx) : Ordered idx' :=
  ⟨h.sorted.sublist hsub, fun e he => h.sound e (hsub.subset he)⟩

theorem eq_of_rank (h : idx.Ordered) (he : e ∈ idx) (he' : e' ∈ idx) (hrank : e.1.rank = e'.1.rank) : e = e' := by
  have hnodup : (idx.map (·.1.rank)).Nodup := List.pairwise_map.mpr (h.sorted.imp fun h => h.ne)
  exact List.inj_on_of_nodup_map hnodup he he' hrank

/-- A group is the only one of its column with its band. -/
theorem eq_of_lo (h : idx.Ordered) (he : e ∈ idx) (he' : e' ∈ idx) (hcol : e.1.column = e'.1.column) (hlo : e.band.lo = e'.band.lo) : e = e' := by
  have hle := (LimitOrderGroupKey.rank_le_iff hcol).mpr hlo.ge
  have hge := (LimitOrderGroupKey.rank_le_iff hcol.symm).mpr hlo.le
  exact h.eq_of_rank he he' (le_antisymm hle hge)

theorem bands_erase (h : Ordered (before ++ e :: r)) :
    bands (before ++ r) e.1.column = bands (before ++ e :: r) e.1.column \ {e.band} := by
  have hmem : ∀ x, x ∈ before ++ e :: r ↔ x ∈ e :: (before ++ r) := fun x => List.perm_middle.mem_iff
  have hself : e ∈ before ++ e :: r := List.mem_append_right _ List.mem_cons_self
  ext b
  constructor
  · rintro ⟨e', he', hcol, rfl⟩
    have hin := (hmem e').mpr (List.mem_cons_of_mem _ he')
    refine ⟨⟨e', hin, hcol, rfl⟩, fun heq => ?_⟩
    have hsame := h.eq_of_lo hin hself hcol (congrArg Band.lo heq)
    have hnodup : (e :: (before ++ r)).Nodup := List.perm_middle.nodup_iff.mp (h.sorted.imp fun hlt heq => (heq ▸ hlt).false)
    exact (List.nodup_cons.mp hnodup).1 (hsame ▸ he')
  · rintro ⟨⟨e', he', hcol, rfl⟩, hne⟩
    rcases List.mem_cons.mp ((hmem e').mp he') with rfl | hin
    · exact absurd rfl hne
    · exact ⟨e', hin, hcol, rfl⟩

theorem bands_erase_other (hcol : e.1.column ≠ c) : bands (before ++ r) c = bands (before ++ e :: r) c :=
  (bands_cons_other hcol).symm.trans (bands_congr fun _ => List.perm_middle.symm.mem_iff)

/-! ### What the map finds -/

theorem probed (h : idx.Ordered) (hkey : k.minPrice.Valid) : Probed (fun e : OrderGroup => e.1.rank) k.rank (·.1.lt k) idx :=
  ⟨h.sorted, fun e he => LimitOrderGroupKey.lt_iff (h.sound e he).minValid hkey⟩

theorem lt_lo_of_lowerBound_nil (h : idx.Ordered) (hkey : k.minPrice.Valid) (hnil : idx.lowerBound k = []) :
    ∀ b ∈ idx.bands k.column, k.minPrice.rate < b.lo := by
  rintro b ⟨e, he, hcol, rfl⟩
  exact (LimitOrderGroupKey.rank_lt_iff hcol).mp ((h.probed hkey).lt_of_dropWhile_nil hnil e he)

theorem lt_lo_of_lowerBound_cons (h : idx.Ordered) (hkey : k.minPrice.Valid) (hcons : idx.lowerBound k = i :: r)
    (hother : i.1.column ≠ k.column) : ∀ b ∈ idx.bands k.column, k.minPrice.rate < b.lo := by
  obtain ⟨-, hle, hleast⟩ := (h.probed hkey).head hcons
  rintro b ⟨e, he, hcol, rfl⟩
  by_contra hlo
  have hrank := (LimitOrderGroupKey.rank_le_iff hcol.symm).mpr (not_lt.mp hlo)
  exact hother (LimitOrderGroupKey.column_of_between hle (hleast e he hrank) hcol.symm)

/-- At the lower bound stands the group next to the price. -/
theorem next_of_lowerBound_cons (h : idx.Ordered) (hkey : k.minPrice.Valid) (hcons : idx.lowerBound k = i :: r)
    (hcol : i.1.column = k.column) : Next (idx.bands k.column) k.minPrice.rate i.band := by
  obtain ⟨hmem, hle, hleast⟩ := (h.probed hkey).head hcons
  refine ⟨hcol ▸ mem_bands hmem, (LimitOrderGroupKey.rank_le_iff hcol.symm).mp hle, ?_⟩
  rintro b ⟨e, he, hcol', rfl⟩ hlo
  have hrank := (LimitOrderGroupKey.rank_le_iff hcol'.symm).mpr hlo
  exact (LimitOrderGroupKey.rank_le_iff (hcol.trans hcol'.symm)).mp (hleast e he hrank)

theorem lo_le_of_before_nil (h : idx.Ordered) (hkey : k.minPrice.Valid) (hnil : (idx.before k).getLast? = none) :
    ∀ b ∈ idx.bands k.column, b.lo ≤ k.minPrice.rate := by
  rintro b ⟨e, he, hcol, rfl⟩
  exact (LimitOrderGroupKey.rank_le_iff hcol.symm).mp ((h.probed hkey).le_of_takeWhile_nil hnil e he)

theorem lo_le_of_before_last (h : idx.Ordered) (hkey : k.minPrice.Valid) (hlast : (idx.before k).getLast? = some i)
    (hother : i.1.column ≠ k.column) : ∀ b ∈ idx.bands k.column, b.lo ≤ k.minPrice.rate := by
  obtain ⟨-, hlt, hgreatest⟩ := (h.probed hkey).last hlast
  rintro b ⟨e, he, hcol, rfl⟩
  by_contra hlo
  have hrank := (LimitOrderGroupKey.rank_lt_iff hcol).mpr (not_le.mp hlo)
  exact hother ((LimitOrderGroupKey.column_of_between (hgreatest e he hrank) hlt.le hcol).trans hcol)

/-- Before the lower bound stands the group previous to the price. -/
theorem previous_of_before_last (h : idx.Ordered) (hkey : k.minPrice.Valid) (hlast : (idx.before k).getLast? = some i)
    (hcol : i.1.column = k.column) : Previous (idx.bands k.column) k.minPrice.rate i.band := by
  obtain ⟨hmem, hlt, hgreatest⟩ := (h.probed hkey).last hlast
  refine ⟨hcol ▸ mem_bands hmem, (LimitOrderGroupKey.rank_lt_iff hcol).mp hlt, ?_⟩
  rintro b ⟨e, he, hcol', rfl⟩ hlo
  have hrank := (LimitOrderGroupKey.rank_lt_iff hcol').mpr hlo
  exact (LimitOrderGroupKey.rank_le_iff (hcol'.trans hcol.symm)).mp (hgreatest e he hrank)

end Ordered

/-! ### What becomes of the map -/

/-- The bands of one column change, and those of the others do not. -/
structure Becomes (idx idx' : OrderGroups) (c : Column) (bands : Set (Band ℚ)) : Prop where
  ordered : idx'.Ordered
  bands : idx'.bands c = bands
  others : ∀ c' ≠ c, idx'.bands c' = idx.bands c'

theorem mem_put (hfresh : ∀ e ∈ idx, e.1.rank ≠ k.rank) (hkey : k.minPrice.Valid) (hvalid : ∀ e ∈ idx, e.1.minPrice.Valid) :
    ∀ e, e ∈ idx.put k d ↔ e ∈ (k, d) :: idx := by
  intro e
  induction idx with
  | nil => rfl
  | cons x idx ih =>
    have hx := hfresh x List.mem_cons_self
    have hxvalid := hvalid x List.mem_cons_self
    rw [put]
    split_ifs with hlt hgt
    · rfl
    · rw [List.mem_cons, ih (fun e he => hfresh e (List.mem_cons_of_mem _ he)) (fun e he => hvalid e (List.mem_cons_of_mem _ he)),
        List.mem_cons, List.mem_cons, List.mem_cons, or_left_comm]
    · rw [LimitOrderGroupKey.lt_iff hkey hxvalid] at hlt
      rw [LimitOrderGroupKey.lt_iff hxvalid hkey] at hgt
      exact absurd (le_antisymm (not_lt.mp hlt) (not_lt.mp hgt)) hx

theorem Ordered.put (h : idx.Ordered) (hfresh : ∀ e ∈ idx, e.1.rank ≠ k.rank) (hsound : OrderGroup.Sound (k, d)) :
    Ordered (idx.put k d) := by
  have hmem := mem_put (d := d) hfresh hsound.minValid fun e he => (h.sound e he).minValid
  constructor
  case sound =>
    intro e he
    rcases List.mem_cons.mp ((hmem e).mp he) with rfl | he
    · exact hsound
    · exact h.sound e he
  case sorted =>
    clear hmem
    induction idx with
    | nil => exact List.pairwise_singleton _ _
    | cons x idx ih =>
      have hxvalid := (h.sound x List.mem_cons_self).minValid
      obtain ⟨hx, hsorted⟩ := List.pairwise_cons.mp h.sorted
      have htail := h.sublist (List.sublist_cons_self x idx)
      have hfresh' : ∀ e ∈ idx, e.1.rank ≠ k.rank := fun e he => hfresh e (List.mem_cons_of_mem _ he)
      have hlt_iff := LimitOrderGroupKey.lt_iff hsound.minValid hxvalid
      have hgt_iff := LimitOrderGroupKey.lt_iff hxvalid hsound.minValid
      rw [OrderGroups.put]
      split_ifs with hlt hgt
      · rw [hlt_iff] at hlt
        refine List.pairwise_cons.mpr ⟨fun e he => ?_, h.sorted⟩
        rcases List.mem_cons.mp he with rfl | he
        · exact hlt
        · exact hlt.trans (hx e he)
      · refine List.pairwise_cons.mpr ⟨fun e he => ?_, ih htail hfresh'⟩
        rcases List.mem_cons.mp ((mem_put hfresh' hsound.minValid (fun e he => (htail.sound e he).minValid) e).mp he) with rfl | he
        · exact hgt_iff.mp hgt
        · exact hx e he
      · rw [hlt_iff] at hlt
        rw [hgt_iff] at hgt
        exact absurd (le_antisymm (not_lt.mp hlt) (not_lt.mp hgt)) (hfresh x List.mem_cons_self)

theorem fresh_of_lo (h : ∀ b ∈ idx.bands k.column, b.lo ≠ k.minPrice.rate) : ∀ e ∈ idx, e.1.rank ≠ k.rank := by
  intro e he hrank
  have hcol := LimitOrderGroupKey.column_of_rank hrank
  refine h e.band (hcol ▸ mem_bands he) (le_antisymm ?_ ?_)
  · exact (LimitOrderGroupKey.rank_le_iff hcol.symm).mp hrank.ge
  · exact (LimitOrderGroupKey.rank_le_iff hcol).mp hrank.le

/-- A group is put at a price where none begins. -/
theorem Ordered.becomes_put (h : idx.Ordered) (hfresh : ∀ b ∈ idx.bands k.column, b.lo ≠ k.minPrice.rate)
    (hsound : OrderGroup.Sound (k, d)) :
    Becomes idx (idx.put k d) k.column (insert (OrderGroup.band (k, d)) (idx.bands k.column)) := by
  have hmem := mem_put (d := d) (fresh_of_lo hfresh) hsound.minValid fun e he => (h.sound e he).minValid
  refine ⟨h.put (fresh_of_lo hfresh) hsound, ?_, fun c' hne => ?_⟩
  · exact (bands_congr hmem).trans bands_cons_self
  · exact (bands_congr hmem).trans (bands_cons_other hne.symm)

/-- A group is erased. -/
theorem Ordered.becomes_erase (h : Ordered (before ++ e :: r)) :
    Becomes (before ++ e :: r) (before ++ r) e.1.column (bands (before ++ e :: r) e.1.column \ {e.band}) where
  ordered := h.sublist ((List.sublist_cons_self e r).append_left before)
  bands := h.bands_erase
  others _ hne := bands_erase_other hne.symm

/-- A group keeps its key. -/
theorem Ordered.becomes_assign (h : Ordered (before ++ e :: r)) (hsound : OrderGroup.Sound (e.1, d)) :
    Becomes (before ++ e :: r) (before ++ (e.1, d) :: r) e.1.column
      (insert (OrderGroup.band (e.1, d)) (bands (before ++ e :: r) e.1.column \ {e.band})) := by
  have hmem : ∀ x, x ∈ before ++ (e.1, d) :: r ↔ x ∈ (e.1, d) :: (before ++ r) := fun x => List.perm_middle.mem_iff
  constructor
  case ordered =>
    constructor
    case sorted =>
      have hsorted := List.pairwise_map.mpr h.sorted
      refine List.pairwise_map.mp ?_
      rwa [List.map_append, List.map_cons] at hsorted ⊢
    case sound =>
      intro x hx
      rcases List.mem_cons.mp ((hmem x).mp hx) with rfl | hx
      · exact hsound
      · exact h.becomes_erase.ordered.sound x hx
  case bands =>
    rw [← h.bands_erase]
    exact (bands_congr hmem).trans bands_cons_self
  case others =>
    intro c' hne
    rw [bands_congr hmem, bands_cons_other (e := ((e.1, d) : OrderGroup)) hne.symm]
    exact bands_erase_other hne.symm

/-- A group gets another key. -/
theorem Ordered.becomes_rekey (h : Ordered (before ++ e :: r)) (hcol : e.1.column = k.column)
    (hfresh : ∀ b ∈ bands (before ++ e :: r) k.column \ {e.band}, b.lo ≠ k.minPrice.rate) (hsound : OrderGroup.Sound (k, d)) :
    Becomes (before ++ e :: r) (OrderGroups.put k d (before ++ r)) k.column
      (insert (OrderGroup.band (k, d)) (bands (before ++ e :: r) k.column \ {e.band})) := by
  have herase := h.becomes_erase
  rw [hcol] at herase
  have hput := herase.ordered.becomes_put (k := k) (herase.bands.symm ▸ hfresh) hsound
  refine ⟨hput.ordered, ?_, fun c' hne => ?_⟩
  · rw [hput.bands, herase.bands]
  · rw [hput.others c' hne, herase.others c' hne]

end OrderGroups

end Khc.Grouped
