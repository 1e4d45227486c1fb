import Khc.Grouped.Books
import Khc.Lib.Rows
import Khc.Lib.Run
import Mathlib.Tactic.Linarith
import Mathlib.Tactic.NormNum

/-! The groups of the order book are the right ones as long as no order below `price::min` takes the top off a group with others in it, and
    none above `price::max` stretches a group over another one. -/

namespace Khc.Grouped

open Chain (Asset Price)
open Lib
open Market (LimitOrder RationalDistance Eval fcAssert_eq_ok)

/-- The order lies in the range of the group. -/
def OrderGroup.Holds (e : OrderGroup) (group : Nat) (o : LimitOrder) : Prop :=
  e.matches group o = true ∧ e.1.minPrice.rate ≤ o.sellPrice.rate ∧ o.sellPrice.rate ≤ e.2.maxPrice.rate

instance (e : OrderGroup) (group : Nat) (o : LimitOrder) : Decidable (e.Holds group o) := inferInstanceAs (Decidable (_ ∧ _))

/-- What the groups are for: for each type they part the orders of a market by their prices. -/
structure Book.Parted (t : TrackedGroups) (b : Book) : Prop where
  covered : ∀ g ∈ t.groups, ∀ o ∈ b.orders, ∃! e, e ∈ b.index.ogData ∧ e.Holds g o
  disjoint : ∀ e ∈ b.index.ogData, ∀ e' ∈ b.index.ogData, e.1.column = e'.1.column → e ≠ e' →
    e.2.maxPrice.rate < e'.1.minPrice.rate ∨ e'.2.maxPrice.rate < e.1.minPrice.rate
  total : ∀ e ∈ b.index.ogData, e.2.totalForSale = ((b.orders.filter fun o => e.Holds e.1.group o).map (·.forSale)).sum
  inhabited : ∀ e ∈ b.index.ogData, e.1.group ∈ t.groups ∧ ∃ o ∈ b.orders, e.Holds e.1.group o
  found : b.index.log = []

/-- The condition on an event: an order that comes in, or comes in again, fits into the groups of its market. -/
def Book.Spares [RationalDistance] (t : TrackedGroups) (b : Book) : Event → Prop
  | .insert o => Fits t b.orders b.index.ogData o
  | .modify id _ => ∀ o ∈ b.orders, o.id = id → Fits t b.orders b.index.ogData o
  | .remove _ => True

/-- A state of a run from an empty index -/
abbrev BookReaches [RationalDistance] (t : TrackedGroups) (P : Book → Event → Prop) : Book → Prop :=
  Reaches (fun b e => (b.step t e).toOption) P {}

variable {t : TrackedGroups} {b b' : Book} {e : OrderGroup} {g : Nat} {o : LimitOrder}

/-! ### What the columns say -/

theorem holds_iff : e.Holds g o ↔ e.1.column = columnOf g o ∧ e.band.Contains o.sellPrice.rate := by
  unfold OrderGroup.Holds
  rw [OrderGroup.matches_iff]
  rfl

/-- The orders that a group holds are the lots in its band. -/
theorem sum_holds (orders : List LimitOrder) :
    ((orders.filter fun o => e.Holds e.1.group o).map (·.forSale)).sum = e.band.sum (lotsIn orders e.1.column) := by
  induction orders with
  | nil => rfl
  | cons o orders ih =>
    rw [List.filter_cons]
    by_cases hcol : e.1.column = columnOf e.1.group o
    · rw [hcol, lotsIn_cons_self, Band.sum_cons, ← hcol, ← ih]
      by_cases hin : e.band.Contains (lotOf o).point
      · rw [if_pos (decide_eq_true (holds_iff.mpr ⟨hcol, hin⟩)), List.map_cons, List.sum_cons, if_pos hin]
        rfl
      · rw [if_neg (by simpa using fun h => hin (holds_iff.mp h).2), if_neg hin, zero_add]
    · rw [if_neg (by simpa using fun h => hcol (holds_iff.mp h).1), ih]
      exact (congrArg _ (lotsIn_cons_other hcol)).symm

theorem Columns.parted (h : Columns t (lotsIn b.orders) b.index.ogData) (hlog : b.index.log = []) : b.Parted t := by
  have htracked : ∀ e ∈ b.index.ogData, e.1.group ∈ t.groups := by
    intro e he
    by_contra hnot
    have hmem := OrderGroups.mem_bands he
    rw [h.untracked e.1.column hnot] at hmem
    exact hmem
  constructor
  case covered =>
    intro g hg o ho
    have hlot : lotOf o ∈ lotsIn b.orders (columnOf g o) := mem_lotsIn.mpr ⟨o, ho, ⟨rfl, rfl⟩, rfl⟩
    obtain ⟨band, ⟨e, he, hcol, rfl⟩, hin⟩ := (h.gathered (columnOf g o) hg).covered (lotOf o) hlot
    refine ⟨e, ⟨he, holds_iff.mpr ⟨hcol, hin⟩⟩, ?_⟩
    rintro e' ⟨he', hholds⟩
    obtain ⟨hcol', hin'⟩ := holds_iff.mp hholds
    have hband := (h.gathered (columnOf g o) hg).eq_of_contains ⟨e', he', hcol', rfl⟩ ⟨e, he, hcol, rfl⟩ hin' hin
    exact h.ordered.eq_of_lo he' he (hcol'.trans hcol.symm) (congrArg Band.lo hband)
  case disjoint =>
    intro e he e' he' hcol hne
    refine (h.gathered e.1.column (htracked e he)).apart e.band ⟨e, he, rfl, rfl⟩ e'.band ⟨e', he', hcol.symm, rfl⟩ fun heq => ?_
    exact hne (h.ordered.eq_of_lo he he' hcol (congrArg Band.lo heq))
  case total =>
    intro e he
    rw [sum_holds]
    exact (h.gathered e.1.column (htracked e he)).total e.band ⟨e, he, rfl, rfl⟩
  case inhabited =>
    intro e he
    obtain ⟨l, hl, hin⟩ := (h.gathered e.1.column (htracked e he)).inhabited e.band ⟨e, he, rfl, rfl⟩
    obtain ⟨o, ho, ⟨hbase, hquote⟩, rfl⟩ := mem_lotsIn.mp hl
    exact ⟨htracked e he, o, ho, holds_iff.mpr ⟨Column.mk.injEq .. ▸ ⟨rfl, hbase.symm, hquote.symm⟩, hin⟩⟩
  case found => exact hlog

/-! ### Runs -/

/-- The invariant of a run -/
structure Book.Sound (t : TrackedGroups) (b : Book) : Prop where
  columns : Columns t (lotsIn b.orders) b.index.ogData
  pos : ∀ o ∈ b.orders, 0 < o.forSale
  log : b.index.log = []

theorem sound_empty : Book.Sound t {} where
  columns := by
    have hnone : ∀ c, OrderGroups.bands [] c = ∅ := by
      intro c
      refine Set.eq_empty_of_forall_notMem ?_
      rintro band ⟨e, he, -⟩
      exact List.not_mem_nil he
    refine ⟨⟨List.Pairwise.nil, by simp⟩, fun c _ => ?_, fun c _ => ?_, fun c _ => hnone c⟩
    · rw [hnone]
      exact ⟨by simp, by simp, by simp [lotsIn], by simp, by simp⟩
    · rw [hnone]
      exact ⟨by simp, by simp⟩
  pos := by simp
  log := rfl

section
variable [RationalDistance]

theorem step_sound {event : Event} (h : b.Sound t) (hspares : b.Spares t event) (hok : b.step t event = .ok b') : b'.Sound t := by
  cases event with
  | insert o =>
    obtain ⟨_, -, hok⟩ := bind_eq_ok.mp hok
    obtain ⟨_, hpos, hok⟩ := bind_eq_ok.mp hok
    obtain ⟨index, hindex, hok⟩ := bind_eq_ok.mp hok
    obtain rfl := Except.ok.inj hok
    obtain ⟨hlog, hcolumns⟩ := objectInserted_columns h.columns hspares hindex
    exact ⟨hcolumns, List.forall_mem_cons.mpr ⟨fcAssert_eq_ok.mp hpos, h.pos⟩, hlog.trans h.log⟩
  | modify id forSale =>
    obtain ⟨_, hpos, hok⟩ := bind_eq_ok.mp hok
    dsimp only at hok
    split at hok
    · cases hok
    · rename_i o hfind
      obtain ⟨i₁, hi₁, hok⟩ := bind_eq_ok.mp hok
      obtain ⟨i₂, hi₂, hok⟩ := bind_eq_ok.mp hok
      obtain rfl := Except.ok.inj hok
      have hperm := perm_eraseP hfind
      have hrest : ∀ o ∈ b.orders.eraseP (·.id = id), 0 < o.forSale := fun o ho => h.pos o (List.mem_of_mem_eraseP ho)
      have hfits := hspares o (List.mem_of_find?_eq_some hfind) (by simpa using List.find?_some hfind)
      obtain ⟨hlog₁, hcolumns₁, hkeeps⟩ := aboutToModify_columns (h.columns.congr hperm) hrest hi₁
      have hfits₁ : Fits t ({ o with forSale := 0 } :: b.orders.eraseP (·.id = id)) i₁.ogData { o with forSale } := hkeeps (hfits.congr hperm)
      obtain ⟨hlog₂, hcolumns₂⟩ := objectInserted_columns hcolumns₁ hfits₁ hi₂
      exact ⟨hcolumns₂.forget, List.forall_mem_cons.mpr ⟨fcAssert_eq_ok.mp hpos, hrest⟩, hlog₂.trans (hlog₁.trans h.log)⟩
  | remove id =>
    unfold Book.step at hok
    dsimp only at hok
    split at hok
    · cases hok
    · rename_i o hfind
      obtain ⟨index, hindex, hok⟩ := bind_eq_ok.mp hok
      obtain rfl := Except.ok.inj hok
      have hrest : ∀ o ∈ b.orders.eraseP (·.id = id), 0 < o.forSale := fun o ho => h.pos o (List.mem_of_mem_eraseP ho)
      obtain ⟨hlog, hcolumns⟩ := objectRemoved_columns (h.columns.congr (perm_eraseP hfind)) hrest hindex
      exact ⟨hcolumns, hrest, hlog.trans h.log⟩

/-- As long as the orders fit, each lies in exactly one group of a type, with a range that is apart from the others and with the total of
    its orders, and the groups of orders that are removed are found. -/
theorem groups_parted (h : BookReaches t (Book.Spares t) b) : b.Parted t := by
  have hsound : b.Sound t := h.invariant (fun b e b' hb hspares hok => step_sound hb hspares (toOption_eq_some.mp hok)) sound_empty
  exact hsound.columns.parted hsound.log

end

/-! ### An order below `price::min` -/

/-- The book that the events lead to -/
def Book.run (t : TrackedGroups) (events : List Event) : Option Book := events.foldlM (fun b e => (b.step t e).toOption) {}

/-- An order that sells an amount of core for an amount of another asset -/
def sells (id : Nat) (base quote : Int) (hbase : 0 < base) (hquote : 0 < quote) : LimitOrder where
  id := id
  expiration := 0
  seller := 5
  forSale := base
  sellPrice := ⟨⟨base, 0⟩, ⟨quote, 1⟩⟩
  deferredFee := 0
  deferredPaidFee := ⟨0, 0⟩
  valid := ⟨hbase, hquote, Nat.zero_ne_one⟩
  deferredFee_nonneg := Market.zero_nonneg
  deferredPaidFee_nonneg := Market.zero_nonneg

/-- Groups of one percent -/
def onePercent : TrackedGroups := ⟨.ofList [100], by decide⟩

/-- Three orders whose prices are all below `price::min`, the last between the other two; then the highest is removed. -/
def belowMin : List Event :=
  [.insert (sells 0 1 4000000000000000000 (by decide) (by decide)), .insert (sells 1 1 2000000000000000000 (by decide) (by decide)),
    .insert (sells 2 1 3000000000000000000 (by decide) (by decide)), .remove 1]

/-- The third order cuts the group off at its own price, and the second is not found in it any more. -/
theorem groups_narrowed : ¬∀ (t : TrackedGroups) (b : Book), BookReaches t (fun _ _ => True) b → b.Parted t := by
  intro h
  obtain ⟨b, hb⟩ : ∃ b, Book.run onePercent belowMin = some b := Option.isSome_iff_exists.mp (by decide +kernel)
  have hlog : (Book.run onePercent belowMin).all (·.index.log.isEmpty) = false := by decide +kernel
  have hfound := (h onePercent b (.of_foldlM hb fun _ _ _ => trivial)).found
  rw [hb, Option.all_some, hfound] at hlog
  exact Bool.noConfusion hlog

/-- Three orders of two groups, and the first is removed. -/
def twoGroups : List Event :=
  [.insert (sells 0 1000 1000 (by decide) (by decide)), .insert (sells 1 1005 1000 (by decide) (by decide)),
    .insert (sells 2 1050 1000 (by decide) (by decide)), .remove 0]

theorem groups_parted_twoGroups : ∃ b, Book.run onePercent twoGroups = some b ∧ b.Parted onePercent := by
  obtain ⟨b, hb⟩ : ∃ b, Book.run onePercent twoGroups = some b := Option.isSome_iff_exists.mp (by decide +kernel)
  have hfits : ∀ id (base : Int) hbase (b : Book), (base : ℚ) ≤ 2000 → Fits onePercent b.orders b.index.ogData (sells id base 1000 hbase (by decide)) := by
    intro id base hbase b hle
    have hpos : (1 : ℚ) ≤ base := by exact_mod_cast hbase
    refine fits_of_inRange ?_ ?_
    · show least ≤ (base : ℚ) / ((1000 : Int) : ℚ)
      norm_num [least, Chain.maxShareSupply]
      linarith
    · show (base : ℚ) / ((1000 : Int) : ℚ) ≤ greatest
      norm_num [greatest, Chain.maxShareSupply]
      linarith
  refine ⟨b, hb, groups_parted (.of_foldlM hb fun b e he => ?_)⟩
  simp only [twoGroups, List.mem_cons, List.not_mem_nil, or_false] at he
  rcases he with rfl | rfl | rfl | rfl
  · exact hfits 0 1000 (by decide) b (by norm_num)
  · exact hfits 1 1005 (by decide) b (by norm_num)
  · exact hfits 2 1050 (by decide) b (by norm_num)
  · exact True.intro

end Khc.Grouped
