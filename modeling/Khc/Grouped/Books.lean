import Khc.Grouped.Moves

/-! The columns of a book, and what the events of the database make of them. -/

namespace Khc.Grouped

open Chain (Asset Price AssetId)
open Lib
open Market (LimitOrder RationalDistance Eval fcAssert_eq_ok)

variable {t : TrackedGroups} {o o' : LimitOrder} {orders rest : List LimitOrder} {c : Column} {g : Nat}

/-- The orders of the market of a column -/
def lotsIn (orders : List LimitOrder) (c : Column) : List (Lot ℚ) :=
  (orders.filter fun o => o.sellPrice.base.assetId = c.base ∧ o.sellPrice.quote.assetId = c.quote).map lotOf

theorem mem_lotsIn {l : Lot ℚ} : l ∈ lotsIn orders c ↔
    ∃ o ∈ orders, (o.sellPrice.base.assetId = c.base ∧ o.sellPrice.quote.assetId = c.quote) ∧ lotOf o = l := by
  simp [lotsIn, and_assoc]

@[simp] theorem lotsIn_nil : lotsIn [] c = [] := rfl

theorem lotsIn_cons_self : lotsIn (o :: orders) (columnOf g o) = lotOf o :: lotsIn orders (columnOf g o) := by
  unfold lotsIn
  rw [List.filter_cons, if_pos (decide_eq_true ⟨rfl, rfl⟩), List.map_cons]

theorem lotsIn_cons_other (h : c ≠ columnOf c.group o) : lotsIn (o :: orders) c = lotsIn orders c := by
  unfold lotsIn
  rw [List.filter_cons, if_neg]
  rw [decide_eq_true_eq]
  rintro ⟨hbase, hquote⟩
  exact h (Column.mk.injEq .. ▸ ⟨rfl, hbase.symm, hquote.symm⟩)

theorem lotsIn_perm (h : orders.Perm rest) : (lotsIn orders c).Perm (lotsIn rest c) := (h.filter _).map _

theorem lotsIn_pos (h : ∀ o ∈ orders, 0 < o.forSale) : ∀ l ∈ lotsIn orders c, 0 < l.amount := by
  intro l hl
  obtain ⟨o, ho, -, rfl⟩ := mem_lotsIn.mp hl
  exact h o ho

/-! ### Rounds of the loops -/

/-- Each round changes the column of its group, and there it makes of one property another. -/
theorem rounds {S : Type} (data : S → OrderGroups) {f : S → Nat → Eval S} {I : S → Prop} {P Q : Nat → Set (Band ℚ) → Prop} {groups : List Nat}
    {s s' : S} (hround : ∀ g ∈ groups, ∀ s s', f s g = .ok s' → I s → (data s).Ordered → P g ((data s).bands (columnOf g o)) →
      I s' ∧ ∃ bands', OrderGroups.Becomes (data s) (data s') (columnOf g o) bands' ∧ Q g bands')
    (hnodup : groups.Nodup) (h : groups.foldlM f s = .ok s') (hi : I s) (ho : (data s).Ordered)
    (hp : ∀ g ∈ groups, P g ((data s).bands (columnOf g o))) :
    I s' ∧ (data s').Ordered ∧ (∀ g ∈ groups, Q g ((data s').bands (columnOf g o))) ∧
      ∀ c, (∀ g ∈ groups, c ≠ columnOf g o) → (data s').bands c = (data s).bands c := by
  induction groups generalizing s with
  | nil =>
    obtain rfl := Except.ok.inj h
    exact ⟨hi, ho, by simp, fun _ _ => rfl⟩
  | cons g groups ih =>
    rw [List.foldlM_cons] at h
    obtain ⟨s₁, hs₁, h⟩ := bind_eq_ok.mp h
    obtain ⟨hnot, hnodup⟩ := List.nodup_cons.mp hnodup
    obtain ⟨hi₁, bands', hbecomes, hq⟩ := hround g List.mem_cons_self s s₁ hs₁ hi ho (hp g List.mem_cons_self)
    have hcolumn : ∀ g' ∈ groups, columnOf g' o ≠ columnOf g o := by
      intro g' hg' heq
      exact hnot ((Column.mk.inj heq).1 ▸ hg')
    obtain ⟨hi', ho', hq', hothers⟩ := ih (fun g' hg' => hround g' (List.mem_cons_of_mem _ hg')) hnodup h hi₁ hbecomes.ordered fun g' hg' => by
      rw [hbecomes.others _ (hcolumn g' hg')]
      exact hp g' (List.mem_cons_of_mem _ hg')
    refine ⟨hi', ho', ?_, fun c hc => ?_⟩
    · rintro g' hg'
      rcases List.mem_cons.mp hg' with rfl | hg'
      · rw [hothers _ fun g'' hg'' => (hcolumn g'' hg'').symm, hbecomes.bands]
        exact hq
      · exact hq' g' hg'
    · rw [hothers c fun g' hg' => hc g' (List.mem_cons_of_mem _ hg'), hbecomes.others c (hc g List.mem_cons_self)]

/-! ### The columns -/

/-- In each tracked column the orders are gathered in the groups, and there are no other columns. -/
structure Columns (t : TrackedGroups) (lots : Column → List (Lot ℚ)) (idx : OrderGroups) : Prop where
  ordered : idx.Ordered
  gathered : ∀ c : Column, c.group ∈ t.groups → Gathered (idx.bands c) (lots c)
  edges : ∀ c : Column, c.group ∈ t.groups → Edges (idx.bands c)
  untracked : ∀ c : Column, c.group ∉ t.groups → idx.bands c = ∅

theorem Columns.congr {idx : OrderGroups} (h : Columns t (lotsIn orders) idx) (hperm : orders.Perm rest) : Columns t (lotsIn rest) idx :=
  ⟨h.ordered, fun c hc => (h.gathered c hc).perm (lotsIn_perm hperm), h.edges, h.untracked⟩

theorem TrackedGroups.nodup (t : TrackedGroups) : t.groups.elems.Nodup := t.groups.sorted.imp ne_of_lt

/-- The loop has changed the columns of one order. -/
theorem Columns.of_rounds {idx idx' : OrderGroups} {lots lots' : Column → List (Lot ℚ)} (h : Columns t lots idx) (ho : idx'.Ordered)
    (hq : ∀ g ∈ t.groups.elems, Gathered (idx'.bands (columnOf g o)) (lots' (columnOf g o)) ∧ Edges (idx'.bands (columnOf g o)))
    (hothers : ∀ c, (∀ g ∈ t.groups.elems, c ≠ columnOf g o) → idx'.bands c = idx.bands c)
    (hlots : ∀ c, c ≠ columnOf c.group o → lots' c = lots c) : Columns t lots' idx' := by
  have hcolumn : ∀ c : Column, c ≠ columnOf c.group o → ∀ g ∈ t.groups.elems, c ≠ columnOf g o := by
    rintro c hne g - rfl
    exact hne rfl
  constructor
  case ordered => exact ho
  case gathered =>
    intro c hc
    by_cases heq : c = columnOf c.group o
    · rw [heq]
      exact (hq c.group hc).1
    · rw [hothers c (hcolumn c heq), hlots c heq]
      exact h.gathered c hc
  case edges =>
    intro c hc
    by_cases heq : c = columnOf c.group o
    · rw [heq]
      exact (hq c.group hc).2
    · rw [hothers c (hcolumn c heq)]
      exact h.edges c hc
  case untracked =>
    intro c hc
    rw [hothers c, h.untracked c hc]
    rintro g hg rfl
    exact hc hg

/-- The order takes nothing away from a group, and stretches none over another one. -/
def Fits [RationalDistance] (t : TrackedGroups) (orders : List LimitOrder) (idx : OrderGroups) (o : LimitOrder) : Prop :=
  ∀ g ∈ t.groups, ¬Narrows (idx.bands (columnOf g o)) (lotsIn orders (columnOf g o)) o.sellPrice.rate ∧
    ¬Overruns (reach g) (idx.bands (columnOf g o)) o.sellPrice.rate

section
variable [RationalDistance] {i i' : LimitOrderGroupIndex}

theorem Fits.congr {idx : OrderGroups} (h : Fits t orders idx o) (hperm : orders.Perm rest) : Fits t rest idx o := by
  intro g hg
  obtain ⟨hnarrow, hover⟩ := h g hg
  refine ⟨fun hnarrow' => hnarrow (hnarrow'.of_points fun l hl => ?_), hover⟩
  exact ⟨l, (lotsIn_perm hperm).mem_iff.mpr hl, rfl⟩

/-- An order between `price::min` and `price::max` fits. -/
theorem fits_of_inRange {idx : OrderGroups} (hmin : least ≤ o.sellPrice.rate) (hmax : o.sellPrice.rate ≤ greatest) : Fits t orders idx o :=
  fun _ _ => ⟨fun hnarrow => hmin.not_gt hnarrow.1, fun hover => hmax.not_gt hover.1⟩

theorem objectInserted_columns (h : Columns t (lotsIn orders) i.ogData) (hfits : Fits t orders i.ogData o) (hok : i.objectInserted t o = .ok i') :
    i'.log = i.log ∧ Columns t (lotsIn (o :: orders)) i'.ogData := by
  obtain ⟨ogData, hdata, hok⟩ := bind_eq_ok.mp hok
  obtain rfl := Except.ok.inj hok
  have hrounds := rounds (o := o) id (I := fun _ => True)
    (P := fun g bands => (Gathered bands (lotsIn orders (columnOf g o)) ∧ Edges bands) ∧
      ¬Narrows bands (lotsIn orders (columnOf g o)) o.sellPrice.rate ∧ ¬Overruns (reach g) bands o.sellPrice.rate)
    (Q := fun g bands => Gathered bands (lotsIn (o :: orders) (columnOf g o)) ∧ Edges bands) ?_ t.nodup hdata trivial h.ordered ?_
  · obtain ⟨-, ho', hq, hothers⟩ := hrounds
    exact ⟨rfl, h.of_rounds ho' hq hothers fun c hne => lotsIn_cons_other hne⟩
  · rintro g hg idx idx' hround - ho ⟨⟨hgathered, hedges⟩, hnarrow, hover⟩
    obtain ⟨bands', hplaced, hbecomes⟩ := insertIn_placed (t.pos g hg) ho hgathered hedges hround
    have hbounded := OrderGroups.Ordered.bounded (c := columnOf g o) ho (t.pos g hg)
    refine ⟨trivial, bands', hbecomes, ?_, hplaced.edges hgathered hedges hbounded⟩
    rw [lotsIn_cons_self]
    exact hplaced.gathered hgathered hedges hbounded hnarrow hover
  · intro g hg
    exact ⟨⟨h.gathered (columnOf g o) hg, h.edges (columnOf g o) hg⟩, hfits g hg⟩

omit [RationalDistance] in
theorem objectRemoved_columns (h : Columns t (lotsIn (o :: orders)) i.ogData) (hpos : ∀ o ∈ orders, 0 < o.forSale)
    (hok : i.objectRemoved t o = .ok i') : i'.log = i.log ∧ Columns t (lotsIn orders) i'.ogData := by
  have hrounds := rounds (o := o) (·.ogData) (I := fun j => j.log = i.log)
    (P := fun g bands => Gathered bands (lotsIn (o :: orders) (columnOf g o)) ∧ Edges bands)
    (Q := fun g bands => Gathered bands (lotsIn orders (columnOf g o)) ∧ Edges bands) ?_ t.nodup hok rfl h.ordered ?_
  · obtain ⟨hlog, ho', hq, hothers⟩ := hrounds
    exact ⟨hlog, h.of_rounds ho' hq hothers fun c hne => (lotsIn_cons_other hne).symm⟩
  · rintro g hg j j' hround hlog ho ⟨hgathered, hedges⟩
    rw [lotsIn_cons_self] at hgathered
    obtain ⟨hlog', bands', hbecomes, hleft⟩ := removeFrom_removed ho hgathered hedges (lotsIn_pos hpos) hround
    exact ⟨hlog'.trans hlog, bands', hbecomes, hleft⟩
  · intro g hg
    exact ⟨h.gathered (columnOf g o) hg, h.edges (columnOf g o) hg⟩

theorem aboutToModify_columns (h : Columns t (lotsIn (o :: orders)) i.ogData) (hpos : ∀ o ∈ orders, 0 < o.forSale)
    (hok : i.aboutToModify t o = .ok i') :
    i'.log = i.log ∧ Columns t (lotsIn ({ o with forSale := 0 } :: orders)) i'.ogData ∧
      (Fits t (o :: orders) i.ogData o → Fits t ({ o with forSale := 0 } :: orders) i'.ogData o) := by
  have hrounds := rounds (o := o) (·.ogData) (I := fun j => j.log = i.log)
    (P := fun g bands => bands = i.ogData.bands (columnOf g o))
    (Q := fun g bands => ∃ b ∈ i.ogData.bands (columnOf g o), b.Contains o.sellPrice.rate ∧
      bands = insert { b with total := b.total - o.forSale } (i.ogData.bands (columnOf g o) \ {b})) ?_ t.nodup hok rfl h.ordered (fun _ _ => rfl)
  · obtain ⟨hlog, ho', hq, hothers⟩ := hrounds
    refine ⟨hlog, ?_, fun hfits g hg => ?_⟩
    · refine h.of_rounds ho' (fun g hg => ?_) hothers fun c hne => ?_
      · obtain ⟨b, hb, hin, hbands⟩ := hq g hg
        have hgathered := h.gathered (columnOf g o) hg
        rw [lotsIn_cons_self] at hgathered
        have hempty := hgathered.empty hb hin
        rw [hbands]
        refine ⟨?_, (h.edges (columnOf g o) hg).replace hb id id⟩
        rw [show columnOf g o = columnOf g { o with forSale := 0 } from rfl, lotsIn_cons_self]
        exact hempty
      · rw [lotsIn_cons_other hne]
        exact lotsIn_cons_other (o := { o with forSale := 0 }) hne
    · obtain ⟨b, hb, -, hbands⟩ := hq g hg
      obtain ⟨hnarrow, hover⟩ := hfits g hg
      rw [hbands]
      refine ⟨fun hnarrow' => hnarrow (hnarrow'.of_total hb |>.of_points ?_), fun hover' => hover (hover'.of_total hb)⟩
      intro l hl
      rw [show columnOf g o = columnOf g { o with forSale := 0 } from rfl, lotsIn_cons_self] at hl
      rw [lotsIn_cons_self]
      rcases List.mem_cons.mp hl with rfl | hl
      · exact ⟨lotOf o, List.mem_cons_self, rfl⟩
      · exact ⟨l, List.mem_cons_of_mem _ hl, rfl⟩
  · rintro g hg j j' hround hlog ho hbands
    have hgathered := h.gathered (columnOf g o) hg
    rw [lotsIn_cons_self, ← hbands] at hgathered
    obtain ⟨hlog', b, hb, hin, hbecomes⟩ := removeFrom_modified ho hgathered (lotsIn_pos hpos) hround
    rw [hbands] at hb hbecomes
    exact ⟨hlog'.trans hlog, _, hbecomes, b, hb, hin, rfl⟩

omit [RationalDistance] in
/-- An order with nothing for sale is left out, where there is another one at its price. -/
theorem Columns.forget {idx : OrderGroups} {a : Int} (h : Columns t (lotsIn ({ o with forSale := a } :: { o with forSale := 0 } :: orders)) idx) :
    Columns t (lotsIn ({ o with forSale := a } :: orders)) idx := by
  refine ⟨h.ordered, fun c hc => ?_, h.edges, h.untracked⟩
  have hperm := List.Perm.swap { o with forSale := 0 } { o with forSale := a } orders
  have hgathered := (h.congr hperm).gathered c hc
  by_cases heq : c = columnOf c.group o
  · rw [heq] at hgathered ⊢
    rw [show columnOf c.group o = columnOf c.group { o with forSale := 0 } from rfl, lotsIn_cons_self] at hgathered
    refine hgathered.forget fun b _ hin => ⟨⟨o.sellPrice.rate, a⟩, ?_, hin⟩
    rw [show columnOf c.group { o with forSale := 0 } = columnOf c.group { o with forSale := a } from rfl, lotsIn_cons_self]
    exact List.mem_cons_self
  · rwa [lotsIn_cons_other (o := { o with forSale := 0 }) heq] at hgathered

end

end Khc.Grouped
