import Khc.Grouped.OrderGroups
import Khc.Lib.Bands

/-! How an order is placed among the bands of prices of its market: which band takes it, and what becomes of the band. -/

namespace Khc.Grouped


open Lib

variable {bands : Set (Band ℚ)} {lots : List (Lot ℚ)} {l : Lot ℚ} {b b' : Band ℚ} {c s : ℚ}

/-- A price between the least and the greatest -/
def capped (s : ℚ) : ℚ := if greatest < s then greatest else if s < least then least else s

/-- The band with the greatest lower end that is not above the price -/
structure Next (bands : Set (Band ℚ)) (c : ℚ) (b : Band ℚ) : Prop where
  mem : b ∈ bands
  le : b.lo ≤ c
  greatest : ∀ b' ∈ bands, b'.lo ≤ c → b'.lo ≤ b.lo

/-- The band with the least lower end above the price -/
structure Previous (bands : Set (Band ℚ)) (c : ℚ) (b : Band ℚ) : Prop where
  mem : b ∈ bands
  lt : c < b.lo
  least : ∀ b' ∈ bands, c < b'.lo → b.lo ≤ b'.lo

/-- The band next to an order takes it. -/
def joinedNext (b : Band ℚ) (l : Lot ℚ) : Band ℚ :=
  if l.point < least ∧ l.point < b.lo then ⟨l.point, b.hi, b.total + l.amount⟩
  else ⟨b.lo, if b.hi < capped l.point ∨ (greatest < l.point ∧ b.hi < l.point) then l.point else b.hi, b.total + l.amount⟩

/-- The band previous to an order takes it. -/
def joinedPrevious (b : Band ℚ) (l : Lot ℚ) : Band ℚ :=
  if greatest < l.point ∧ b.lo ≤ l.point then ⟨b.lo, max b.hi l.point, b.total + l.amount⟩ else ⟨l.point, b.hi, b.total + l.amount⟩

/-- How far the bands of a group type reach: up from their lower ends, and down from their upper ends. -/
structure Reach where
  up : ℚ → ℚ
  down : ℚ → ℚ

/-- Whether a price that is not below the band is near enough to it -/
def Reach.Near (r : Reach) (b : Band ℚ) (c : ℚ) : Prop := c ≤ b.hi ∨ c ≤ r.up b.lo

/-- The price is out of the range of what is next to it. -/
def Reach.NoneNext (r : Reach) (bands : Set (Band ℚ)) (c : ℚ) : Prop := (∀ b ∈ bands, c < b.lo) ∨ ∃ b, Next bands c b ∧ ¬r.Near b c

/-- The price is out of the range of what is previous to it. -/
def Reach.NonePrevious (r : Reach) (bands : Set (Band ℚ)) (c : ℚ) : Prop :=
  (∀ b ∈ bands, b.lo ≤ c) ∨ ∃ b, Previous bands c b ∧ c < r.down b.hi

/-- The placement of an order -/
inductive Placed (r : Reach) (bands : Set (Band ℚ)) (l : Lot ℚ) : Set (Band ℚ) → Prop
  | create (hnext : r.NoneNext bands (capped l.point)) (hprevious : r.NonePrevious bands (capped l.point)) :
      Placed r bands l (insert ⟨l.point, l.point, l.amount⟩ bands)
  | next (b : Band ℚ) (hb : Next bands (capped l.point) b) (hnear : r.Near b (capped l.point)) :
      Placed r bands l (insert (joinedNext b l) (bands \ {b}))
  | previous (b : Band ℚ) (hnext : r.NoneNext bands (capped l.point)) (hb : Previous bands (capped l.point) b) :
      Placed r bands l (insert (joinedPrevious b l) (bands \ {b}))

/-- An order below the least price takes the top off a band that lies there, where a lot is. -/
def Narrows (bands : Set (Band ℚ)) (lots : List (Lot ℚ)) (s : ℚ) : Prop :=
  s < least ∧ ∃ b ∈ bands, b.Contains s ∧ b.hi < least ∧ ∃ l ∈ lots, b.Contains l.point ∧ s < l.point

/-- An order above the greatest price stretches a band from below there over another one. -/
def Overruns (r : Reach) (bands : Set (Band ℚ)) (s : ℚ) : Prop :=
  greatest < s ∧ (∃ b, Next bands greatest b ∧ r.Near b greatest) ∧ ∃ b ∈ bands, greatest < b.lo ∧ b.lo ≤ s

/-- One band at most reaches below the least price, and one at most lies above the greatest. -/
structure Edges (bands : Set (Band ℚ)) : Prop where
  lower : ∀ b ∈ bands, ∀ b' ∈ bands, b.lo ≤ least → b'.lo ≤ least → b = b'
  upper : ∀ b ∈ bands, ∀ b' ∈ bands, greatest < b.lo → greatest < b'.lo → b = b'

/-- The reach of a band goes at least to the edge it is nearer to. -/
structure Reach.Bounded (r : Reach) (bands : Set (Band ℚ)) : Prop where
  up : ∀ b ∈ bands, least ≤ r.up b.lo
  down : ∀ b ∈ bands, r.down b.hi ≤ greatest

section
variable {r : Reach}

theorem capped_cases (s : ℚ) :
    (greatest < s ∧ capped s = greatest) ∨ (s < least ∧ capped s = least) ∨ (least ≤ s ∧ s ≤ greatest ∧ capped s = s) := by
  unfold capped
  split_ifs with hmax hmin
  · exact .inl ⟨hmax, rfl⟩
  · exact .inr (.inl ⟨hmin, rfl⟩)
  · exact .inr (.inr ⟨not_lt.mp hmin, not_lt.mp hmax, rfl⟩)

theorem le_capped (h : capped s < greatest) : s ≤ capped s := by
  rcases capped_cases s with ⟨-, hc⟩ | ⟨hmin, hc⟩ | ⟨-, -, hc⟩
  · exact absurd h hc.ge.not_gt
  · exact hc ▸ hmin.le
  · exact hc.ge

theorem capped_le (h : least < capped s) : capped s ≤ s := by
  rcases capped_cases s with ⟨hmax, hc⟩ | ⟨-, hc⟩ | ⟨-, -, hc⟩
  · exact hc ▸ hmax.le
  · exact absurd h hc.le.not_gt
  · exact hc.le

theorem capped_le_least (h : s ≤ least) : capped s = least := by
  rcases capped_cases s with ⟨hmax, -⟩ | ⟨-, hc⟩ | ⟨hmin, -, hc⟩
  · exact absurd (hmax.trans_le h) least_le_greatest.not_gt
  · exact hc
  · exact hc.trans (le_antisymm h hmin)

theorem capped_of_greatest (h : greatest < s) : capped s = greatest := if_pos h

/-! ### What lies on either side -/

theorem next_apart (hg : Gathered bands lots) (hb : Next bands c b) (hb' : b' ∈ bands) (hne : b' ≠ b) :
    b'.hi < b.lo ∨ (b.hi < b'.lo ∧ c < b'.lo) := by
  rcases hg.apart b' hb' b hb.mem hne with h | h
  · exact .inl h
  · refine .inr ⟨h, ?_⟩
    by_contra hle
    have hlo := hb.greatest b' hb' (not_lt.mp hle)
    exact absurd ((hg.ordered b hb.mem).trans_lt h) hlo.not_gt

theorem previous_apart (hg : Gathered bands lots) (hb : Previous bands c b) (hb' : b' ∈ bands) (hne : b' ≠ b) :
    (b'.hi < b.lo ∧ b'.lo ≤ c) ∨ b.hi < b'.lo := by
  rcases hg.apart b' hb' b hb.mem hne with h | h
  · refine .inl ⟨h, ?_⟩
    by_contra hlt
    have hlo := hb.least b' hb' (not_le.mp hlt)
    exact absurd ((hg.ordered b' hb').trans_lt h) hlo.not_gt
  · exact .inr h

/-- Where the price is out of the range of what is next to it, it is above all bands that begin below it. -/
theorem Reach.NoneNext.lt (h : r.NoneNext bands c) (hg : Gathered bands lots) (hr : r.Bounded bands) (hb : b ∈ bands) (hlo : b.lo ≤ c) :
    b.hi < c ∧ least < c := by
  rcases h with h | ⟨n, hn, hfar⟩
  · exact absurd hlo (h b hb).not_ge
  · obtain ⟨hhi, hup⟩ := not_or.mp hfar
    rw [not_le] at hhi hup
    refine ⟨?_, (hr.up n hn.mem).trans_lt hup⟩
    by_cases heq : b = n
    · exact heq ▸ hhi
    · rcases next_apart hg hn hb heq with h | ⟨-, h⟩
      · exact h.trans_le hn.le
      · exact absurd hlo h.not_ge

theorem Reach.NonePrevious.lt (h : r.NonePrevious bands c) (hr : r.Bounded bands) (hb : b ∈ bands) (hlo : c < b.lo) : c < greatest := by
  rcases h with h | ⟨p, hp, hdown⟩
  · exact absurd hlo (h b hb).not_gt
  · exact hdown.trans_le (hr.down p hp.mem)

theorem Previous.lt_of_not (hb : Previous bands (capped s) b) (h : ¬(greatest < s ∧ b.lo ≤ s)) : s < b.lo := by
  rcases capped_cases s with ⟨hmax, -⟩ | ⟨hmin, hc⟩ | ⟨-, -, hc⟩
  · exact not_le.mp fun hle => h ⟨hmax, hle⟩
  · exact hmin.trans (hc ▸ hb.lt)
  · exact hc ▸ hb.lt

/-! ### The placement keeps the bands -/

section
variable (hg : Gathered bands lots) (he : Edges bands)
include hg

theorem create_outside (hr : r.Bounded bands) (hnext : r.NoneNext bands (capped s)) (hprevious : r.NonePrevious bands (capped s)) :
    ∀ b ∈ bands, ¬b.Contains s := by
  intro b hb hin
  rcases le_or_gt b.lo (capped s) with hlo | hlo
  · obtain ⟨hhi, hleast⟩ := hnext.lt hg hr hb hlo
    exact absurd (hhi.trans_le (capped_le hleast)) hin.2.not_gt
  · have hs := le_capped (hprevious.lt hr hb hlo)
    exact absurd (hs.trans_lt hlo) hin.1.not_gt

/-- No other band begins as far down as the one previous to the price, when that begins at the price. -/
theorem down_apart (hr : r.Bounded bands) (hnext : r.NoneNext bands (capped s)) (hb : Previous bands (capped s) b) (hb' : b' ∈ bands)
    (hne : b' ≠ b) : b'.hi < s ∨ b.hi < b'.lo := by
  rcases previous_apart hg hb hb' hne with ⟨-, hle⟩ | h
  · obtain ⟨hhi, hleast⟩ := hnext.lt hg hr hb' hle
    exact .inl (hhi.trans_le (capped_le hleast))
  · exact .inr h

include he

/-- No other band begins below the least price, when the one next to it does. -/
theorem low_apart (hb : Next bands (capped s) b) (hlow : s < least) (hb' : b' ∈ bands) (hne : b' ≠ b) : b.hi < b'.lo := by
  rcases next_apart hg hb hb' hne with h | ⟨h, -⟩
  · have hble : b.lo ≤ least := hb.le.trans (capped_le_least hlow.le).le
    exact absurd (he.lower b' hb' b hb.mem ((hg.ordered b' hb').trans (h.le.trans hble)) hble) hne
  · exact h

theorem joinedNext_gathered (hb : Next bands (capped l.point) b) (hnarrow : ¬Narrows bands lots l.point)
    (hover : greatest < l.point → ∀ b' ∈ bands, greatest < b'.lo → l.point < b'.lo) :
    Gathered (insert (joinedNext b l) (bands \ {b})) (l :: lots) := by
  have hordered := hg.ordered b hb.mem
  have hlo : ¬(l.point < least ∧ l.point < b.lo) → b.lo ≤ l.point := by
    intro hnot
    rcases capped_cases l.point with ⟨hmax, hc⟩ | ⟨hmin, -⟩ | ⟨-, -, hc⟩
    · exact (hb.le.trans hc.le).trans hmax.le
    · exact not_lt.mp fun hlt => hnot ⟨hmin, hlt⟩
    · exact hb.le.trans hc.le
  unfold joinedNext
  split_ifs with hlow hwide
  · -- the band begins below the least price, and now at the order; no other one does
    refine hg.replace hb.mem ⟨le_rfl, hlow.2.le.trans hordered⟩ rfl (fun l' _ hin => ⟨hlow.2.le.trans hin.1, hin.2⟩) ?_
    intro b' hb' hne
    have hhi := low_apart hg he hb hlow.1 hb' hne
    exact .inr hhi
  · -- the band goes up to the order
    refine hg.replace hb.mem ⟨hlo hlow, le_rfl⟩ rfl (fun l' hl' hin => ⟨hin.1, ?_⟩) ?_
    · rcases capped_cases l.point with ⟨hmax, hc⟩ | ⟨hmin, hc⟩ | ⟨-, hle, hc⟩
      · rcases hwide with h | ⟨-, h⟩
        · exact hin.2.trans ((h.trans_eq hc).trans hmax).le
        · exact hin.2.trans h.le
      · have hhi : b.hi < least := by
          rcases hwide with h | ⟨hmax, -⟩
          · exact h.trans_eq hc
          · exact absurd (hmax.trans hmin) least_le_greatest.not_gt
        by_contra hlt
        rw [not_le] at hlt
        exact hnarrow ⟨hmin, b, hb.mem, ⟨hlo hlow, hlt.le.trans hin.2⟩, hhi, l', hl', hin, hlt⟩
      · rcases hwide with h | ⟨hmax, -⟩
        · exact hin.2.trans (h.trans_eq hc).le
        · exact absurd hmax hle.not_gt
    · intro b' hb' hne
      rcases next_apart hg hb hb' hne with h | ⟨-, h⟩
      · exact .inl h
      · refine .inr ?_
        rcases capped_cases l.point with ⟨hmax, hc⟩ | ⟨hmin, hc⟩ | ⟨-, -, hc⟩
        · exact hover hmax b' hb' (hc ▸ h)
        · exact hmin.trans (hc ▸ h)
        · exact hc ▸ h
  · -- the order lies in the band
    rw [not_or, not_and, not_lt] at hwide
    have hhi : l.point ≤ b.hi := by
      rcases capped_cases l.point with ⟨hmax, -⟩ | ⟨hmin, hc⟩ | ⟨-, -, hc⟩
      · exact not_lt.mp (hwide.2 hmax)
      · exact hmin.le.trans (hc ▸ hwide.1)
      · exact hc.ge.trans hwide.1
    refine hg.replace hb.mem ⟨hlo hlow, hhi⟩ rfl (fun _ _ hin => hin) ?_
    intro b' hb' hne
    exact hg.apart b' hb' b hb.mem hne

theorem joinedPrevious_gathered (hr : r.Bounded bands) (hnext : r.NoneNext bands (capped l.point)) (hb : Previous bands (capped l.point) b) :
    Gathered (insert (joinedPrevious b l) (bands \ {b})) (l :: lots) := by
  have hordered := hg.ordered b hb.mem
  unfold joinedPrevious
  split_ifs with hhigh
  · -- the band lies above the greatest price; no other one does
    refine hg.replace hb.mem ⟨hhigh.2, le_max_right _ _⟩ rfl (fun l' _ hin => ⟨hin.1, hin.2.trans (le_max_left _ _)⟩) ?_
    intro b' hb' hne
    rcases previous_apart hg hb hb' hne with ⟨h, -⟩ | h
    · exact .inl h
    · have hlo : greatest < b.lo := (capped_of_greatest hhigh.1).ge.trans_lt hb.lt
      exact absurd (he.upper b' hb' b hb.mem (hlo.trans (hordered.trans_lt h)) hlo) hne
  · -- the band goes down to the order
    have hlt := hb.lt_of_not hhigh
    refine hg.replace hb.mem ⟨le_rfl, hlt.le.trans hordered⟩ rfl (fun l' _ hin => ⟨hlt.le.trans hin.1, hin.2⟩) ?_
    intro b' hb' hne
    have hapart := down_apart hg hr hnext hb hb' hne
    exact hapart

end

theorem Placed.gathered {bands' : Set (Band ℚ)} (h : Placed r bands l bands') (hg : Gathered bands lots) (he : Edges bands) (hr : r.Bounded bands)
    (hnarrow : ¬Narrows bands lots l.point) (hover : ¬Overruns r bands l.point) : Gathered bands' (l :: lots) := by
  cases h with
  | create hnext hprevious => exact hg.create (create_outside hg hr hnext hprevious)
  | next b hb hnear =>
    refine joinedNext_gathered hg he hb hnarrow fun hmax b' hb' hlo => ?_
    by_contra hle
    rw [capped_of_greatest hmax] at hb hnear
    exact hover ⟨hmax, ⟨b, hb, hnear⟩, b', hb', hlo, not_lt.mp hle⟩
  | previous b hnext hb => exact joinedPrevious_gathered hg he hr hnext hb

/-! ### And their edges -/

theorem Edges.add {new : Band ℚ} (he : Edges bands) (hlower : new.lo ≤ least → ∀ b ∈ bands, ¬b.lo ≤ least)
    (hupper : greatest < new.lo → ∀ b ∈ bands, ¬greatest < b.lo) : Edges (insert new bands) where
  lower := by
    rintro b₁ (rfl | h₁) b₂ (rfl | h₂) hlo₁ hlo₂
    · rfl
    · exact absurd hlo₂ (hlower hlo₁ b₂ h₂)
    · exact absurd hlo₁ (hlower hlo₂ b₁ h₁)
    · exact he.lower b₁ h₁ b₂ h₂ hlo₁ hlo₂
  upper := by
    rintro b₁ (rfl | h₁) b₂ (rfl | h₂) hlo₁ hlo₂
    · rfl
    · exact absurd hlo₂ (hupper hlo₁ b₂ h₂)
    · exact absurd hlo₁ (hupper hlo₂ b₁ h₁)
    · exact he.upper b₁ h₁ b₂ h₂ hlo₁ hlo₂

theorem Edges.subset {sub : Set (Band ℚ)} (he : Edges bands) (h : sub ⊆ bands) : Edges sub :=
  ⟨fun b hb b' hb' => he.lower b (h hb) b' (h hb'), fun b hb b' hb' => he.upper b (h hb) b' (h hb')⟩

/-- A band that does not come nearer to the edges takes the place of another one. -/
theorem Edges.replace {new : Band ℚ} (he : Edges bands) (hb : b ∈ bands) (hlower : new.lo ≤ least → b.lo ≤ least)
    (hupper : greatest < new.lo → greatest < b.lo) : Edges (insert new (bands \ {b})) := by
  refine (he.subset Set.sdiff_subset).add (fun hlo b' hb' hlo' => ?_) (fun hlo b' hb' hlo' => ?_)
  · exact hb'.2 (he.lower b' hb'.1 b hb hlo' (hlower hlo))
  · exact hb'.2 (he.upper b' hb'.1 b hb hlo' (hupper hlo))

theorem Placed.edges {bands' : Set (Band ℚ)} (h : Placed r bands l bands') (hg : Gathered bands lots) (he : Edges bands) (hr : r.Bounded bands) :
    Edges bands' := by
  cases h with
  | create hnext hprevious =>
    refine he.add (fun hlo b hb hlo' => ?_) (fun hlo b hb hlo' => ?_)
    · have hc := capped_le_least hlo
      exact (hnext.lt hg hr hb (hlo'.trans hc.ge)).2.ne hc.symm
    · have hc := capped_of_greatest hlo
      exact (hprevious.lt hr hb (hc.trans_lt hlo')).ne hc
  | next b hb hnear =>
    unfold joinedNext
    split_ifs with hlow
    · refine he.replace hb.mem (fun _ => hb.le.trans (capped_le_least hlow.1.le).le) fun hmax => ?_
      exact absurd (hmax.trans hlow.1) least_le_greatest.not_gt
    · exact he.replace hb.mem id id
    · exact he.replace hb.mem id id
  | previous b hnext hb =>
    unfold joinedPrevious
    split_ifs with hhigh
    · exact he.replace hb.mem id id
    · refine (he.subset Set.sdiff_subset).add (fun hlo b' hb' hlo' => ?_) (fun hlo b' hb' hlo' => ?_)
      · have hc := capped_le_least hlo
        exact (hnext.lt hg hr hb'.1 (hlo'.trans hc.ge)).2.ne hc.symm
      · have hc := capped_of_greatest hlo
        exact hb'.2 (he.upper b' hb'.1 b hb.mem hlo' (hc.ge.trans_lt hb.lt))

end

/-! ### Totals do not matter for a placement -/

section
variable {r : Reach} {t : Int}

theorem Narrows.of_points {rest : List (Lot ℚ)} (h : Narrows bands lots s) (hpoints : ∀ l ∈ lots, ∃ l' ∈ rest, l'.point = l.point) :
    Narrows bands rest s := by
  obtain ⟨hs, b, hb, hin, hhi, l, hl, hlin, hlt⟩ := h
  obtain ⟨l', hl', heq⟩ := hpoints l hl
  exact ⟨hs, b, hb, hin, hhi, l', hl', heq ▸ hlin, heq ▸ hlt⟩

theorem Narrows.of_total (h : Narrows (insert { b with total := t } (bands \ {b})) lots s) (hb : b ∈ bands) : Narrows bands lots s := by
  obtain ⟨hs, b', rfl | hb', hrest⟩ := h
  · exact ⟨hs, b, hb, hrest⟩
  · exact ⟨hs, b', hb'.1, hrest⟩

theorem Overruns.of_total (h : Overruns r (insert { b with total := t } (bands \ {b})) s) (hb : b ∈ bands) : Overruns r bands s := by
  obtain ⟨hs, ⟨n, hn, hnear⟩, u, hu, hgreatest, hlo⟩ := h
  have hnext : ∀ b' ∈ bands, b'.lo ≤ greatest → b'.lo ≤ n.lo := by
    intro b' hb' hle
    by_cases heq : b' = b
    · subst heq
      exact hn.greatest { b' with total := t } (.inl rfl) hle
    · exact hn.greatest b' (.inr ⟨hb', heq⟩) hle
  refine ⟨hs, ?_, ?_⟩
  · rcases hn.mem with rfl | hmem
    · exact ⟨b, ⟨hb, hn.le, hnext⟩, hnear⟩
    · exact ⟨n, ⟨hmem.1, hn.le, hnext⟩, hnear⟩
  · rcases hu with rfl | hu
    · exact ⟨b, hb, hgreatest, hlo⟩
    · exact ⟨u, hu.1, hgreatest, hlo⟩

end

end Khc.Grouped
