import Mathlib.Algebra.Order.BigOperators.Group.List
import Mathlib.Algebra.Order.Ring.Int
import Mathlib.Order.Basic

/-! Lots at points of a linear order that are gathered in disjoint bands, each with the total of its lots. -/

namespace Khc.Lib

structure Band (α : Type) where
  lo : α
  hi : α
  total : Int

/-- An amount at a point -/
structure Lot (α : Type) where
  point : α
  amount : Int

variable {α : Type} [LinearOrder α] {bands : Set (Band α)} {lots rest : List (Lot α)} {b b' new : Band α} {l : Lot α} {p : α}

namespace Band

def Contains (b : Band α) (p : α) : Prop := b.lo ≤ p ∧ p ≤ b.hi

instance (b : Band α) (p : α) : Decidable (b.Contains p) := inferInstanceAs (Decidable (_ ∧ _))

/-- What lies in the band, taken together -/
def sum (b : Band α) (lots : List (Lot α)) : Int := ((lots.filter fun l => b.Contains l.point).map (·.amount)).sum

/-- No point lies in both bands. -/
def Apart (b b' : Band α) : Prop := b.hi < b'.lo ∨ b'.hi < b.lo

theorem Apart.symm (h : b.Apart b') : b'.Apart b := h.elim .inr .inl

theorem Apart.not_contains (h : b.Apart b') (hp : b.Contains p) : ¬b'.Contains p := by
  rintro ⟨hlo, hhi⟩
  rcases h with h | h
  · exact absurd (hp.2.trans_lt h) hlo.not_gt
  · exact absurd (hhi.trans_lt h) hp.1.not_gt

theorem sum_cons : b.sum (l :: lots) = (if b.Contains l.point then l.amount else 0) + b.sum lots := by
  unfold sum
  rw [List.filter_cons]
  by_cases h : b.Contains l.point
  · rw [if_pos (decide_eq_true h), List.map_cons, List.sum_cons, if_pos h]
  · rw [if_neg (by simpa using h), if_neg h, zero_add]

theorem sum_congr (h : ∀ l ∈ lots, b.Contains l.point ↔ b'.Contains l.point) : b.sum lots = b'.sum lots := by
  unfold sum
  rw [List.filter_congr fun l hl => decide_eq_decide.mpr (h l hl)]

theorem sum_nonneg (h : ∀ l ∈ lots, 0 ≤ l.amount) : 0 ≤ b.sum lots := by
  refine List.sum_nonneg fun x hx => ?_
  obtain ⟨l, hl, rfl⟩ := List.mem_map.mp hx
  exact h l (List.mem_of_mem_filter hl)

/-- Where all amounts are positive, the total is, unless nothing lies in the band. -/
theorem sum_pos_iff (h : ∀ l ∈ lots, 0 < l.amount) : 0 < b.sum lots ↔ ∃ l ∈ lots, b.Contains l.point := by
  induction lots with
  | nil => simp [sum]
  | cons l lots ih =>
    have hrest : ∀ l' ∈ lots, 0 < l'.amount := fun l' hl' => h l' (List.mem_cons_of_mem _ hl')
    have hnonneg : 0 ≤ b.sum lots := sum_nonneg fun l' hl' => (hrest l' hl').le
    rw [sum_cons]
    by_cases hin : b.Contains l.point
    · rw [if_pos hin]
      exact iff_of_true (add_pos_of_pos_of_nonneg (h l List.mem_cons_self) hnonneg) ⟨l, List.mem_cons_self, hin⟩
    · rw [if_neg hin, zero_add, ih hrest]
      constructor
      · rintro ⟨l', hl', hin'⟩
        exact ⟨l', List.mem_cons_of_mem _ hl', hin'⟩
      · rintro ⟨l', hl', hin'⟩
        rcases List.mem_cons.mp hl' with rfl | hl'
        · exact absurd hin' hin
        · exact ⟨l', hl', hin'⟩

theorem sum_perm (h : lots.Perm rest) : b.sum lots = b.sum rest := ((h.filter _).map _).sum_eq

end Band

/-- The bands are apart, each holds a lot, and each lot lies in one of them. -/
structure Gathered (bands : Set (Band α)) (lots : List (Lot α)) : Prop where
  ordered : ∀ b ∈ bands, b.lo ≤ b.hi
  apart : ∀ b ∈ bands, ∀ b' ∈ bands, b ≠ b' → b.Apart b'
  covered : ∀ l ∈ lots, ∃ b ∈ bands, b.Contains l.point
  inhabited : ∀ b ∈ bands, ∃ l ∈ lots, b.Contains l.point
  total : ∀ b ∈ bands, b.total = b.sum lots

namespace Gathered

theorem perm (h : Gathered bands lots) (hperm : lots.Perm rest) : Gathered bands rest where
  ordered := h.ordered
  apart := h.apart
  covered l hl := h.covered l (hperm.mem_iff.mpr hl)
  inhabited b hb := by
    obtain ⟨l, hl, hin⟩ := h.inhabited b hb
    exact ⟨l, hperm.mem_iff.mp hl, hin⟩
  total b hb := (h.total b hb).trans (Band.sum_perm hperm)

/-- A band that a point lies in is the only one. -/
theorem eq_of_contains (h : Gathered bands lots) (hb : b ∈ bands) (hb' : b' ∈ bands) (hp : b.Contains p) (hp' : b'.Contains p) : b = b' := by
  by_contra hne
  exact (h.apart b hb b' hb' hne).not_contains hp hp'

/-- A lot outside the bands gets its own. -/
theorem create (h : Gathered bands lots) (hout : ∀ b ∈ bands, ¬b.Contains l.point) :
    Gathered (insert ⟨l.point, l.point, l.amount⟩ bands) (l :: lots) := by
  have hapart : ∀ b ∈ bands, b.Apart ⟨l.point, l.point, l.amount⟩ := by
    intro b hb
    by_contra hnot
    rw [Band.Apart, not_or, not_lt, not_lt] at hnot
    exact hout b hb ⟨hnot.2, hnot.1⟩
  constructor
  case ordered =>
    rintro b (rfl | hb)
    · exact le_rfl
    · exact h.ordered b hb
  case apart =>
    rintro b (rfl | hb) b' (rfl | hb') hne
    · exact absurd rfl hne
    · exact (hapart b' hb').symm
    · exact hapart b hb
    · exact h.apart b hb b' hb' hne
  case covered =>
    intro l' hl'
    rcases List.mem_cons.mp hl' with rfl | hl'
    · exact ⟨_, .inl rfl, le_rfl, le_rfl⟩
    · obtain ⟨b, hb, hin⟩ := h.covered l' hl'
      exact ⟨b, .inr hb, hin⟩
  case inhabited =>
    rintro b (rfl | hb)
    · exact ⟨l, List.mem_cons_self, le_rfl, le_rfl⟩
    · obtain ⟨l', hl', hin⟩ := h.inhabited b hb
      exact ⟨l', List.mem_cons_of_mem _ hl', hin⟩
  case total =>
    rintro b (rfl | hb)
    · -- no other lot is at the point, or a band would contain it
      have hnone : Band.sum ⟨l.point, l.point, l.amount⟩ lots = 0 := by
        unfold Band.sum
        rw [List.filter_eq_nil_iff.mpr fun l' hl' hin => ?_]
        · rfl
        · obtain ⟨b, hb, hb'⟩ := h.covered l' hl'
          obtain ⟨hle, hge⟩ := of_decide_eq_true hin
          have hpoint : l.point = l'.point := le_antisymm hle hge
          exact hout b hb (hpoint ▸ hb')
      rw [Band.sum_cons, if_pos ⟨le_rfl, le_rfl⟩, hnone, add_zero]
    · rw [Band.sum_cons, if_neg (hout b hb), zero_add, h.total b hb]

/-- A band takes up a lot, and changes its ends so that it keeps its lots and stays apart from the other bands. -/
theorem replace (h : Gathered bands lots) (hb : b ∈ bands) (hnew : new.Contains l.point) (htotal : new.total = b.total + l.amount)
    (hkeeps : ∀ l' ∈ lots, b.Contains l'.point → new.Contains l'.point) (hapart : ∀ b' ∈ bands, b' ≠ b → b'.Apart new) :
    Gathered (insert new (bands \ {b})) (l :: lots) := by
  have hsame : ∀ l' ∈ lots, new.Contains l'.point ↔ b.Contains l'.point := by
    refine fun l' hl' => ⟨fun hin => ?_, hkeeps l' hl'⟩
    obtain ⟨b', hb', hin'⟩ := h.covered l' hl'
    by_cases heq : b' = b
    · exact heq ▸ hin'
    · exact absurd hin ((hapart b' hb' heq).not_contains hin')
  constructor
  case ordered =>
    rintro b' (rfl | hb')
    · exact hnew.1.trans hnew.2
    · exact h.ordered b' hb'.1
  case apart =>
    rintro b₁ (rfl | hb₁) b₂ (rfl | hb₂) hne
    · exact absurd rfl hne
    · exact (hapart b₂ hb₂.1 hb₂.2).symm
    · exact hapart b₁ hb₁.1 hb₁.2
    · exact h.apart b₁ hb₁.1 b₂ hb₂.1 hne
  case covered =>
    intro l' hl'
    rcases List.mem_cons.mp hl' with rfl | hl'
    · exact ⟨new, .inl rfl, hnew⟩
    · obtain ⟨b', hb', hin⟩ := h.covered l' hl'
      by_cases heq : b' = b
      · exact ⟨new, .inl rfl, (hsame l' hl').mpr (heq ▸ hin)⟩
      · exact ⟨b', .inr ⟨hb', heq⟩, hin⟩
  case inhabited =>
    rintro b' (rfl | hb')
    · exact ⟨l, List.mem_cons_self, hnew⟩
    · obtain ⟨l', hl', hin⟩ := h.inhabited b' hb'.1
      exact ⟨l', List.mem_cons_of_mem _ hl', hin⟩
  case total =>
    rintro b' (rfl | hb')
    · rw [Band.sum_cons, if_pos hnew, htotal, h.total b hb, Band.sum_congr hsame, add_comm]
    · have hout : ¬b'.Contains l.point := fun hin => (hapart b' hb'.1 hb'.2).not_contains hin hnew
      rw [Band.sum_cons, if_neg hout, zero_add, h.total b' hb'.1]

/-- A lot becomes empty. -/
theorem empty (h : Gathered bands (l :: lots)) (hb : b ∈ bands) (hin : b.Contains l.point) :
    Gathered (insert { b with total := b.total - l.amount } (bands \ {b})) (⟨l.point, 0⟩ :: lots) := by
  constructor
  case ordered =>
    rintro b' (rfl | hb')
    · exact h.ordered b hb
    · exact h.ordered b' hb'.1
  case apart =>
    rintro b₁ (rfl | hb₁) b₂ (rfl | hb₂) hne
    · exact absurd rfl hne
    · exact h.apart b hb b₂ hb₂.1 (Ne.symm hb₂.2)
    · exact h.apart b₁ hb₁.1 b hb hb₁.2
    · exact h.apart b₁ hb₁.1 b₂ hb₂.1 hne
  case covered =>
    intro l' hl'
    rcases List.mem_cons.mp hl' with rfl | hl'
    · exact ⟨_, .inl rfl, hin⟩
    · obtain ⟨b', hb', hin'⟩ := h.covered l' (List.mem_cons_of_mem _ hl')
      by_cases heq : b' = b
      · exact ⟨_, .inl rfl, heq ▸ hin'⟩
      · exact ⟨b', .inr ⟨hb', heq⟩, hin'⟩
  case inhabited =>
    rintro b' (rfl | hb')
    · exact ⟨⟨l.point, 0⟩, List.mem_cons_self, hin⟩
    · obtain ⟨l', hl', hin'⟩ := h.inhabited b' hb'.1
      rcases List.mem_cons.mp hl' with rfl | hl'
      · exact ⟨⟨l'.point, 0⟩, List.mem_cons_self, hin'⟩
      · exact ⟨l', List.mem_cons_of_mem _ hl', hin'⟩
  case total =>
    rintro b' (rfl | hb')
    · show b.total - l.amount = b.sum _
      rw [h.total b hb, Band.sum_cons, Band.sum_cons, if_pos hin, add_sub_cancel_left, if_pos hin, zero_add]
    · have hout : ¬b'.Contains l.point := fun hin' => hb'.2 (h.eq_of_contains hb'.1 hb hin' hin)
      rw [h.total b' hb'.1, Band.sum_cons, Band.sum_cons, if_neg hout, if_neg hout]

/-- An empty lot is left out, where its band holds another one. -/
theorem forget (h : Gathered bands (⟨p, 0⟩ :: lots)) (hother : ∀ b ∈ bands, b.Contains p → ∃ l' ∈ lots, b.Contains l'.point) :
    Gathered bands lots where
  ordered := h.ordered
  apart := h.apart
  covered l' hl' := h.covered l' (List.mem_cons_of_mem _ hl')
  inhabited b' hb' := by
    obtain ⟨l', hl', hin'⟩ := h.inhabited b' hb'
    rcases List.mem_cons.mp hl' with rfl | hl'
    · exact hother b' hb' hin'
    · exact ⟨l', hl', hin'⟩
  total b' hb' := by
    rw [h.total b' hb', Band.sum_cons, ite_self, zero_add]

/-- A band goes with its last lot. -/
theorem erase (h : Gathered bands (l :: lots)) (hb : b ∈ bands) (hin : b.Contains l.point) (hnone : ∀ l' ∈ lots, ¬b.Contains l'.point) :
    Gathered (bands \ {b}) lots where
  ordered b' hb' := h.ordered b' hb'.1
  apart b₁ hb₁ b₂ hb₂ hne := h.apart b₁ hb₁.1 b₂ hb₂.1 hne
  covered l' hl' := by
    obtain ⟨b', hb', hin'⟩ := h.covered l' (List.mem_cons_of_mem _ hl')
    exact ⟨b', ⟨hb', fun heq => hnone l' hl' (heq ▸ hin')⟩, hin'⟩
  inhabited b' hb' := by
    obtain ⟨l', hl', hin'⟩ := h.inhabited b' hb'.1
    rcases List.mem_cons.mp hl' with rfl | hl'
    · exact absurd (h.eq_of_contains hb'.1 hb hin' hin) hb'.2
    · exact ⟨l', hl', hin'⟩
  total b' hb' := by
    have hout : ¬b'.Contains l.point := fun hin' => hb'.2 (h.eq_of_contains hb'.1 hb hin' hin)
    rw [h.total b' hb'.1, Band.sum_cons, if_neg hout, zero_add]

end Gathered

end Khc.Lib
