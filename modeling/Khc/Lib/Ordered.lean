import Mathlib.Data.List.Basic
import Mathlib.Data.List.Pairwise
import Mathlib.Data.List.TakeWhile
import Mathlib.Order.Lattice

/-! The lower bound of a key in a list that is sorted by rank: what stands at it and what stands before it. -/

namespace Khc.Lib

variable {α β : Type} [LinearOrder β] {rank : α → β} {l : List α} {p : α → Bool} {k : β} {e x : α} {rest : List α}

/-- The list is sorted, and its elements are compared with the key rightly. -/
structure Probed (rank : α → β) (k : β) (p : α → Bool) (l : List α) : Prop where
  sorted : l.Pairwise (rank · < rank ·)
  below : ∀ e ∈ l, p e = true ↔ rank e < k

namespace Probed

theorem tail (h : Probed rank k p (x :: l)) : Probed rank k p l :=
  ⟨(List.pairwise_cons.mp h.sorted).2, fun e he => h.below e (List.mem_cons_of_mem _ he)⟩

theorem mem_takeWhile (h : Probed rank k p l) : e ∈ l.takeWhile p ↔ e ∈ l ∧ rank e < k := by
  induction l with
  | nil => simp
  | cons y l ih =>
    rw [List.takeWhile_cons]
    have hy := h.below y List.mem_cons_self
    by_cases hpy : p y = true
    · rw [if_pos hpy, List.mem_cons, List.mem_cons, ih h.tail]
      constructor
      · rintro (rfl | ⟨he, hlt⟩)
        · exact ⟨.inl rfl, hy.mp hpy⟩
        · exact ⟨.inr he, hlt⟩
      · rintro ⟨rfl | he, hlt⟩
        · exact .inl rfl
        · exact .inr ⟨he, hlt⟩
    · rw [if_neg hpy]
      refine ⟨fun he => absurd he List.not_mem_nil, ?_⟩
      rintro ⟨he, hlt⟩
      have hle : k ≤ rank y := not_lt.mp fun hlt => hpy (hy.mpr hlt)
      rcases List.mem_cons.mp he with rfl | he
      · exact absurd hlt hle.not_gt
      · exact absurd hlt ((hle.trans_lt ((List.pairwise_cons.mp h.sorted).1 e he)).not_gt)

theorem mem_dropWhile (h : Probed rank k p l) : e ∈ l.dropWhile p ↔ e ∈ l ∧ k ≤ rank e := by
  induction l with
  | nil => simp
  | cons y l ih =>
    rw [List.dropWhile_cons]
    have hy := h.below y List.mem_cons_self
    by_cases hpy : p y = true
    · rw [if_pos hpy, List.mem_cons, ih h.tail]
      constructor
      · rintro ⟨he, hle⟩
        exact ⟨.inr he, hle⟩
      · rintro ⟨rfl | he, hle⟩
        · exact absurd (hy.mp hpy) hle.not_gt
        · exact ⟨he, hle⟩
    · rw [if_neg hpy]
      have hle : k ≤ rank y := not_lt.mp fun hlt => hpy (hy.mpr hlt)
      refine ⟨fun he => ⟨he, ?_⟩, fun he => he.1⟩
      rcases List.mem_cons.mp he with rfl | he
      · exact hle
      · exact hle.trans ((List.pairwise_cons.mp h.sorted).1 e he).le

/-- At the lower bound stands the least element that is not below the key. -/
theorem head (h : Probed rank k p l) (hx : l.dropWhile p = x :: rest) : x ∈ l ∧ k ≤ rank x ∧ ∀ e ∈ l, k ≤ rank e → rank x ≤ rank e := by
  obtain ⟨hmem, hle⟩ := h.mem_dropWhile.mp (hx ▸ List.mem_cons_self)
  refine ⟨hmem, hle, fun e he hke => ?_⟩
  have hsorted := h.sorted.sublist (List.dropWhile_sublist p)
  have hin := h.mem_dropWhile.mpr ⟨he, hke⟩
  rw [hx] at hsorted hin
  rcases List.mem_cons.mp hin with rfl | hin
  · exact le_rfl
  · exact ((List.pairwise_cons.mp hsorted).1 e hin).le

theorem lt_of_dropWhile_nil (h : Probed rank k p l) (hnil : l.dropWhile p = []) : ∀ e ∈ l, rank e < k := by
  intro e he
  by_contra hle
  exact List.not_mem_nil (hnil ▸ h.mem_dropWhile.mpr ⟨he, not_lt.mp hle⟩)

/-- Before the lower bound stands the greatest element that is below the key. -/
theorem last (h : Probed rank k p l) (hx : (l.takeWhile p).getLast? = some x) : x ∈ l ∧ rank x < k ∧ ∀ e ∈ l, rank e < k → rank e ≤ rank x := by
  obtain ⟨init, hinit⟩ := List.getLast?_eq_some_iff.mp hx
  obtain ⟨hmem, hlt⟩ := h.mem_takeWhile.mp (hinit ▸ List.mem_append_right _ (List.mem_singleton_self x))
  refine ⟨hmem, hlt, fun e he hek => ?_⟩
  have hsorted := h.sorted.sublist (List.takeWhile_sublist p)
  have hin := h.mem_takeWhile.mpr ⟨he, hek⟩
  rw [hinit] at hsorted hin
  rcases List.mem_append.mp hin with hin | hin
  · exact ((List.pairwise_append.mp hsorted).2.2 e hin x (List.mem_singleton_self x)).le
  · rw [List.mem_singleton.mp hin]

theorem le_of_takeWhile_nil (h : Probed rank k p l) (hnil : (l.takeWhile p).getLast? = none) : ∀ e ∈ l, k ≤ rank e := by
  intro e he
  by_contra hlt
  have hin := h.mem_takeWhile.mpr ⟨he, not_le.mp hlt⟩
  rw [List.getLast?_eq_none_iff.mp hnil] at hin
  exact List.not_mem_nil hin

end Probed

end Khc.Lib

/-! Ordered lists in which one looks for a place. -/

namespace Khc.Lib

variable {α : Type} {p q : α → Bool} {l : List α}

/-- Where what has a property comes first, to take while it holds is to take what has it. -/
theorem takeWhile_eq_filter (h : l.Pairwise fun a b => p b → p a) : l.takeWhile p = l.filter p := by
  induction l with
  | nil => rfl
  | cons a l ih =>
    obtain ⟨ha, hl⟩ := List.pairwise_cons.mp h
    by_cases hp : p a
    · rw [List.takeWhile_cons_of_pos hp, List.filter_cons_of_pos hp, ih hl]
    · rw [List.takeWhile_cons_of_neg hp, List.filter_cons_of_neg hp, eq_comm, List.filter_eq_nil_iff]
      exact fun b hb hpb => hp (ha b hb hpb)

theorem dropWhile_eq_filter (h : l.Pairwise fun a b => p b → p a) : l.dropWhile p = l.filter (!p ·) := by
  induction l with
  | nil => rfl
  | cons a l ih =>
    obtain ⟨ha, hl⟩ := List.pairwise_cons.mp h
    by_cases hp : p a
    · rw [List.dropWhile_cons_of_pos hp, List.filter_cons_of_neg (by simpa using hp), ih hl]
    · rw [List.dropWhile_cons_of_neg hp, eq_comm, List.filter_eq_self]
      intro b hb
      rcases List.mem_cons.mp hb with rfl | hb
      · simpa using hp
      · simpa using fun hpb => hp (ha b hb hpb)

/-- What has a property before what has not -/
theorem filter_append_filter_not (h : l.Pairwise fun a b => p b → p a) : l.filter p ++ l.filter (!p ·) = l := by
  rw [← takeWhile_eq_filter h, ← dropWhile_eq_filter h, List.takeWhile_append_dropWhile]

/-- A part of a list that is in order already comes out of sorting as it is. -/
theorem filter_mergeSort {le : α → α → Bool} (htrans : ∀ a b c, le a b → le b c → le a c) (htotal : ∀ a b, (le a b || le b a) = true)
    (h : (l.filter p).Pairwise fun a b => le a b) : (l.mergeSort le).filter p = l.filter p := by
  have hsublist : (l.filter p).Sublist (l.mergeSort le) := List.sublist_mergeSort htrans htotal h List.filter_sublist
  have hfilter := hsublist.filter p
  rw [List.filter_filter] at hfilter
  simp only [Bool.and_self] at hfilter
  exact (hfilter.eq_of_length ((List.mergeSort_perm l le).filter p).length_eq.symm).symm

end Khc.Lib
