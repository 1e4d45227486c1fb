import Khc.Lib.Rows
import Mathlib.Data.List.Sort

/-! The element that stands at some place once a list is sorted, and how many elements are not less. -/

namespace Khc.Lib

variable {α : Type} [LinearOrder α] {l : List α} {n : Nat} {x : α}

/-- What `std::nth_element` puts at a place -/
def nthElement (l : List α) (n : Nat) : Option α := (l.insertionSort (· ≤ ·))[n]?

theorem nthElement_mem (h : nthElement l n = some x) : x ∈ l := (List.mem_insertionSort _).mp (List.mem_of_getElem? h)

theorem nthElement_perm {l' : List α} (h : l.Perm l') : nthElement l n = nthElement l' n := by
  have hsame := ((List.perm_insertionSort (· ≤ ·) l).trans h).trans (List.perm_insertionSort (· ≤ ·) l').symm
  rw [nthElement, nthElement, hsame.eq_of_pairwise (fun _ _ _ _ => le_antisymm) (List.pairwise_insertionSort _ _)
    (List.pairwise_insertionSort _ _)]

/-- All elements from the place on are not less. -/
theorem le_countP_of_nthElement (h : nthElement l n = some x) : l.length - n ≤ l.countP (x ≤ ·) := by
  obtain ⟨hn, hx⟩ := List.getElem?_eq_some_iff.mp h
  have hperm := List.perm_insertionSort (· ≤ ·) l
  have hrest : ∀ y ∈ (l.insertionSort (· ≤ ·)).drop n, decide (x ≤ y) = true := by
    intro y hy
    obtain ⟨i, hi, rfl⟩ := List.mem_drop_iff_getElem.mp hy
    rw [decide_eq_true_iff, ← hx]
    rcases i.eq_zero_or_pos with rfl | hpos
    · exact le_refl _
    · exact List.pairwise_iff_getElem.mp (List.pairwise_insertionSort (· ≤ ·) l) _ _ _ _ (by omega)
  calc l.length - n = ((l.insertionSort (· ≤ ·)).drop n).length := by rw [List.length_drop, List.length_insertionSort]
    _ = ((l.insertionSort (· ≤ ·)).drop n).countP (x ≤ ·) := (List.countP_eq_length.mpr hrest).symm
    _ ≤ (l.insertionSort (· ≤ ·)).countP (x ≤ ·) := (List.drop_sublist _ _).countP_le
    _ = l.countP (x ≤ ·) := hperm.countP_eq _

/-! ### Selection -/

/-- An element with nothing greater before it and nothing less after it stands where it does in the sorted list. -/
theorem nthElement_of_split {l₁ l₂ : List α} (hperm : (l₁ ++ x :: l₂).Perm l) (hbefore : ∀ y ∈ l₁, y ≤ x) (hafter : ∀ y ∈ l₂, x ≤ y) :
    nthElement l l₁.length = some x := by
  have hsorted : (l₁.insertionSort (· ≤ ·) ++ x :: l₂.insertionSort (· ≤ ·)).Pairwise (· ≤ ·) := by
    refine List.pairwise_append.mpr ⟨List.pairwise_insertionSort _ _, List.pairwise_cons.mpr ⟨fun y hy => ?_,
      List.pairwise_insertionSort _ _⟩, fun y hy z hz => ?_⟩
    · exact hafter y ((List.mem_insertionSort _).mp hy)
    · have hle := hbefore y ((List.mem_insertionSort _).mp hy)
      rcases List.mem_cons.mp hz with rfl | hz
      · exact hle
      · exact hle.trans (hafter z ((List.mem_insertionSort _).mp hz))
  have hsame : (l.insertionSort (· ≤ ·)).Perm (l₁.insertionSort (· ≤ ·) ++ x :: l₂.insertionSort (· ≤ ·)) :=
    (List.perm_insertionSort _ l).trans (hperm.symm.trans
      ((List.perm_insertionSort _ l₁).symm.append ((List.perm_insertionSort _ l₂).symm.cons x)))
  rw [nthElement, hsame.eq_of_pairwise (fun _ _ _ _ => le_antisymm) (List.pairwise_insertionSort _ l) hsorted,
    List.getElem?_append_right (by rw [List.length_insertionSort]), List.length_insertionSort, Nat.sub_self]
  rfl

/-- `std::nth_element`: the elements in some order, such that nothing before the place is greater than what stands there and nothing
    after it is less, by a comparison that orders the elements as keys of theirs are ordered -/
class NthElement where
  run : {β : Type} → (β → β → Bool) → List β → Nat → List β
  perm : ∀ {β : Type} (lt : β → β → Bool) (l : List β) (n : Nat), (run lt l n).Perm l
  before : ∀ {β κ : Type} [LinearOrder κ] (k : β → κ) (lt : β → β → Bool) (l : List β) (n : Nat) (x y : β),
    (∀ a ∈ l, ∀ b ∈ l, lt a b = true ↔ k a < k b) → (run lt l n)[n]? = some x → y ∈ (run lt l n).take n → k y ≤ k x
  after : ∀ {β κ : Type} [LinearOrder κ] (k : β → κ) (lt : β → β → Bool) (l : List β) (n : Nat) (x y : β),
    (∀ a ∈ l, ∀ b ∈ l, lt a b = true ↔ k a < k b) → (run lt l n)[n]? = some x → y ∈ (run lt l n).drop (n + 1) → k x ≤ k y

theorem drop_of_getElem? {β : Type} {l : List β} {n : Nat} {x : β} (h : l[n]? = some x) : l.drop n = x :: l.drop (n + 1) := by
  obtain ⟨hn, rfl⟩ := List.getElem?_eq_some_iff.mp h
  exact List.drop_eq_getElem_cons hn

theorem pairwise_sorted {β κ : Type} [LinearOrder κ] {k : β → κ} {lt : β → β → Bool} {l : List β} (n : Nat)
    (h : ∀ a ∈ l, ∀ b ∈ l, lt a b = true ↔ k a < k b) :
    ((l.insertionSort fun a b => ¬lt b a).take n ++ (l.insertionSort fun a b => ¬lt b a).drop n).Pairwise fun a b => k a ≤ k b := by
  rw [List.take_append_drop]
  refine pairwise_insertionSort_key fun a ha b hb => ?_
  rw [h b hb a ha, not_lt]

/-- A selection that sorts -/
instance : NthElement where
  run lt l _ := l.insertionSort fun a b => ¬lt b a
  perm _ _ _ := List.perm_insertionSort _ _
  before k lt l n x y h hx hy := by
    have hsorted := pairwise_sorted n h
    rw [drop_of_getElem? hx] at hsorted
    exact (List.pairwise_append.mp hsorted).2.2 y hy x List.mem_cons_self
  after k lt l n x y h hx hy := by
    have hsorted := pairwise_sorted n h
    rw [drop_of_getElem? hx] at hsorted
    exact (List.pairwise_cons.mp (List.pairwise_append.mp hsorted).2.1).1 y hy

/-- What a selection finds stands at the place once the keys are sorted. -/
theorem NthElement.spec [NthElement] {β κ : Type} [LinearOrder κ] (k : β → κ) (lt : β → β → Bool) {l : List β} {n : Nat}
    (h : ∀ a ∈ l, ∀ b ∈ l, lt a b = true ↔ k a < k b) (hn : n < l.length) :
    ∃ x, (run lt l n)[n]? = some x ∧ x ∈ l ∧ nthElement (l.map k) n = some (k x) := by
  have hperm := perm lt l n
  have hn' : n < (run lt l n).length := hperm.length_eq ▸ hn
  obtain ⟨x, hx⟩ : ∃ x, (run lt l n)[n]? = some x := ⟨_, List.getElem?_eq_getElem hn'⟩
  refine ⟨x, hx, hperm.subset (List.mem_of_getElem? hx), ?_⟩
  have hsplit : (run lt l n).take n ++ x :: (run lt l n).drop (n + 1) = run lt l n := by
    rw [← drop_of_getElem? hx, List.take_append_drop]
  have hlength : (((run lt l n).take n).map k).length = n := by rw [List.length_map, List.length_take_of_le hn'.le]
  have hkeys : (((run lt l n).take n).map k ++ k x :: ((run lt l n).drop (n + 1)).map k).Perm (l.map k) := by
    rw [← List.map_cons, ← List.map_append, hsplit]
    exact hperm.map k
  have hnth := nthElement_of_split hkeys ?_ ?_
  · rwa [hlength] at hnth
  · intro y hy
    obtain ⟨a, ha, rfl⟩ := List.mem_map.mp hy
    exact before k lt l n x a h hx ha
  · intro y hy
    obtain ⟨a, ha, rfl⟩ := List.mem_map.mp hy
    exact after k lt l n x a h hx ha

end Khc.Lib
