import Mathlib.Algebra.Order.Ring.Int
import Mathlib.Algebra.Order.BigOperators.Group.List

/-! A budget that is given out in order: each one gets what it asks for, as far as there is something left. -/

namespace Khc.Lib

variable {α : Type} {ask : α → Int} {b : Int} {a : α} {as : List α}

/-- Who gets something, and how much. -/
def rations (ask : α → Int) : Int → List α → List (α × Int)
  | _, [] => []
  | b, a :: as => if 0 < b then (a, min b (ask a)) :: rations ask (b - min b (ask a)) as else []

/-- What was given to those of a kind -/
def given (p : α → Bool) (ps : List (α × Int)) : Int := ((ps.filter fun e => p e.1).map Prod.snd).sum

@[simp] theorem given_nil {p : α → Bool} : given p [] = 0 := rfl

theorem given_cons {p : α → Bool} {e : α × Int} {ps : List (α × Int)} :
    given p (e :: ps) = (if p e.1 then e.2 else 0) + given p ps := by
  unfold given
  rw [List.filter_cons]
  split <;> simp

theorem rations_cons_of_pos (h : 0 < b) : rations ask b (a :: as) = (a, min b (ask a)) :: rations ask (b - min b (ask a)) as :=
  if_pos h

theorem rations_of_not_pos (h : ¬0 < b) : rations ask b as = [] := by
  cases as with
  | nil => rfl
  | cons a as => exact if_neg h

/-- Nobody gets less than nothing, or more than was asked for. -/
theorem rations_bounds (h : ∀ a ∈ as, 0 ≤ ask a) : ∀ e ∈ rations ask b as, e.1 ∈ as ∧ 0 ≤ e.2 ∧ e.2 ≤ ask e.1 := by
  induction as generalizing b with
  | nil => exact fun e he => absurd he List.not_mem_nil
  | cons a as ih =>
    intro e he
    by_cases hb : 0 < b
    · rw [rations_cons_of_pos hb] at he
      rcases List.mem_cons.mp he with rfl | he
      · exact ⟨List.mem_cons_self, le_min hb.le (h a List.mem_cons_self), min_le_right _ _⟩
      · obtain ⟨hmem, hbounds⟩ := ih (fun a ha => h a (List.mem_cons_of_mem _ ha)) e he
        exact ⟨List.mem_cons_of_mem _ hmem, hbounds⟩
    · rw [rations_of_not_pos hb] at he
      exact absurd he List.not_mem_nil

/-- All of it is given when enough is asked for, and otherwise all that is asked for. -/
theorem given_rations (h : ∀ a ∈ as, 0 ≤ ask a) (hb : 0 ≤ b) : given (fun _ => true) (rations ask b as) = min b (as.map ask).sum := by
  induction as generalizing b with
  | nil => simpa [rations] using hb
  | cons a as ih =>
    have ha := h a List.mem_cons_self
    have has : ∀ a ∈ as, 0 ≤ ask a := fun a ha => h a (List.mem_cons_of_mem _ ha)
    have hsum : 0 ≤ (as.map ask).sum := List.sum_nonneg (List.forall_mem_map.mpr has)
    by_cases hpos : 0 < b
    · rw [rations_cons_of_pos hpos, given_cons, ih has (by omega), List.map_cons, List.sum_cons]
      simp only [if_true]
      omega
    · rw [rations_of_not_pos hpos, given_nil, List.map_cons, List.sum_cons]
      omega

/-- Those of a kind get no more than all. -/
theorem given_le {p : α → Bool} {ps : List (α × Int)} (h : ∀ e ∈ ps, 0 ≤ e.2) : 0 ≤ given p ps ∧ given p ps ≤ given (fun _ => true) ps := by
  induction ps with
  | nil => simp
  | cons e ps ih =>
    obtain ⟨hge, hle⟩ := ih fun e he => h e (List.mem_cons_of_mem _ he)
    have he := h e List.mem_cons_self
    rw [given_cons, given_cons]
    simp only [if_true]
    split <;> omega

end Khc.Lib
