import Mathlib.Data.List.Pairwise
import Mathlib.Data.Nat.Log

/-! Positions that approach a last one: each step goes half of the way that is left, rounded up, so that few of them stand for many. -/

namespace Khc.Lib

/-- The positions from the first one on -/
def approach (last first : Nat) : List Nat :=
  first :: if first < last then approach last (first + (last - first + 2) / 2) else []
termination_by last - first

/-- The same as a loop that stops after the bound -/
def approachUpTo (last bound : Nat) : Nat → Nat → List Nat
  | 0, p => [p]
  | rounds + 1, p =>
    let next := p + (last - p + 2) / 2
    p :: if next ≤ bound then approachUpTo last bound rounds next else []

section
variable {last first bound p q rounds : Nat}

theorem approach_of_lt (h : first < last) : approach last first = first :: approach last (first + (last - first + 2) / 2) := by
  rw [approach, if_pos h]

theorem approach_of_le (h : last ≤ first) : approach last first = [first] := by
  rw [approach, if_neg (not_lt.mpr h)]

theorem first_le (h : p ∈ approach last first) : first ≤ p := by
  fun_induction approach last first with
  | case1 first ih =>
    rcases List.mem_cons.mp h with rfl | h
    · exact le_rfl
    · split at h
      · have := ih ‹_› h
        omega
      · cases h

theorem le_last (hle : first ≤ last) (h : p ∈ approach last first) : p ≤ last := by
  fun_induction approach last first with
  | case1 first ih =>
    rcases List.mem_cons.mp h with rfl | h
    · exact hle
    · split at h
      · exact ih ‹_› (by omega) h
      · cases h

theorem approach_pairwise : (approach last first).Pairwise (· < ·) := by
  fun_induction approach last first with
  | case1 first ih =>
    refine List.pairwise_cons.mpr ⟨fun p hp => ?_, ?_⟩
    · split at hp
      · have := first_le hp
        omega
      · cases hp
    · split
      · exact ih ‹_›
      · exact .nil

theorem getLast?_approach (h : first ≤ last) : (approach last first).getLast? = some last := by
  fun_induction approach last first with
  | case1 first ih =>
    split
    · have hlast := ih ‹_› (by omega)
      rw [List.getLast?_cons, hlast]
      rfl
    · rw [show first = last by omega]
      rfl

theorem last_mem_approach (h : first ≤ last) : last ∈ approach last first := List.mem_of_getLast? (getLast?_approach h)

theorem first_mem_approach : first ∈ approach last first := by
  rw [approach]
  exact List.mem_cons_self

/-- The loop stops with the positions that are not above the bound. -/
theorem approachUpTo_eq (hp : p ≤ bound) (hbound : bound ≤ last) (hrounds : bound ≤ p + rounds) :
    approachUpTo last bound rounds p = (approach last p).filter (· ≤ bound) := by
  induction rounds generalizing p with
  | zero =>
    obtain rfl : p = bound := by omega
    have hnone : ∀ r ∈ (if p < last then approach last (p + (last - p + 2) / 2) else []), ¬r ≤ p := by
      intro r hr
      split at hr
      · have := first_le hr
        omega
      · cases hr
    rw [approachUpTo, approach, List.filter_cons_of_pos (by simp), List.filter_eq_nil_iff.mpr fun r hr => by simpa using hnone r hr]
  | succ rounds ih =>
    rw [approachUpTo, approach, List.filter_cons_of_pos (by simpa using hp)]
    congr 1
    by_cases hlt : p < last
    · rw [if_pos hlt]
      by_cases hnext : p + (last - p + 2) / 2 ≤ bound
      · rw [if_pos hnext, ih hnext (by omega)]
      · rw [if_neg hnext, eq_comm, List.filter_eq_nil_iff]
        intro r hr
        have := first_le hr
        simpa using by omega
    · rw [if_neg hlt, if_neg (by omega)]
      rfl

theorem approachUpTo_last (h : first ≤ last) (hrounds : last ≤ first + rounds) :
    approachUpTo last last rounds first = approach last first := by
  rw [approachUpTo_eq h le_rfl hrounds, List.filter_eq_self]
  intro p hp
  simpa using le_last h hp

/-- In an increasing list what is not above a bound comes first. -/
theorem filter_append_filter {l : List Nat} (h : l.Pairwise (· < ·)) : l.filter (· ≤ bound) ++ l.filter (bound + 1 ≤ ·) = l := by
  induction l with
  | nil => rfl
  | cons a l ih =>
    obtain ⟨ha, hl⟩ := List.pairwise_cons.mp h
    by_cases hle : a ≤ bound
    · rw [List.filter_cons_of_pos (by simpa using hle), List.filter_cons_of_neg (by simpa using by omega), List.cons_append, ih hl]
    · have hnone : l.filter (· ≤ bound) = [] := List.filter_eq_nil_iff.mpr fun r hr => by
        have := ha r hr
        simpa using by omega
      have hall : l.filter (bound + 1 ≤ ·) = l := List.filter_eq_self.mpr fun r hr => by
        have := ha r hr
        simpa using by omega
      rw [List.filter_cons_of_neg (by simpa using hle), List.filter_cons_of_pos (by simpa using by omega), hnone, hall, List.nil_append]

end

end Khc.Lib
