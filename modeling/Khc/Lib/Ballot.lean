import Khc.Lib.Threshold

/-! Weighted ballots: their histogram, the median that is found in it, and what a majority gets. -/

namespace Khc.Lib

variable {β : Type} {half total k m n : Nat} {l : List Nat} {es : List β} {b : β} {weight wish : β → Nat} {p q : β → Prop}

/-! ### Histograms -/

theorem getD_modify {i : Nat} : (l.modify i (· + n)).getD k 0 = l.getD k 0 + if k = i ∧ k < l.length then n else 0 := by
  rw [List.getD_eq_getElem?_getD, List.getD_eq_getElem?_getD, List.getElem?_modify]
  rcases Nat.lt_or_ge k l.length with hk | hk
  · rw [List.getElem?_eq_getElem hk]
    by_cases hi : i = k
    · simp [hi, hk]
    · simp [hi, Ne.symm hi]
  · rw [List.getElem?_eq_none hk, if_neg fun h => absurd h.2 (Nat.not_lt.mpr hk)]
    rfl

theorem length_foldl_modify {offsets : List Nat} : (offsets.foldl (fun l i => l.modify i (· + n)) l).length = l.length := by
  induction offsets generalizing l with
  | nil => rfl
  | cons i offsets ih => rw [List.foldl_cons, ih, List.length_modify]

/-- What is added at some places -/
theorem getD_foldl_modify {offsets : List Nat} (h : offsets.Nodup) :
    (offsets.foldl (fun l i => l.modify i (· + n)) l).getD k 0 = l.getD k 0 + if k ∈ offsets ∧ k < l.length then n else 0 := by
  induction offsets generalizing l with
  | nil => simp
  | cons i offsets ih =>
    obtain ⟨hi, hoffsets⟩ := List.nodup_cons.mp h
    rw [List.foldl_cons, ih hoffsets, getD_modify, List.length_modify, Nat.add_assoc]
    by_cases hk : k = i
    · subst hk
      simp [hi]
    · simp [hk]

theorem sum_take_modify {i : Nat} (hi : i < l.length) : ((l.modify i (· + n)).take k).sum = (l.take k).sum + if i < k then n else 0 := by
  induction l generalizing i k with
  | nil => cases hi
  | cons m l ih =>
    cases k with
    | zero => simp
    | succ k =>
      cases i with
      | zero =>
        rw [List.modify_zero_cons, List.take_succ_cons, List.take_succ_cons, List.sum_cons, List.sum_cons, if_pos (Nat.zero_lt_succ k)]
        exact Nat.add_right_comm ..
      | succ i =>
        rw [List.modify_succ_cons, List.take_succ_cons, List.take_succ_cons, List.sum_cons, List.sum_cons, ih (Nat.lt_of_succ_lt_succ hi),
          Nat.add_assoc]
        simp only [Nat.add_lt_add_iff_right]

/-- How many entries are passed until more than half has been counted -/
def crossing (half : Nat) : List Nat → Nat → Nat
  | [], _ => 0
  | n :: l, total => if total ≤ half then crossing half l (total + n) + 1 else 0

theorem crossing_le_length : crossing half l total ≤ l.length := by
  induction l generalizing total with
  | nil => exact le_rfl
  | cons n l ih =>
    rw [crossing]
    split
    · exact Nat.succ_le_succ ih
    · exact Nat.zero_le _

/-- Before the crossing there is not more than half. -/
theorem le_half_of_lt_crossing (h : k < crossing half l total) : total + (l.take k).sum ≤ half := by
  induction l generalizing total k with
  | nil => cases h
  | cons n l ih =>
    rw [crossing] at h
    split at h
    · next hle =>
      cases k with
      | zero => simpa using hle
      | succ k =>
        rw [List.take_succ_cons, List.sum_cons, ← Nat.add_assoc]
        exact ih (Nat.lt_of_succ_lt_succ h)
    · cases h

/-- At the crossing there is more, unless the entries have come to an end. -/
theorem half_lt_of_crossing (h : crossing half l total < l.length) : half < total + (l.take (crossing half l total)).sum := by
  induction l generalizing total with
  | nil => cases h
  | cons n l ih =>
    rw [crossing] at h ⊢
    split at h
    · next hle =>
      rw [if_pos hle, List.take_succ_cons, List.sum_cons, ← Nat.add_assoc]
      exact ih (Nat.lt_of_succ_lt_succ h)
    · next hgt =>
      rw [if_neg hgt, List.take_zero, List.sum_nil, Nat.add_zero]
      exact Nat.lt_of_not_le hgt

/-! ### The weighted median -/

/-- No more than half of the weight wishes less, and more than half wishes no more. -/
structure IsWeightedMedian (weight wish : β → Nat) (es : List β) (k : Nat) : Prop where
  less_le : 2 * weightSum weight (wish · < k) es ≤ (es.map weight).sum
  lt_most : (es.map weight).sum < 2 * weightSum weight (wish · ≤ k) es

/-- The histogram of the wishes is crossed at their median. -/
theorem isWeightedMedian_crossing (hlength : l.length = m) (hwish : ∀ e ∈ es, wish e ≤ m)
    (hsum : ∀ k < m, (l.take k).sum = weightSum weight (wish · ≤ k) es) (hpos : 0 < (es.map weight).sum) :
    IsWeightedMedian weight wish es (crossing ((es.map weight).sum / 2) l 0) := by
  have hle : crossing ((es.map weight).sum / 2) l 0 ≤ l.length := crossing_le_length
  generalize hk : crossing ((es.map weight).sum / 2) l 0 = k at hle
  constructor
  · cases k with
    | zero =>
      rw [weightSum_eq_zero fun e _ => Nat.not_lt_zero _]
      exact Nat.zero_le _
    | succ k =>
      have hbefore := le_half_of_lt_crossing (hk ▸ Nat.lt_succ_self k : k < crossing ((es.map weight).sum / 2) l 0)
      rw [Nat.zero_add, hsum k (by omega)] at hbefore
      have hcongr : weightSum weight (wish · < k + 1) es = weightSum weight (wish · ≤ k) es :=
        weightSum_congr fun e _ => Nat.lt_succ_iff
      omega
  · rcases hle.lt_or_eq with hlt | heq
    · have hafter := half_lt_of_crossing (hk ▸ hlt : crossing ((es.map weight).sum / 2) l 0 < l.length)
      rw [hk, Nat.zero_add, hsum k (hlength ▸ hlt)] at hafter
      omega
    · have hall : weightSum weight (wish · ≤ k) es = (es.map weight).sum := by
        rw [← weightSum_true]
        exact weightSum_congr fun e he => iff_true_intro ((hwish e he).trans (by omega))
      omega

theorem weightSum_concat [Decidable (p b)] : weightSum weight p (es ++ [b]) = weightSum weight p es + if p b then weight b else 0 := by
  rw [weightSum_append]
  split
  · next hp => rw [weightSum_cons_of_pos hp, weightSum_nil, Nat.add_zero]
  · next hp => rw [weightSum_cons_of_neg hp, weightSum_nil]

theorem weightSum_and_add : weightSum weight p es = weightSum weight (fun b => q b ∧ p b) es + weightSum weight (fun b => ¬q b ∧ p b) es := by
  induction es with
  | nil => rfl
  | cons b es ih =>
    by_cases hp : p b
    · by_cases hq : q b
      · rw [weightSum_cons_of_pos hp, weightSum_cons_of_pos ⟨hq, hp⟩, weightSum_cons_of_neg fun h => h.1 hq, ih, Nat.add_assoc]
      · rw [weightSum_cons_of_pos hp, weightSum_cons_of_neg fun h => hq h.1, weightSum_cons_of_pos ⟨hq, hp⟩, ih]
        exact Nat.add_left_comm ..
    · rw [weightSum_cons_of_neg hp, weightSum_cons_of_neg fun h => hp h.2, weightSum_cons_of_neg fun h => hp h.2, ih]

theorem weightSum_add_not : weightSum weight p es + weightSum weight (¬p ·) es = (es.map weight).sum := by
  rw [← weightSum_true, weightSum_and_add (p := fun _ => True) (q := p)]
  simp only [and_true]

theorem weightSum_filter [DecidablePred q] : weightSum weight p (es.filter q) = weightSum weight (fun b => q b ∧ p b) es := by
  induction es with
  | nil => rfl
  | cons b es ih =>
    by_cases hq : q b
    · rw [List.filter_cons, if_pos (decide_eq_true hq)]
      by_cases hp : p b
      · rw [weightSum_cons_of_pos hp, weightSum_cons_of_pos ⟨hq, hp⟩, ih]
      · rw [weightSum_cons_of_neg hp, weightSum_cons_of_neg fun h => hp h.2, ih]
    · rw [List.filter_cons, if_neg (by simpa using hq), weightSum_cons_of_neg fun h => hq h.1, ih]

/-- What more than half of the weight wishes is the median. -/
theorem IsWeightedMedian.eq_of_majority (h : IsWeightedMedian weight wish es k)
    (hmajority : (es.map weight).sum < 2 * weightSum weight (wish · = n) es) : k = n := by
  have hnot : weightSum weight (wish · = n) es + weightSum weight (¬wish · = n) es = (es.map weight).sum := weightSum_add_not
  rcases Nat.lt_trichotomy k n with hlt | heq | hgt
  · have hmono : weightSum weight (wish · ≤ k) es ≤ weightSum weight (¬wish · = n) es := weightSum_mono fun b _ hle heq => by omega
    have hmost := h.lt_most
    omega
  · exact heq
  · have hmono : weightSum weight (wish · = n) es ≤ weightSum weight (wish · < k) es := weightSum_mono fun b _ heq => by omega
    have hless := h.less_le
    omega

end Khc.Lib
