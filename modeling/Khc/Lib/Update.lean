import Mathlib.Algebra.BigOperators.Group.List.Basic
import Mathlib.Data.List.Nodup
import Mathlib.Tactic.Abel

/-! Updates of a list that holds the rows of a table: of the row at a place, of the rows with a key, and loops of
    such updates. What they do to the rows that a predicate selects and to sums over them is proved here once. -/

namespace Khc.Lib

variable {α β κ : Type}

/-- The rows with the key are changed. -/
def updateKey [DecidableEq κ] (key : α → κ) (k : κ) (f : α → α) (l : List α) : List α :=
  l.map fun x => if key x = k then f x else x

/-! ### One row -/

section Key
variable [DecidableEq κ] {key : α → κ} {k : κ} {f : α → α} {l : List α}

/-- A column that the change leaves alone is left alone. -/
theorem map_updateKey {g : α → β} (hg : ∀ x, g (f x) = g x) : (updateKey key k f l).map g = l.map g := by
  unfold updateKey
  rw [List.map_map]
  refine List.map_congr_left fun x _ => ?_
  simp only [Function.comp_apply]
  split
  · exact hg x
  · rfl

/-- Selecting rows by what the change leaves alone commutes with it. -/
theorem filter_updateKey {p : α → Bool} (hp : ∀ x, p (f x) = p x) :
    (updateKey key k f l).filter p = updateKey key k f (l.filter p) := by
  unfold updateKey
  rw [List.filter_map]
  congr 2
  funext x
  simp only [Function.comp_apply]
  split
  · exact hp x
  · rfl

/-- Without a row of the key nothing changes. -/
theorem updateKey_of_notMem (h : k ∉ l.map key) : updateKey key k f l = l := by
  unfold updateKey
  conv_rhs => rw [← List.map_id l]
  refine List.map_congr_left fun x hx => if_neg fun hk => h ?_
  exact hk ▸ List.mem_map_of_mem hx

/-- A property that the change keeps holds of all rows after it. -/
theorem forall_mem_updateKey {P : α → Prop} (hf : ∀ x, P x → P (f x)) (h : ∀ x ∈ l, P x) :
    ∀ x ∈ updateKey key k f l, P x := by
  intro x hx
  obtain ⟨y, hy, rfl⟩ := List.mem_map.mp hx
  split
  · exact hf y (h y hy)
  · exact h y hy

end Key

/-! ### Loops -/

section Loop
variable [DecidableEq κ] {key : α → κ}

/-- A loop that marks the rows of its keys marks each of them, in any order and however often. -/
theorem foldl_updateKey {f : α → α} (hkey : ∀ x, key (f x) = key x) (hf : ∀ x, f (f x) = f x) (ks : List κ)
    (l : List α) :
    ks.foldl (fun l k => updateKey key k f l) l = l.map fun x => if key x ∈ ks then f x else x := by
  induction ks generalizing l with
  | nil => simp
  | cons k ks ih =>
    rw [List.foldl_cons, ih, updateKey, List.map_map]
    refine List.map_congr_left fun x _ => ?_
    simp only [Function.comp_apply, List.mem_cons]
    by_cases hk : key x = k
    · rw [if_pos hk, hkey, hf, ite_self, if_pos (.inl hk)]
    · rw [if_neg hk]
      simp [hk]

/-- The loop that pairs rows with values: a row of another key is out of its reach. -/
theorem foldl_updateKey_zip_cons {g : α → β → α} {xs : List α} {bs : List β} {y : α} {l : List α}
    (hy : key y ∉ xs.map key) :
    (xs.zip bs).foldl (fun l s => updateKey key (key s.1) (g · s.2) l) (y :: l) =
      y :: (xs.zip bs).foldl (fun l s => updateKey key (key s.1) (g · s.2) l) l := by
  induction xs generalizing bs l with
  | nil => rfl
  | cons x xs ih =>
    cases bs with
    | nil => rfl
    | cons b bs =>
      rw [List.map_cons, List.mem_cons, not_or] at hy
      rw [List.zip_cons_cons, List.foldl_cons, List.foldl_cons, ← ih hy.2]
      simp [updateKey, hy.1]

/-- The loop that pairs the rows with values gives each row its value, when keys are unique. -/
theorem foldl_updateKey_zip {g : α → β → α} (hkey : ∀ x b, key (g x b) = key x) {l : List α} {bs : List β}
    (hl : (l.map key).Nodup) (hlen : bs.length = l.length) :
    (l.zip bs).foldl (fun l s => updateKey key (key s.1) (g · s.2) l) l = List.zipWith g l bs := by
  induction l generalizing bs with
  | nil => simp
  | cons x xs ih =>
    cases bs with
    | nil => simp at hlen
    | cons b bs =>
      rw [List.map_cons, List.nodup_cons] at hl
      have htail : updateKey key (key x) (g · b) xs = xs := updateKey_of_notMem hl.1
      have hhead : updateKey key (key x) (g · b) (x :: xs) = g x b :: xs := by
        conv_rhs => rw [← htail]
        simp [updateKey]
      have hout : key (g x b) ∉ xs.map key := by
        rw [hkey]
        exact hl.1
      rw [List.zip_cons_cons, List.foldl_cons, hhead, foldl_updateKey_zip_cons hout, ih hl.2 (by simpa using hlen),
        List.zipWith_cons_cons]

/-- A loop of steps that each commute with a selection commutes with it. -/
theorem foldl_filter {ι : Type} {step : List α → ι → List α} {p : α → Bool}
    (h : ∀ l i, (step l i).filter p = step (l.filter p) i) (is : List ι) (l : List α) :
    (is.foldl step l).filter p = is.foldl step (l.filter p) := by
  induction is generalizing l with
  | nil => rfl
  | cons i is ih => rw [List.foldl_cons, List.foldl_cons, ih, h]

/-- A loop none of whose steps changes the list. -/
theorem foldl_fixed_mem {ι : Type} {step : List α → ι → List α} {l : List α} {is : List ι} (h : ∀ i ∈ is, step l i = l) :
    is.foldl step l = l := by
  induction is with
  | nil => rfl
  | cons i is ih =>
    rw [List.foldl_cons, h i List.mem_cons_self]
    exact ih fun j hj => h j (List.mem_cons_of_mem _ hj)

/-- Marking the rows whose key is one of the selected rows' marks the selected rows, when keys are unique. -/
theorem map_mark_keys {p : α → Bool} {f : α → α} {l : List α} (hl : (l.map key).Nodup) :
    (l.map fun x => if key x ∈ (l.filter p).map key then f x else x) = l.map fun x => if p x then f x else x := by
  refine List.map_congr_left fun x hx => ?_
  have hiff : key x ∈ (l.filter p).map key ↔ p x = true := by
    constructor
    · intro hk
      obtain ⟨y, hy, hkey⟩ := List.mem_map.mp hk
      obtain ⟨hyl, hp⟩ := List.mem_filter.mp hy
      rwa [← List.inj_on_of_nodup_map hl hyl hx hkey]
    · exact fun hp => List.mem_map_of_mem (List.mem_filter.mpr ⟨hx, hp⟩)
  simp only [hiff]

/-- Selecting by what a mark leaves alone commutes with it. -/
theorem filter_mark {p q : α → Bool} {f : α → α} (hp : ∀ x, p (f x) = p x) (l : List α) :
    (l.map fun x => if q x then f x else x).filter p = (l.filter p).map fun x => if q x then f x else x := by
  rw [List.filter_map]
  congr 2
  funext x
  simp only [Function.comp_apply]
  split
  · exact hp x
  · rfl

/-- A loop of steps that each leave a column alone leaves it alone. -/
theorem foldl_column {ι : Type} {step : List α → ι → List α} {w : α → β} (h : ∀ l i, (step l i).map w = l.map w)
    (is : List ι) (l : List α) : (is.foldl step l).map w = l.map w := by
  induction is generalizing l with
  | nil => rfl
  | cons i is ih => rw [List.foldl_cons, ih, h]

/-- Marking some rows leaves a column alone that the mark leaves alone. -/
theorem map_mark {p : α → Prop} [DecidablePred p] {f : α → α} {w : α → β} (h : ∀ x, w (f x) = w x) (l : List α) :
    (l.map fun x => if p x then f x else x).map w = l.map w := by
  rw [List.map_map]
  refine List.map_congr_left fun x _ => ?_
  simp only [Function.comp_apply]
  split
  · exact h x
  · rfl

end Loop

/-! ### Sums -/

/-- A sum over the selected rows, as a sum over all rows. -/
theorem sum_map_filter {M : Type} [AddCommMonoid M] (p : α → Bool) (w : α → M) (l : List α) :
    ((l.filter p).map w).sum = (l.map fun x => if p x then w x else 0).sum := by
  induction l with
  | nil => rfl
  | cons x xs ih =>
    rw [List.filter_cons, List.map_cons, List.sum_cons, ← ih]
    split <;> simp_all

/-- A sum after the change of one row. -/
theorem sum_map_modify {M : Type} [AddCommGroup M] (w : α → M) (f : α → α) {l : List α} {i : Nat} {x : α}
    (h : l[i]? = some x) : ((l.modify i f).map w).sum = (l.map w).sum + (w (f x) - w x) := by
  induction l generalizing i with
  | nil => simp at h
  | cons y ys ih =>
    cases i with
    | zero =>
      obtain rfl : y = x := by simpa using h
      simp [add_left_comm, sub_eq_add_neg]
    | succ i =>
      simp only [List.modify_succ_cons, List.map_cons, List.sum_cons, ih (by simpa using h), add_assoc]

/-- A sum after a mark on some of the rows: each marked row counts for what the mark leaves of it. -/
theorem sum_map_mark {M : Type} [AddCommGroup M] (w v : α → M) (p : α → Bool) (f : α → α)
    (h : ∀ x, p x → w (f x) = w x - v x) (l : List α) :
    ((l.map fun x => if p x then f x else x).map w).sum =
      (l.map w).sum - (l.map fun x => if p x then v x else 0).sum := by
  induction l with
  | nil => simp
  | cons x xs ih =>
    simp only [List.map_cons, List.sum_cons, ih]
    by_cases hx : p x
    · simp only [hx, if_true, h x hx]
      abel
    · simp only [hx, Bool.false_eq_true, if_false, zero_add]
      abel

/-- A sum of the values a loop has paired with the rows. -/
theorem sum_map_zipWith {M : Type} [AddCommMonoid M] {g : α → M → α} {w : α → M} (h : ∀ x b, w (g x b) = b) {l : List α}
    {bs : List M} (hlen : bs.length = l.length) : ((List.zipWith g l bs).map w).sum = bs.sum := by
  induction l generalizing bs with
  | nil => simp_all
  | cons x xs ih =>
    cases bs with
    | nil => simp at hlen
    | cons b bs => rw [List.zipWith_cons_cons, List.map_cons, List.sum_cons, List.sum_cons, h, ih (by simpa using hlen)]

/-- A column that the values do not matter to. -/
theorem map_zipWith_left {γ : Type} {g : α → β → α} {w : α → γ} (h : ∀ x b, w (g x b) = w x) {l : List α} {bs : List β}
    (hlen : bs.length = l.length) : (List.zipWith g l bs).map w = l.map w := by
  induction l generalizing bs with
  | nil => rfl
  | cons x xs ih =>
    cases bs with
    | nil => simp at hlen
    | cons b bs => rw [List.zipWith_cons_cons, List.map_cons, List.map_cons, h, ih (by simpa using hlen)]

end Khc.Lib
