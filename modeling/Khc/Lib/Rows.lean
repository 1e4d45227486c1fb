import Mathlib.Algebra.BigOperators.Group.List.Basic
import Mathlib.Data.List.Forall2
import Mathlib.Data.List.Nodup
import Mathlib.Data.List.Sort
import Mathlib.Order.Defs.LinearOrder
import Mathlib.Tactic.Abel

/-! Tables kept as lists of rows: the first row that a predicate selects is changed or taken out. What this does to
    sums over the rows, to their keys and to what is found later; and views of a table in the order of a key. -/

namespace Khc.Lib

variable {α β κ : Type}

/-- The first row that the predicate selects is changed. -/
def updateFirst (p : α → Bool) (f : α → α) : List α → List α
  | [] => []
  | x :: xs => if p x then f x :: xs else x :: updateFirst p f xs

section
variable {p : α → Bool} {f : α → α} {l : List α} {x y : α}

theorem sum_map_updateFirst {M : Type} [AddCommGroup M] (w : α → M) (h : l.find? p = some x) :
    ((updateFirst p f l).map w).sum = (l.map w).sum + (w (f x) - w x) := by
  induction l with
  | nil => cases h
  | cons y ys ih =>
    by_cases hy : p y
    · obtain rfl : y = x := by simpa [hy] using h
      simp only [updateFirst, hy, if_true, List.map_cons, List.sum_cons]
      abel
    · have hys : ys.find? p = some x := by simpa [hy] using h
      simp only [updateFirst, hy, Bool.false_eq_true, if_false, List.map_cons, List.sum_cons, ih hys]
      abel

theorem perm_eraseP (h : l.find? p = some x) : l.Perm (x :: l.eraseP p) := by
  obtain ⟨hp, before, after, rfl, hbefore⟩ := List.find?_eq_some_iff_append.mp h
  rw [List.eraseP_append_right _ (by simpa using hbefore), List.eraseP_cons_of_pos hp]
  exact List.perm_middle

theorem sum_map_eraseP {M : Type} [AddCommGroup M] (w : α → M) (h : l.find? p = some x) :
    ((l.eraseP p).map w).sum = (l.map w).sum - w x := by
  induction l with
  | nil => cases h
  | cons y ys ih =>
    by_cases hy : p y
    · obtain rfl : y = x := by simpa [hy] using h
      simp [hy]
    · have hys : ys.find? p = some x := by simpa [hy] using h
      simp only [List.eraseP_cons, hy, cond_false, List.map_cons, List.sum_cons, ih hys]
      abel

theorem sum_map_set {M : Type} [AddCommGroup M] (w : α → M) {i : Nat} (h : l[i]? = some x) :
    ((l.set i y).map w).sum = (l.map w).sum + (w y - w x) := by
  induction l generalizing i with
  | nil => cases h
  | cons z zs ih =>
    cases i with
    | zero =>
      obtain rfl : z = x := by simpa using h
      simp only [List.set_cons_zero, List.map_cons, List.sum_cons]
      abel
    | succ i =>
      simp only [List.set_cons_succ, List.map_cons, List.sum_cons, ih (by simpa using h)]
      abel

/-- The rows after the change are the rows before it, but for the changed one. -/
theorem mem_updateFirst (h : y ∈ updateFirst p f l) : y ∈ l ∨ ∃ x, l.find? p = some x ∧ y = f x := by
  induction l with
  | nil => cases h
  | cons z zs ih =>
    by_cases hz : p z
    · simp only [updateFirst, hz, if_true, List.mem_cons] at h
      rcases h with rfl | h
      · exact .inr ⟨z, by simp [hz], rfl⟩
      · exact .inl (List.mem_cons_of_mem _ h)
    · simp only [updateFirst, hz, Bool.false_eq_true, if_false, List.mem_cons] at h
      rcases h with rfl | h
      · exact .inl List.mem_cons_self
      · rcases ih h with h | ⟨x, hx, rfl⟩
        · exact .inl (List.mem_cons_of_mem _ h)
        · exact .inr ⟨x, by simpa [hz] using hx, rfl⟩

/-- A column that the change leaves alone. -/
theorem map_updateFirst {g : α → β} (hg : ∀ x, p x → g (f x) = g x) : (updateFirst p f l).map g = l.map g := by
  induction l with
  | nil => rfl
  | cons y ys ih =>
    by_cases hy : p y
    · simp [updateFirst, hy, hg y hy]
    · simp [updateFirst, hy, ih]

@[simp] theorem length_updateFirst : (updateFirst p f l).length = l.length := by
  simpa using congrArg List.length (map_updateFirst (f := f) (g := fun _ => ()) (l := l) fun x (_ : p x) => rfl)

end

/-! ### Rows with keys -/

section
variable [DecidableEq κ] {key : α → κ} {k : κ} {l : List α} {x y : α} {f : α → α}

/-- With unique keys, the row found under a key is the only one with the key. -/
theorem eq_of_find?_key (hl : (l.map key).Nodup) (h : l.find? (key · = k) = some x) (hy : y ∈ l) (hk : key y = k) :
    y = x := by
  have hx : key x = k := by simpa using List.find?_some h
  exact List.inj_on_of_nodup_map hl hy (List.mem_of_find?_eq_some h) (hk.trans hx.symm)

theorem find?_key_of_mem (hl : (l.map key).Nodup) (hy : y ∈ l) : l.find? (key · = key y) = some y := by
  cases h : l.find? (key · = key y) with
  | none => simpa using List.find?_eq_none.mp h y hy
  | some x => rw [eq_of_find?_key hl h hy rfl]

/-- With unique keys, the key that was taken out is gone. -/
theorem notMem_eraseP_key (hl : (l.map key).Nodup) : ∀ y ∈ l.eraseP (key · = k), key y ≠ k := by
  induction l with
  | nil => simp
  | cons z zs ih =>
    rw [List.map_cons, List.nodup_cons] at hl
    intro y hy hk
    by_cases hz : key z = k
    · simp only [List.eraseP_cons, hz, decide_true, cond_true] at hy
      exact hl.1 (List.mem_map.mpr ⟨y, hy, hk.trans hz.symm⟩)
    · simp only [List.eraseP_cons, hz, decide_false, cond_false, List.mem_cons] at hy
      rcases hy with rfl | hy
      · exact hz hk
      · exact ih hl.2 y hy hk

omit [DecidableEq κ] in
theorem nodup_eraseP {p : α → Bool} (hl : (l.map key).Nodup) : ((l.eraseP p).map key).Nodup :=
  hl.sublist (List.eraseP_sublist.map key)

/-- The row under the key after its change. -/
theorem find?_updateFirst_key (hf : ∀ x, key x = k → key (f x) = k) :
    (updateFirst (key · = k) f l).find? (key · = k) = (l.find? (key · = k)).map f := by
  induction l with
  | nil => rfl
  | cons y ys ih =>
    by_cases hy : key y = k
    · simp [updateFirst, hy, hf y hy]
    · simp [updateFirst, hy, ih]

/-- With unique keys, what is taken out is what has the key. -/
theorem eraseP_key_eq_filter (hl : (l.map key).Nodup) : l.eraseP (key · = k) = l.filter (key · ≠ k) := by
  induction l with
  | nil => rfl
  | cons y ys ih =>
    rw [List.map_cons, List.nodup_cons] at hl
    by_cases hy : key y = k
    · have hall : ys.filter (key · ≠ k) = ys := by
        rw [List.filter_eq_self]
        intro z hz
        simpa using fun hzk => hl.1 (List.mem_map.mpr ⟨z, hz, hzk.trans hy.symm⟩)
      rw [List.eraseP_cons_of_pos (by simpa using hy), List.filter_cons_of_neg (by simpa using hy), hall]
    · rw [List.eraseP_cons_of_neg (by simpa using hy), List.filter_cons_of_pos (by simpa using hy), ih hl.2]

/-- Taking out what was changed is taking it out. -/
theorem eraseP_updateFirst_key (hf : ∀ x, key x = k → key (f x) = k) :
    (updateFirst (key · = k) f l).eraseP (key · = k) = l.eraseP (key · = k) := by
  induction l with
  | nil => rfl
  | cons y ys ih =>
    by_cases hy : key y = k
    · simp [updateFirst, hy, hf y hy]
    · simp [updateFirst, hy, ih]

theorem find?_eraseP_key_ne {j : κ} (hj : j ≠ k) : (l.eraseP (key · = k)).find? (key · = j) = l.find? (key · = j) := by
  induction l with
  | nil => rfl
  | cons y ys ih =>
    by_cases hy : key y = k
    · simp [hy, Ne.symm hj]
    · by_cases hyj : key y = j
      · simp [hyj, hj]
      · simp [hy, hyj, ih]

theorem find?_updateFirst_key_ne {j : κ} (hj : j ≠ k) (hf : ∀ x, key x = k → key (f x) = k) :
    (updateFirst (key · = k) f l).find? (key · = j) = l.find? (key · = j) := by
  induction l with
  | nil => rfl
  | cons y ys ih =>
    by_cases hy : key y = k
    · simp [updateFirst, hy, hf y hy, Ne.symm hj]
    · rw [updateFirst, if_neg (by simpa using hy), List.find?_cons, List.find?_cons, ih]

end

/-! ### Numbered rows -/

/-- The numbers of the rows are below the next one, and no two are the same. -/
structure Numbered (key : α → Nat) (next : Nat) (l : List α) : Prop where
  nodup : (l.map key).Nodup
  lt : ∀ x ∈ l, key x < next

section
variable {key : α → Nat} {next : Nat} {l : List α} {x y : α}

theorem Numbered.nil : Numbered key next [] := ⟨List.nodup_nil, by simp⟩

theorem Numbered.find?_of_mem (h : Numbered key next l) (hx : x ∈ l) : l.find? (key · = key x) = some x :=
  find?_key_of_mem h.nodup hx

/-- A new row gets the next number. -/
theorem Numbered.snoc (h : Numbered key next l) (hx : key x = next) : Numbered key (next + 1) (l ++ [x]) where
  nodup := by
    rw [List.map_append, List.map_cons, List.map_nil, List.nodup_append_comm, List.singleton_append, List.nodup_cons]
    refine ⟨fun hmem => ?_, h.nodup⟩
    obtain ⟨y, hy, hyx⟩ := List.mem_map.mp hmem
    have := h.lt y hy
    omega
  lt y hy := by
    rcases List.mem_append.mp hy with hy | hy
    · exact Nat.lt_succ_of_lt (h.lt y hy)
    · rw [List.mem_singleton.mp hy, hx]
      exact Nat.lt_succ_self _

end

/-! ### Tables that only lose and change rows -/

section
variable {R : α → α → Prop} {l l' : List α} {p : α → Bool} {f : α → α} {x y : α}

theorem sublistForall₂_eraseP [Std.Refl R] : List.SublistForall₂ R (l.eraseP p) l :=
  (List.eraseP_sublist).sublistForall₂

theorem sublistForall₂_updateFirst [Std.Refl R] (h : l.find? p = some x) (hf : R (f x) x) :
    List.SublistForall₂ R (updateFirst p f l) l := by
  induction l with
  | nil => cases h
  | cons y ys ih =>
    by_cases hy : p y
    · obtain rfl : y = x := by simpa [hy] using h
      rw [updateFirst, if_pos hy]
      exact .cons hf (refl ys)
    · rw [updateFirst, if_neg hy]
      exact .cons (refl y) (ih (by simpa [hy] using h))

/-- What is left of a row comes from a row. -/
theorem exists_of_sublistForall₂ (h : List.SublistForall₂ R l' l) (hy : y ∈ l') : ∃ x ∈ l, R y x := by
  induction h with
  | nil => cases hy
  | cons hR _ ih =>
    rcases List.mem_cons.mp hy with rfl | hy
    · exact ⟨_, List.mem_cons_self, hR⟩
    · obtain ⟨x, hx, hR⟩ := ih hy
      exact ⟨x, List.mem_cons_of_mem _ hx, hR⟩
  | cons_right _ ih =>
    obtain ⟨x, hx, hR⟩ := ih hy
    exact ⟨x, List.mem_cons_of_mem _ hx, hR⟩

theorem map_sublist_of_sublistForall₂ {key : α → β} (hkey : ∀ y x, R y x → key y = key x)
    (h : List.SublistForall₂ R l' l) : (l'.map key).Sublist (l.map key) := by
  induction h with
  | nil => exact List.nil_sublist _
  | cons hR _ ih =>
    rw [List.map_cons, List.map_cons, hkey _ _ hR]
    exact ih.cons_cons _
  | cons_right _ ih => exact ih.cons _

theorem Numbered.thin {key : α → Nat} {next : Nat} (h : Numbered key next l) (hkey : ∀ y x, R y x → key y = key x)
    (hl : List.SublistForall₂ R l' l) : Numbered key next l' where
  nodup := h.nodup.sublist (map_sublist_of_sublistForall₂ hkey hl)
  lt y hy := by
    obtain ⟨x, hx, hR⟩ := exists_of_sublistForall₂ hl hy
    exact (hkey y x hR) ▸ h.lt x hx

end

/-! ### Views in the order of a key -/

section
variable {r : α → α → Prop} [DecidableRel r] {κ : Type} [LinearOrder κ] {k : α → κ} {l : List α}

/-- A sort by a comparison that compares keys. -/
theorem pairwise_insertionSort_key (h : ∀ x ∈ l, ∀ y ∈ l, r x y ↔ k x ≤ k y) :
    (l.insertionSort r).Pairwise fun x y => k x ≤ k y := by
  rw [← List.pairwise_map, List.map_insertionSort r (· ≤ ·) k l h]
  exact List.pairwise_insertionSort _ _

end

end Khc.Lib
