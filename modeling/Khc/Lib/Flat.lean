import Khc.Lib.Rows
import Mathlib.Data.List.Dedup
import Mathlib.Data.List.Sort

/-! # Sets and maps that are kept as sorted vectors -/

/-! Sets that are kept as sorted vectors: the elements in order, none of them twice. -/

namespace Khc.Lib

/-- A `flat_set` -/
structure FlatSet (α : Type) [LinearOrder α] where
  elems : List α
  sorted : elems.Pairwise (· < ·)
  deriving DecidableEq

namespace FlatSet
variable {α : Type} [LinearOrder α]

/-- The elements of a list, inserted one after the other -/
def ofList (l : List α) : FlatSet α where
  elems := l.dedup.insertionSort (· ≤ ·)
  sorted := by
    have hnodup : (l.dedup.insertionSort (· ≤ ·)).Nodup := (List.perm_insertionSort _ _).nodup_iff.mpr l.nodup_dedup
    exact (List.pairwise_insertionSort (· ≤ ·) l.dedup).imp₂ (fun _ _ hle hne => lt_of_le_of_ne hle hne) hnodup

instance : Membership α (FlatSet α) := ⟨fun s x => x ∈ s.elems⟩

instance (x : α) (s : FlatSet α) : Decidable (x ∈ s) := inferInstanceAs (Decidable (x ∈ s.elems))

@[simp] theorem mem_ofList {l : List α} {x : α} : x ∈ ofList l ↔ x ∈ l :=
  (List.mem_insertionSort _).trans List.mem_dedup

/-- The set with the element -/
def insert (s : FlatSet α) (x : α) : FlatSet α := ofList (x :: s.elems)

@[simp] theorem mem_insert {s : FlatSet α} {x y : α} : y ∈ s.insert x ↔ y = x ∨ y ∈ s :=
  mem_ofList.trans List.mem_cons

/-- The union with the elements of the second set -/
def union (s t : FlatSet α) : FlatSet α := t.elems.foldl insert s

@[simp] theorem mem_union {s t : FlatSet α} {x : α} : x ∈ s.union t ↔ x ∈ s ∨ x ∈ t := by
  have hfold : ∀ (l : List α) (s : FlatSet α), x ∈ l.foldl insert s ↔ x ∈ s ∨ x ∈ l := by
    intro l
    induction l with
    | nil => simp
    | cons y l ih =>
      intro s
      rw [List.foldl_cons, ih, mem_insert, List.mem_cons]
      tauto
  exact hfold t.elems s

/-- The elements that are not in the second set -/
def diff (s t : FlatSet α) : FlatSet α where
  elems := s.elems.filter (· ∉ t)
  sorted := s.sorted.filter _

@[simp] theorem mem_diff {s t : FlatSet α} {x : α} : x ∈ s.diff t ↔ x ∈ s ∧ x ∉ t :=
  List.mem_filter.trans (and_congr_right fun _ => decide_eq_true_iff)

/-- Sets with the same elements are the same. -/
theorem ext {s t : FlatSet α} (h : ∀ x, x ∈ s ↔ x ∈ t) : s = t := by
  obtain ⟨l, hl⟩ := s
  obtain ⟨l', hl'⟩ := t
  have hperm : l.Perm l' := (List.perm_ext_iff_of_nodup (hl.imp ne_of_lt) (hl'.imp ne_of_lt)).mpr h
  obtain rfl := hperm.eq_of_pairwise (fun _ _ _ _ hxy hyx => absurd hxy hyx.asymm) hl hl'
  rfl

theorem nodup (s : FlatSet α) : s.elems.Nodup := s.sorted.imp ne_of_lt

end FlatSet

end Khc.Lib

/-! Maps that are kept as vectors of entries, sorted by their keys. -/

namespace Khc.Lib

/-- A `flat_map` or a `map` -/
structure FlatMap (κ β : Type) [LinearOrder κ] where
  entries : List (κ × β)
  sorted : entries.Pairwise (·.1 < ·.1)

namespace FlatMap
variable {κ β : Type} [LinearOrder κ] {m : FlatMap κ β} {es : List (κ × β)} {e : κ × β} {k k' : κ} {v v' : β}

/-- The entries after the value is written at the key -/
def put (k : κ) (v : β) : List (κ × β) → List (κ × β)
  | [] => [(k, v)]
  | e :: es => if k < e.1 then (k, v) :: e :: es else if k = e.1 then (k, v) :: es else e :: put k v es

theorem mem_put (h : es.Pairwise (·.1 < ·.1)) : e ∈ put k v es ↔ e = (k, v) ∨ e ∈ es ∧ e.1 ≠ k := by
  induction es with
  | nil => simp [put]
  | cons e₀ es ih =>
    obtain ⟨hfirst, hrest⟩ := List.pairwise_cons.mp h
    rw [put]
    split
    · rename_i hlt
      have hne : ∀ x ∈ e₀ :: es, x.1 ≠ k := by
        intro x hx
        rcases List.mem_cons.mp hx with rfl | hx
        · exact hlt.ne'
        · exact (hlt.trans (hfirst x hx)).ne'
      rw [List.mem_cons]
      exact or_congr_right ⟨fun hx => ⟨hx, hne e hx⟩, fun hx => hx.1⟩
    · split
      · rename_i heq
        rw [List.mem_cons, List.mem_cons]
        refine or_congr_right ⟨fun hx => ⟨.inr hx, heq ▸ (hfirst e hx).ne'⟩, ?_⟩
        rintro ⟨rfl | hx, hne⟩
        · exact absurd heq.symm hne
        · exact hx
      · rename_i hne
        rw [List.mem_cons, ih hrest, List.mem_cons]
        constructor
        · rintro (rfl | rfl | hx)
          · exact .inr ⟨.inl rfl, Ne.symm hne⟩
          · exact .inl rfl
          · exact .inr ⟨.inr hx.1, hx.2⟩
        · rintro (rfl | ⟨rfl | hx, hne'⟩)
          · exact .inr (.inl rfl)
          · exact .inl rfl
          · exact .inr (.inr ⟨hx, hne'⟩)

theorem sorted_put (h : es.Pairwise (·.1 < ·.1)) : (put k v es).Pairwise (·.1 < ·.1) := by
  induction es with
  | nil => exact List.pairwise_singleton _ _
  | cons e₀ es ih =>
    obtain ⟨hfirst, hrest⟩ := List.pairwise_cons.mp h
    rw [put]
    split
    · rename_i hlt
      refine List.pairwise_cons.mpr ⟨fun x hx => ?_, h⟩
      rcases List.mem_cons.mp hx with rfl | hx
      · exact hlt
      · exact hlt.trans (hfirst x hx)
    · rename_i hnot
      split
      · rename_i heq
        exact List.pairwise_cons.mpr ⟨fun x hx => heq ▸ hfirst x hx, hrest⟩
      · rename_i hne
        refine List.pairwise_cons.mpr ⟨fun x hx => ?_, ih hrest⟩
        rcases (mem_put hrest).mp hx with rfl | hx
        · exact lt_of_le_of_ne (not_lt.mp hnot) (Ne.symm hne)
        · exact hfirst x hx.1

/-- A new key is put among the others. -/
theorem put_perm (es : List (κ × β)) (k : κ) (v : β) (h : ∀ e ∈ es, e.1 ≠ k) : (put k v es).Perm ((k, v) :: es) := by
  induction es with
  | nil => exact .refl _
  | cons e₀ es ih =>
    rw [put]
    split
    · exact .refl _
    · rw [if_neg fun heq => h e₀ List.mem_cons_self heq.symm]
      exact ((ih fun e he => h e (.tail _ he)).cons e₀).trans (.swap _ _ _)

instance : EmptyCollection (FlatMap κ β) := ⟨⟨[], .nil⟩⟩

/-- `m[k] = v` -/
def set (m : FlatMap κ β) (k : κ) (v : β) : FlatMap κ β := ⟨put k v m.entries, sorted_put m.sorted⟩

def find? (m : FlatMap κ β) (k : κ) : Option β := (m.entries.find? (·.1 = k)).map Prod.snd

def keys (m : FlatMap κ β) : List κ := m.entries.map Prod.fst

theorem mem_set : e ∈ (m.set k v).entries ↔ e = (k, v) ∨ e ∈ m.entries ∧ e.1 ≠ k := mem_put m.sorted

theorem nodup_keys : m.keys.Nodup :=
  List.pairwise_map.mpr (m.sorted.imp ne_of_lt)

theorem find?_eq_some : m.find? k = some v ↔ (k, v) ∈ m.entries := by
  unfold find?
  constructor
  · intro h
    obtain ⟨e, he, rfl⟩ := Option.map_eq_some_iff.mp h
    have hk : e.1 = k := by simpa using List.find?_some he
    exact hk ▸ List.mem_of_find?_eq_some he
  · intro h
    rw [find?_key_of_mem nodup_keys h]
    rfl

/-- A key is among those of the entries that are selected if its own entry is. -/
theorem mem_map_filter {p : κ × β → Bool} (h : e ∈ m.entries) : e.1 ∈ (m.entries.filter p).map Prod.fst ↔ p e = true := by
  constructor
  · intro hk
    obtain ⟨e', he', heq⟩ := List.mem_map.mp hk
    obtain ⟨he', hp⟩ := List.mem_filter.mp he'
    exact List.inj_on_of_nodup_map nodup_keys he' h heq ▸ hp
  · exact fun hp => List.mem_map_of_mem (List.mem_filter.mpr ⟨h, hp⟩)

theorem mem_keys : k ∈ m.keys ↔ ∃ v, m.find? k = some v := by
  simp only [keys, List.mem_map, Prod.exists, find?_eq_some]
  exact ⟨fun ⟨_, v, h, hk⟩ => ⟨v, hk ▸ h⟩, fun ⟨v, h⟩ => ⟨k, v, h, rfl⟩⟩

theorem find?_eq_none : m.find? k = none ↔ k ∉ m.keys := by
  rw [mem_keys, Option.eq_none_iff_forall_ne_some, not_exists]

theorem find?_set_self : (m.set k v).find? k = some v := find?_eq_some.mpr (mem_set.mpr (.inl rfl))

theorem find?_set_of_ne (h : k' ≠ k) : (m.set k v).find? k' = m.find? k' := by
  refine Option.ext fun v' => ?_
  rw [find?_eq_some, find?_eq_some, mem_set]
  refine ⟨?_, fun hm => .inr ⟨hm, h⟩⟩
  rintro (heq | hm)
  · exact absurd (congrArg Prod.fst heq) h
  · exact hm.1

theorem mem_keys_set : k' ∈ (m.set k v).keys ↔ k' = k ∨ k' ∈ m.keys := by
  rw [mem_keys, mem_keys]
  by_cases h : k' = k
  · subst h
    rw [find?_set_self]
    exact ⟨fun _ => .inl rfl, fun _ => ⟨v, rfl⟩⟩
  · rw [find?_set_of_ne h]
    simp [h]

/-- What holds of all values holds of them once another such value is written. -/
theorem forall_set {P : β → Prop} (hv : P v) (h : ∀ e ∈ m.entries, P e.2) : ∀ e ∈ (m.set k v).entries, P e.2 := by
  intro e he
  rcases mem_set.mp he with rfl | ⟨he, -⟩
  · exact hv
  · exact h e he

/-- The map with all values changed -/
def mapValues (m : FlatMap κ β) (f : β → β) : FlatMap κ β where
  entries := m.entries.map fun e => (e.1, f e.2)
  sorted := List.pairwise_map.mpr m.sorted

/-- The entries whose keys are kept -/
def keep (m : FlatMap κ β) (p : κ → Bool) : FlatMap κ β where
  entries := m.entries.filter fun e => p e.1
  sorted := m.sorted.filter _

end FlatMap

end Khc.Lib
