import Mathlib.Data.Finmap

/-! Finite maps and lists of their entries: lookups after a list of entries is written or a list of keys is erased, and
    orders in which the entries are visited. -/

namespace Khc.Lib

variable {κ β : Type} [DecidableEq κ]

/-- The map after the entries are written to it, one after the other. -/
def write (l : List (Σ _ : κ, β)) (m : Finmap fun _ : κ => β) : Finmap fun _ : κ => β :=
  l.foldl (fun m e => m.insert e.1 e.2) m

/-- The map without the keys. -/
def eraseAll (ks : List κ) (m : Finmap fun _ : κ => β) : Finmap fun _ : κ => β := ks.foldl (fun m k => m.erase k) m

section
variable {m : Finmap fun _ : κ => β} {l : List (Σ _ : κ, β)} {ks : List κ} {k : κ} {v : β}

theorem any_eq_true {p : κ → β → Bool} : m.any p = true ↔ ∃ k v, m.lookup k = some v ∧ p k v = true := by
  induction m using Finmap.induction_on with
  | H a =>
    have hany : ∀ (l : List (Σ _ : κ, β)) (b : Bool),
        l.foldl (fun x s => x || p s.1 s.2) b = true ↔ b = true ∨ ∃ s ∈ l, p s.1 s.2 = true := by
      intro l
      induction l with
      | nil => simp
      | cons s l ih => intro b; simp [ih, or_assoc]
    have hfold : Finmap.any p a.toFinmap = a.entries.foldl (fun x s => x || p s.1 s.2) false := rfl
    rw [hfold, hany]
    constructor
    · rintro (h | ⟨⟨k, v⟩, hs, hp⟩)
      · cases h
      · exact ⟨k, v, AList.mem_lookup_iff.mpr hs, hp⟩
    · rintro ⟨k, v, hk, hp⟩
      exact .inr ⟨⟨k, v⟩, AList.mem_lookup_iff.mp hk, hp⟩

theorem lookup_write_of_notMem (h : k ∉ l.map Sigma.fst) : (write l m).lookup k = m.lookup k := by
  induction l generalizing m with
  | nil => rfl
  | cons e l ih =>
    rw [List.map_cons, List.mem_cons, not_or] at h
    rw [write, List.foldl_cons, ← write, ih h.2, Finmap.lookup_insert_of_ne _ h.1]

theorem lookup_write_of_mem (hl : (l.map Sigma.fst).Nodup) (h : ⟨k, v⟩ ∈ l) : (write l m).lookup k = some v := by
  induction l generalizing m with
  | nil => cases h
  | cons e l ih =>
    rw [List.map_cons, List.nodup_cons] at hl
    rw [write, List.foldl_cons, ← write]
    rcases List.mem_cons.mp h with rfl | h
    · rw [lookup_write_of_notMem hl.1, Finmap.lookup_insert]
    · exact ih hl.2 h

theorem lookup_eraseAll_of_mem (h : k ∈ ks) : (eraseAll ks m).lookup k = none := by
  induction ks using List.reverseRecOn with
  | nil => cases h
  | append_singleton ks k' ih =>
    rw [eraseAll, List.foldl_append, List.foldl_cons, List.foldl_nil, ← eraseAll]
    by_cases hk : k = k'
    · rw [hk, Finmap.lookup_erase]
    · rw [Finmap.lookup_erase_ne hk]
      refine ih ((List.mem_append.mp h).resolve_right fun h => hk (List.mem_singleton.mp h))

theorem lookup_eraseAll_of_notMem (h : k ∉ ks) : (eraseAll ks m).lookup k = m.lookup k := by
  induction ks generalizing m with
  | nil => rfl
  | cons k' ks ih =>
    rw [List.mem_cons, not_or] at h
    rw [eraseAll, List.foldl_cons, ← eraseAll, ih h.2, Finmap.lookup_erase_ne h.1]

/-- The list visits the entries of the map, each of them once. -/
def Visits (l : List (Σ _ : κ, β)) (m : Finmap fun _ : κ => β) : Prop := (l : Multiset (Σ _ : κ, β)) = m.entries

instance [DecidableEq β] : Decidable (Visits l m) := inferInstanceAs (Decidable (_ = _))

omit [DecidableEq κ] in
theorem exists_visits (m : Finmap fun _ : κ => β) : ∃ l, Visits l m := Quot.exists_rep m.entries

theorem Visits.mem_iff (h : Visits l m) : ⟨k, v⟩ ∈ l ↔ m.lookup k = some v := by
  rw [← Multiset.mem_coe, h, ← Finmap.lookup_eq_some_iff]

omit [DecidableEq κ] in
theorem Visits.nodup (h : Visits l m) : (l.map Sigma.fst).Nodup := by
  have hkeys := m.nodupKeys
  rw [← h] at hkeys
  exact Multiset.coe_nodupKeys.mp hkeys

theorem Visits.mem_keys (h : Visits l m) : k ∈ l.map Sigma.fst ↔ k ∈ m := by
  rw [Finmap.mem_iff, List.mem_map]
  constructor
  · rintro ⟨⟨k, v⟩, hmem, rfl⟩
    exact ⟨v, h.mem_iff.mp hmem⟩
  · rintro ⟨v, hv⟩
    exact ⟨⟨k, v⟩, h.mem_iff.mpr hv, rfl⟩

end

end Khc.Lib
