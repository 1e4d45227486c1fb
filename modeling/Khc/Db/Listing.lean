import Khc.Db.SecondaryIndex

/-! Secondary indexes that list the members of the objects, and what an operation does to what is listed. -/

namespace Khc.Db

section
variable {M : Type} [DecidableEq M] {a b c : Finset M}

/-- The changes from `b` to `c` make `c` of `a` as well. -/
def Carries (a b c : Finset M) : Prop := b ∩ c ⊆ a ∧ a ⊆ b ∪ c

instance : Decidable (Carries a b c) := inferInstanceAs (Decidable (_ ∧ _))

theorem carries_iff : a \ (b \ c) ∪ c \ b = c ↔ Carries a b c := by
  constructor
  · intro h
    constructor
    · intro m hm
      obtain ⟨hb, hc⟩ := Finset.mem_inter.mp hm
      rw [← h] at hc
      rcases Finset.mem_union.mp hc with ha | hnew
      · exact (Finset.mem_sdiff.mp ha).1
      · exact absurd hb (Finset.mem_sdiff.mp hnew).2
    · intro m hm
      by_contra hnot
      rw [Finset.mem_union, not_or] at hnot
      refine hnot.2 (h ▸ Finset.mem_union_left _ (Finset.mem_sdiff.mpr ⟨hm, fun hbc => ?_⟩))
      exact hnot.1 (Finset.mem_sdiff.mp hbc).1
  · rintro ⟨hinter, hunion⟩
    ext m
    simp only [Finset.mem_union, Finset.mem_sdiff]
    constructor
    · rintro (⟨ha, hnot⟩ | ⟨hc, -⟩)
      · rcases Finset.mem_union.mp (hunion ha) with hb | hc
        · exact by_contra fun hc => hnot ⟨hb, hc⟩
        · exact hc
      · exact hc
    · intro hc
      by_cases hb : m ∈ b
      · exact .inl ⟨hinter (Finset.mem_inter.mpr ⟨hb, hc⟩), fun hbc => hbc.2 hc⟩
      · exact .inr ⟨hc, hb⟩

theorem carries_self : Carries a a c := ⟨Finset.inter_subset_left, Finset.subset_union_left⟩

end

/-! ### Maps from members to the objects that have them -/

/-- A map from members to sets of objects, as a relation -/
abbrev Entries (Ix M : Type) := Finset (M × ObjectId Ix)

namespace Entries
variable {Ix M : Type} [DecidableEq Ix] [DecidableEq M] {e : Entries Ix M} {items : Finset M} {m : M} {id id' : ObjectId Ix}

def insert (e : Entries Ix M) (items : Finset M) (id : ObjectId Ix) : Entries Ix M := e ∪ items.image (·, id)

def erase (e : Entries Ix M) (items : Finset M) (id : ObjectId Ix) : Entries Ix M := e \ items.image (·, id)

/-- The members whose entries have the object -/
def listed (e : Entries Ix M) (id : ObjectId Ix) : Finset M := (e.filter (·.2 = id)).image Prod.fst

theorem mem_listed : m ∈ e.listed id ↔ (m, id) ∈ e := by
  unfold listed
  constructor
  · intro h
    obtain ⟨⟨m', id'⟩, he, rfl⟩ := Finset.mem_image.mp h
    obtain ⟨hin, rfl⟩ := Finset.mem_filter.mp he
    exact hin
  · intro h
    exact Finset.mem_image.mpr ⟨(m, id), Finset.mem_filter.mpr ⟨h, rfl⟩, rfl⟩

theorem mem_items : (m, id') ∈ items.image (·, id) ↔ m ∈ items ∧ id' = id := by
  constructor
  · intro h
    obtain ⟨m', hm, heq⟩ := Finset.mem_image.mp h
    obtain ⟨rfl, rfl⟩ := Prod.mk.inj heq
    exact ⟨hm, rfl⟩
  · rintro ⟨hm, rfl⟩
    exact Finset.mem_image.mpr ⟨m, hm, rfl⟩

theorem listed_insert : (e.insert items id).listed = Function.update e.listed id (e.listed id ∪ items) := by
  funext id'
  ext m
  rw [mem_listed, insert, Finset.mem_union, mem_items]
  by_cases hid : id' = id
  · subst hid
    rw [Function.update_self, Finset.mem_union, mem_listed, and_iff_left rfl]
  · rw [Function.update_of_ne hid, mem_listed]
    exact or_iff_left fun h => hid h.2

theorem listed_erase : (e.erase items id).listed = Function.update e.listed id (e.listed id \ items) := by
  funext id'
  ext m
  rw [mem_listed, erase, Finset.mem_sdiff, mem_items]
  by_cases hid : id' = id
  · subst hid
    rw [Function.update_self, Finset.mem_sdiff, mem_listed, and_iff_left rfl]
  · rw [Function.update_of_ne hid, mem_listed]
    exact and_iff_left fun h => hid h.2

end Entries

/-! ### What is listed -/

variable {Ix V M σ τ : Type} [DecidableEq Ix] [DecidableEq M]

/-- Insertions and removals list the members of an object, and a modification leaves the other objects as they are. -/
structure Hooks.Lists (H : Hooks Ix V σ) (listed : σ → ObjectId Ix → Finset M) (members : V → Finset M) : Prop where
  inserted : ∀ o i, listed (H.objectInserted o i) = Function.update (listed i) o.id (listed i o.id ∪ members o.value)
  removed : ∀ o i, listed (H.objectRemoved o i) = Function.update (listed i) o.id (listed i o.id \ members o.value)
  about : ∀ o i, listed (H.aboutToModify o i) = listed i
  others : ∀ o i id, id ≠ o.id → listed (H.objectModified o i) id = listed i id

/-- A modification makes the changes from the members before it. -/
structure Hooks.Follows (H : Hooks Ix V σ) (listed : σ → ObjectId Ix → Finset M) (before : σ → Finset M) (members : V → Finset M) : Prop
    extends H.Lists listed members where
  kept : ∀ o i, before (H.aboutToModify o i) = members o.value
  modified : ∀ o i, listed (H.objectModified o i) o.id = listed i o.id \ (before i \ members o.value) ∪ members o.value \ before i

/-- An index whose part does what another index does -/
theorem Hooks.Follows.comap {G : Hooks Ix V τ} {H : Hooks Ix V σ} {listed : τ → ObjectId Ix → Finset M} {before : τ → Finset M}
    {members : V → Finset M} (hG : G.Follows listed before members) {part : σ → τ}
    (hins : ∀ o i, part (H.objectInserted o i) = G.objectInserted o (part i))
    (hrem : ∀ o i, part (H.objectRemoved o i) = G.objectRemoved o (part i))
    (habout : ∀ o i, part (H.aboutToModify o i) = G.aboutToModify o (part i))
    (hmod : ∀ o i, part (H.objectModified o i) = G.objectModified o (part i)) :
    H.Follows (fun i => listed (part i)) (fun i => before (part i)) members where
  inserted o i := by rw [hins, hG.inserted]
  removed o i := by rw [hrem, hG.removed]
  about o i := by rw [habout, hG.about]
  others o i id hid := by rw [hmod, hG.others o _ id hid]
  kept o i := by rw [habout, hG.kept]
  modified o i := by rw [hmod, hG.modified]

namespace Watched
variable {listed : σ → ObjectId Ix → Finset M} {before : σ → Finset M} {members : V → Finset M} {H : Hooks Ix V σ}
  {w w' : Watched Ix V σ} {id id' : ObjectId Ix}

/-- The members of the object, if there is one. -/
def membersOf (members : V → Finset M) (w : Watched Ix V σ) (id : ObjectId Ix) : Finset M := (w.db.objects.lookup id).elim ∅ members

/-- The index lists the members of the object, and of no other one at its id. -/
def ListedAt (listed : σ → ObjectId Ix → Finset M) (members : V → Finset M) (w : Watched Ix V σ) (id : ObjectId Ix) : Prop :=
  listed w.index id = w.membersOf members id

omit [DecidableEq M] in
theorem membersOf_eq {v : V} (h : w.db.objects.lookup id = some v) : w.membersOf members id = members v := by
  rw [membersOf, h]
  rfl

omit [DecidableEq M] in
theorem membersOf_none (h : w.db.objects.lookup id = none) : w.membersOf members id = ∅ := by
  rw [membersOf, h]
  rfl

/-- What happens to one object does not matter to the others. -/
theorem Changes.frame (hL : H.Lists listed members) (h : w.Changes H id w') (hne : id' ≠ id) :
    w'.db.objects.lookup id' = w.db.objects.lookup id' ∧ listed w'.index id' = listed w.index id' := by
  cases h with
  | inserted hnone hobjects hindex =>
    rw [hobjects, hindex, hL.inserted]
    exact ⟨Finmap.lookup_insert_of_ne _ hne, Function.update_of_ne hne ..⟩
  | removed hsome hobjects hindex =>
    rw [hobjects, hindex, hL.removed]
    exact ⟨Finmap.lookup_erase_ne hne, Function.update_of_ne hne ..⟩
  | modified hsome hobjects hindex =>
    rw [hobjects, hindex, hL.others _ _ _ hne, hL.about]
    exact ⟨Finmap.lookup_insert_of_ne _ hne, rfl⟩

/-- An object and its index entries are modified together. -/
theorem listedAt_modified (hF : H.Follows listed before members) {v v' : V} (hobjects : w'.db.objects = w.db.objects.insert id v')
    (hindex : w'.index = H.objectModified ⟨id, v'⟩ (H.aboutToModify ⟨id, v⟩ w.index))
    (hcarries : Carries (listed w.index id) (members v) (members v')) : w'.ListedAt listed members id := by
  unfold ListedAt
  rw [membersOf_eq (hobjects ▸ Finmap.lookup_insert _), hindex]
  have hmod := hF.modified ⟨id, v'⟩ (H.aboutToModify ⟨id, v⟩ w.index)
  rw [hF.kept, hF.about] at hmod
  exact hmod.trans (carries_iff.mpr hcarries)

theorem listedAt_removed (hL : H.Lists listed members) {v : V} (hobjects : w'.db.objects = w.db.objects.erase id)
    (hindex : w'.index = H.objectRemoved ⟨id, v⟩ w.index) (hsub : listed w.index id ⊆ members v) : w'.ListedAt listed members id := by
  unfold ListedAt
  rw [membersOf_none (hobjects ▸ Finmap.lookup_erase _ _), hindex, hL.removed, Function.update_self]
  exact Finset.sdiff_eq_empty_iff_subset.mpr hsub

theorem listedAt_inserted (hL : H.Lists listed members) {v : V} (hnone : w.db.objects.lookup id = none)
    (hobjects : w'.db.objects = w.db.objects.insert id v) (hindex : w'.index = H.objectInserted ⟨id, v⟩ w.index)
    (hl : w.ListedAt listed members id) : w'.ListedAt listed members id := by
  unfold ListedAt at hl ⊢
  rw [membersOf_eq (hobjects ▸ Finmap.lookup_insert _), hindex, hL.inserted, Function.update_self, hl, membersOf_none hnone, Finset.empty_union]

/-- What is listed of one object is the matter of its operation alone. -/
theorem Changes.listedAt_of_self (hL : H.Lists listed members) (h : w.Changes H id w') (hself : id' = id → w'.ListedAt listed members id)
    (hl : w.ListedAt listed members id') : w'.ListedAt listed members id' := by
  by_cases hid : id' = id
  · exact hid ▸ hself hid
  · obtain ⟨hlookup, hlisted⟩ := h.frame hL hid
    unfold ListedAt membersOf at hl ⊢
    rw [hlookup, hlisted, hl]

theorem Changes.listedAt (hF : H.Follows listed before members) (h : w.Changes H id w') (hl : w.ListedAt listed members id') :
    w'.ListedAt listed members id' := by
  refine h.listedAt_of_self hF.toLists (fun hid => ?_) hl
  subst hid
  cases h with
  | inserted hnone hobjects hindex => exact listedAt_inserted hF.toLists hnone hobjects hindex hl
  | removed hsome hobjects hindex =>
    unfold ListedAt at hl
    rw [membersOf_eq hsome] at hl
    exact listedAt_removed hF.toLists hobjects hindex hl.subset
  | modified hsome hobjects hindex =>
    unfold ListedAt at hl
    rw [membersOf_eq hsome] at hl
    exact listedAt_modified hF hobjects hindex (hl ▸ carries_self)

end Watched

end Khc.Db
