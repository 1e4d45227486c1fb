import Khc.Db.Changes
import Khc.Db.Operations

/-! What the last undo state records while a session is open: how the objects and the next ids came from those at its
    start. -/

namespace Khc.Db

open Lib

/-! ### Records -/

/-- The undo state tells how the store came from what it was. -/
structure UndoState.Records {Ix V : Type} [DecidableEq Ix] (s : UndoState Ix V) (before after : Store Ix V) : Prop where
  changes : ∃ χ, s.Represents χ ∧ ∀ id, (χ id).Leads (before.objects.lookup id) (after.objects.lookup id)
  nextIds : ∀ ix, before.nextId ix = (s.oldIndexNextIds.lookup ix).getD (after.nextId ix)
  grown : ∀ ix, (before.nextId ix).instanceNumber ≤ (after.nextId ix).instanceNumber
  newer : ∀ id ∈ s.newIds, (before.nextId id.index).instanceNumber ≤ id.instanceNumber

section
variable {Ix V K : Type} [DecidableEq Ix] {S : Schema Ix V K} {s prev : UndoState Ix V}
  {before between after : Store Ix V} {o : Object Ix V} {v : V} {ix : Ix}

namespace UndoState

theorem records_empty (before : Store Ix V) : ({} : UndoState Ix V).Records before before where
  changes := ⟨_, represents_empty, fun _ => .nop _⟩
  nextIds ix := by simp
  grown ix := le_refl _
  newer id hid := by simp at hid

/-- An object with the next id was not there before. -/
theorem Records.nextId_notMem (h : s.Records before after) (hb : before.WellFormed S) (ha : after.WellFormed S) (ix : Ix) :
    before.objects.lookup (after.nextId ix) = none := by
  rw [Finmap.lookup_eq_none]
  intro hmem
  have hfresh := hb.fresh _ hmem
  rw [ha.home] at hfresh
  exact absurd hfresh (not_lt.mpr (h.grown ix))

theorem Records.onCreate (h : s.Records before after) (hb : before.WellFormed S) (ha : after.WellFormed S)
    (hnone : after.nextId ix ∉ after.objects) :
    (s.onCreate ⟨after.nextId ix, v⟩).Records before ((after.put ⟨after.nextId ix, v⟩).useNextId ix) := by
  obtain ⟨χ, hrep, hlead⟩ := h.changes
  have hhome := ha.home ix
  have hid := hlead (after.nextId ix)
  rw [Finmap.lookup_eq_none.mpr hnone] at hid
  obtain ⟨c, hc, hc'⟩ := hid.comp (.new v) fun _ => h.nextId_notMem hb ha ix
  constructor
  case changes =>
    refine ⟨_, hrep.onCreate (o := ⟨after.nextId ix, v⟩) hc, fun id => ?_⟩
    rw [Store.useNextId_objects, Store.put_objects]
    by_cases hid : id = after.nextId ix
    · subst hid
      rw [Function.update_self, Finmap.lookup_insert]
      exact hc'
    · rw [Function.update_of_ne hid, Finmap.lookup_insert_of_ne _ hid]
      exact hlead id
  case nextIds =>
    intro ix'
    have hbefore := h.nextIds ix'
    simp only [UndoState.onCreate, hhome]
    by_cases hix : ix' = ix
    · subst hix
      split
      · rename_i hmem
        obtain ⟨n, hn⟩ := Finmap.mem_iff.mp hmem
        rw [hn] at hbefore ⊢
        exact hbefore
      · rename_i hmem
        rw [Finmap.lookup_eq_none.mpr hmem] at hbefore
        rw [Finmap.lookup_insert]
        exact hbefore
    · rw [Store.useNextId_ne hix, hbefore]
      split
      · rfl
      · rw [Finmap.lookup_insert_of_ne _ hix]
        rfl
  case grown => exact fun ix' => (h.grown ix').trans (Store.useNextId_le (s := after.put ⟨after.nextId ix, v⟩))
  case newer =>
    intro id hid
    rcases Finset.mem_insert.mp hid with rfl | hid
    · rw [hhome]
      exact h.grown ix
    · exact h.newer id hid

theorem onModify_newIds (s : UndoState Ix V) (o : Object Ix V) : (s.onModify o).newIds = s.newIds := by
  unfold UndoState.onModify
  split_ifs <;> rfl

theorem onRemove_newIds (s : UndoState Ix V) (o : Object Ix V) : (s.onRemove o).newIds ⊆ s.newIds := by
  unfold UndoState.onRemove
  split
  · exact Finset.erase_subset _ _
  · split
    · exact Finset.Subset.refl _
    · split_ifs <;> exact Finset.Subset.refl _

theorem Records.onModify (h : s.Records before after) (hobj : after.objects.lookup o.id = some o.value) :
    (s.onModify o).Records before (after.put ⟨o.id, v⟩) := by
  obtain ⟨χ, hrep, hlead⟩ := h.changes
  have hid := hlead o.id
  rw [hobj] at hid
  obtain ⟨c, hc, hc'⟩ := hid.comp (.upd o.value v) fun h => by cases h
  refine ⟨⟨_, hrep.onModify hc, fun id => ?_⟩, fun ix => ?_, h.grown, fun id hid => h.newer id ?_⟩
  · rw [Store.put_objects]
    by_cases hid : id = o.id
    · subst hid
      rw [Function.update_self, Finmap.lookup_insert]
      exact hc'
    · rw [Function.update_of_ne hid, Finmap.lookup_insert_of_ne _ hid]
      exact hlead id
  · rw [onModify_nextIds]
    exact h.nextIds ix
  · rwa [onModify_newIds] at hid

theorem Records.onRemove (h : s.Records before after) (hobj : after.objects.lookup o.id = some o.value) :
    (s.onRemove o).Records before (after.erase o.id) := by
  obtain ⟨χ, hrep, hlead⟩ := h.changes
  have hid := hlead o.id
  rw [hobj] at hid
  obtain ⟨c, hc, hc'⟩ := hid.comp (.del o.value) fun h => by cases h
  refine ⟨⟨_, hrep.onRemove hc, fun id => ?_⟩, fun ix => ?_, h.grown, fun id hid => h.newer id (onRemove_newIds s o hid)⟩
  · rw [Store.erase_objects]
    by_cases hid : id = o.id
    · subst hid
      rw [Function.update_self, Finmap.lookup_erase]
      exact hc'
    · rw [Function.update_of_ne hid, Finmap.lookup_erase_ne hid]
      exact hlead id
  · rw [onRemove_nextIds]
    exact h.nextIds ix

/-- Two states that record one way after the other are merged into one that records both. -/
theorem Records.merge {order : IterationOrder Ix V} (hp : prev.Records before between) (hs : s.Records between after)
    (hb : before.WellFormed S) (ho : order.Of s) : ∃ t, s.mergeInto order prev = some t ∧ t.Records before after := by
  obtain ⟨χ, hχ, hbetween⟩ := hp.changes
  obtain ⟨ψ, hψ, hafter⟩ := hs.changes
  have hcomp : ∀ id, ∃ c, (χ id).comp (ψ id) = some c ∧ c.Leads (before.objects.lookup id) (after.objects.lookup id) :=
    fun id => (hbetween id).comp (hafter id) fun hnew => by
      rw [Finmap.lookup_eq_none]
      intro hmem
      have hfresh := hb.fresh id hmem
      have hgrown := hp.grown id.index
      have hnewer := hs.newer id ((hψ.newIds id).mpr hnew)
      omega
  choose ω hω hlead using hcomp
  obtain ⟨t, ht, hrep, hids⟩ := mergeInto_eq hχ hψ ho hω
  refine ⟨t, ht, ⟨ω, hrep, hlead⟩, fun ix => ?_, fun ix => (hp.grown ix).trans (hs.grown ix), fun id hid => ?_⟩
  · rw [hids, hp.nextIds ix]
    cases hix : prev.oldIndexNextIds.lookup ix with
    | some n =>
      rw [Finmap.lookup_union_left (Finmap.mem_of_lookup_eq_some hix), hix]
      rfl
    | none =>
      rw [Finmap.lookup_union_right (Finmap.lookup_eq_none.mp hix)]
      exact hs.nextIds ix
  · -- an id that is new to both was new to one of them
    have hnew := (hrep.newIds id).mp hid
    have hcomp := hω id
    rw [hnew] at hcomp
    cases hχid : χ id with
    | new => exact hp.newer id ((hχ.newIds id).mpr hχid)
    | nop =>
      rw [hχid] at hcomp
      have hψid : ψ id = .new := Option.some.inj hcomp
      exact (hp.grown id.index).trans (hs.newer id ((hψ.newIds id).mpr hψid))
    | _ =>
      rw [hχid] at hcomp
      cases hψid : ψ id <;> rw [hψid] at hcomp <;> cases hcomp

end UndoState

end

/-! ### Sessions -/

/-- The database has only been called since the session was opened that made it `start`. -/
structure Recorded {Ix V K : Type} [DecidableEq Ix] (S : Schema Ix V K) (start db : ObjectDatabase Ix V) : Prop where
  wellFormed : db.toStore.WellFormed S
  state : ∃ s, db = { start with toStore := db.toStore, stack := s :: start.stack.tail } ∧
    s.Records start.toStore db.toStore

section
variable {Ix V K : Type} [DecidableEq Ix] [DecidableEq K] {S : Schema Ix V K} {start db db' : ObjectDatabase Ix V}
  {op : Op Ix V} {ops : List (Op Ix V)} {o : Object Ix V} {w : V} {ix : Ix}

/-- Every call is recorded. -/
theorem Recorded.apply (hb : start.toStore.WellFormed S) (hen : start.disabled = false) (h : Recorded S start db)
    (hs : db.apply S op = .ok db') : Recorded S start db' := by
  obtain ⟨s, hdb, hrec⟩ := h.state
  have hdis : db.disabled = false := by rw [hdb]; exact hen
  have hstack : db.stack = s :: start.stack.tail := by rw [hdb]
  cases op with
  | create ix constructor =>
    obtain ⟨⟨hnone, hfree⟩, rfl⟩ := ObjectDatabase.create_eq_ok.mp hs
    rw [ObjectDatabase.record_of_enabled (by exact hdis) (by exact hstack)]
    refine ⟨h.wellFormed.create hfree, _, ?_, hrec.onCreate hb h.wellFormed hnone⟩
    rw [hdb]
  | modify id m =>
    obtain ⟨v, hv, hs⟩ := ObjectDatabase.getObject_bind.mp hs
    obtain ⟨w, -, hfree, rfl⟩ := ObjectDatabase.modify_eq_ok.mp hs
    rw [ObjectDatabase.record_of_enabled (by exact hdis) (by exact hstack)]
    refine ⟨h.wellFormed.modify (o := ⟨id, v⟩) (Finmap.mem_of_lookup_eq_some hv) hfree, _, ?_,
      hrec.onModify (o := ⟨id, v⟩) hv⟩
    rw [hdb]
  | remove id =>
    obtain ⟨v, hv, hs⟩ := ObjectDatabase.getObject_bind.mp hs
    obtain rfl := Except.ok.inj hs
    unfold ObjectDatabase.remove
    rw [ObjectDatabase.record_of_enabled (by exact hdis) (by exact hstack)]
    refine ⟨h.wellFormed.remove id, _, ?_, hrec.onRemove (o := ⟨id, v⟩) hv⟩
    rw [hdb]

theorem Recorded.applyAll (hb : start.toStore.WellFormed S) (hen : start.disabled = false) (h : Recorded S start db)
    (hs : db.applyAll S ops = .ok db') : Recorded S start db' := by
  unfold ObjectDatabase.applyAll at hs
  induction ops generalizing db with
  | nil =>
    obtain rfl := Except.ok.inj hs
    exact h
  | cons op ops ih =>
    rw [List.foldlM_cons] at hs
    cases hop : db.apply S op with
    | error e =>
      rw [hop] at hs
      cases hs
    | ok db₁ =>
      rw [hop] at hs
      exact ih (h.apply hb hen hop) hs

end

end Khc.Db
