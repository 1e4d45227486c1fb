import Mathlib.Data.Fintype.Basic
import Khc.Db.ObjectDatabase

/-! What the operations of an index do, and that they keep its keys unique and its ids fresh. -/

namespace Khc.Db

open Lib

section
variable {Ix V K : Type} {S : Schema Ix V K}

theorem Schema.Clash.symm {a b : Object Ix V} (h : S.Clash a b) : S.Clash b a := by
  obtain ⟨hix, key, hkey, heq⟩ := h
  exact ⟨hix.symm, key, hix ▸ hkey, heq.symm⟩

variable [DecidableEq Ix]

/-- No two objects agree on a unique key. -/
def Schema.Consistent (S : Schema Ix V K) (m : Values Ix V) : Prop :=
  ∀ a b v w, m.lookup a = some v → m.lookup b = some w → a ≠ b → ¬S.Clash ⟨a, v⟩ ⟨b, w⟩

/-- The indexes are containers with unique keys, and the id space of each grows with its objects. -/
structure Store.WellFormed (S : Schema Ix V K) (s : Store Ix V) : Prop where
  unique : S.Consistent s.objects
  fresh : ∀ id ∈ s.objects, id.instanceNumber < (s.nextId id.index).instanceNumber
  home : ∀ ix, (s.nextId ix).index = ix

instance [DecidableEq K] (S : Schema Ix V K) (m : Values Ix V) : Decidable (S.Consistent m) :=
  decidable_of_iff (¬m.any (fun a v => m.any fun b w => a ≠ b ∧ S.Clash ⟨a, v⟩ ⟨b, w⟩) = true) <| by
    simp only [Schema.Consistent, any_eq_true, decide_eq_true_eq, not_exists, not_and]
    exact ⟨fun h a b v w ha hb hne => h a v ha b w hb hne, fun h a v ha b w hb hne => h a b v w ha hb hne⟩

instance [DecidableEq K] [Fintype Ix] (S : Schema Ix V K) (s : Store Ix V) : Decidable (s.WellFormed S) :=
  decidable_of_iff (S.Consistent s.objects ∧
    (∀ id ∈ s.objects.keys, id.instanceNumber < (s.nextId id.index).instanceNumber) ∧ ∀ ix, (s.nextId ix).index = ix)
    ⟨fun h => ⟨h.1, fun id hid => h.2.1 id (Finmap.mem_keys.mpr hid), h.2.2⟩,
      fun h => ⟨h.unique, fun id hid => h.fresh id (Finmap.mem_keys.mp hid), h.home⟩⟩

end

/-! ### Updates -/

namespace Store
variable {Ix V : Type} [DecidableEq Ix] {s : Store Ix V} {o : Object Ix V} {id : ObjectId Ix} {ix ix' : Ix}

@[simp] theorem put_objects : (s.put o).objects = s.objects.insert o.id o.value := rfl
@[simp] theorem put_nextId : (s.put o).nextId = s.nextId := rfl
@[simp] theorem erase_objects : (s.erase id).objects = s.objects.erase id := rfl
@[simp] theorem erase_nextId : (s.erase id).nextId = s.nextId := rfl
@[simp] theorem useNextId_objects : (s.useNextId ix).objects = s.objects := rfl

@[simp] theorem useNextId_index : ((s.useNextId ix).nextId ix').index = (s.nextId ix').index := by
  simp only [useNextId]
  by_cases h : ix' = ix
  · rw [h, Function.update_self]
  · rw [Function.update_of_ne h]

theorem useNextId_self : ((s.useNextId ix).nextId ix).instanceNumber = (s.nextId ix).instanceNumber + 1 := by
  simp only [useNextId, Function.update_self]

theorem useNextId_ne (h : ix' ≠ ix) : (s.useNextId ix).nextId ix' = s.nextId ix' := Function.update_of_ne h ..

theorem useNextId_le : (s.nextId ix').instanceNumber ≤ ((s.useNextId ix).nextId ix').instanceNumber := by
  by_cases h : ix' = ix
  · rw [h, useNextId_self]
    exact Nat.le_succ _
  · rw [useNextId_ne h]

end Store

namespace ObjectDatabase

section
variable {Ix V : Type} {db : ObjectDatabase Ix V} {hook : UndoState Ix V → UndoState Ix V}

theorem fcAssert_bind {α : Type} {cond : Prop} [Decidable cond] {e : Error} {f : Unit → Except (Thrown Ix V) α} {r : α} :
    (db.fcAssert cond e >>= f) = .ok r ↔ cond ∧ f () = .ok r := by
  unfold fcAssert
  by_cases h : cond
  · simp [h, bind, Except.bind]
  · simp [h, bind, Except.bind]

@[simp] theorem record_toStore : (db.record hook).toStore = db.toStore := by
  unfold record
  split
  · rfl
  · split <;> rfl

theorem record_of_disabled (h : db.disabled = true) : db.record hook = db := if_pos h

theorem record_of_enabled {s : UndoState Ix V} {rest : List (UndoState Ix V)} (h : db.disabled = false)
    (hs : db.stack = s :: rest) : db.record hook = { db with stack := hook s :: rest } := by
  unfold record
  rw [h, hs]
  rfl

end

section
variable {Ix V K : Type} [DecidableEq Ix] {db : ObjectDatabase Ix V} {id : ObjectId Ix}

theorem getObject_bind {α : Type} {f : Object Ix V → Except (Thrown Ix V) α} {r : α} :
    (db.getObject id >>= f) = .ok r ↔ ∃ v, db.objects.lookup id = some v ∧ f ⟨id, v⟩ = .ok r := by
  unfold getObject
  cases db.objects.lookup id with
  | none => simp [bind, Except.bind]
  | some v => simp [bind, Except.bind]

variable [DecidableEq K] {S : Schema Ix V K} {db' : ObjectDatabase Ix V} {o : Object Ix V}

theorem taken_eq_false : db.taken S o = false ↔
    ∀ id v, db.objects.lookup id = some v → id ≠ o.id → ¬S.Clash ⟨id, v⟩ o := by
  rw [← Bool.not_eq_true, taken, any_eq_true]
  simp only [decide_eq_true_eq, not_exists, not_and]

theorem create_eq_ok {ix : Ix} {constructor : ObjectId Ix → V} : db.create S ix constructor = .ok db' ↔
    (db.nextId ix ∉ db.objects ∧ db.taken S ⟨db.nextId ix, constructor (db.nextId ix)⟩ = false) ∧
      db' = { db with
        toStore := (db.toStore.put ⟨db.nextId ix, constructor (db.nextId ix)⟩).useNextId ix }.record
          (·.onCreate ⟨db.nextId ix, constructor (db.nextId ix)⟩) := by
  unfold create
  rw [fcAssert_bind]
  exact and_congr_right fun _ => ⟨fun h => (Except.ok.inj h).symm, fun h => congrArg Except.ok h.symm⟩

theorem insert_eq_ok : db.insert S o = .ok db' ↔ (o.id ∉ db.objects ∧ db.taken S o = false) ∧
    db' = { db with toStore := db.toStore.put o }.record (·.onCreate o) := by
  unfold insert
  rw [fcAssert_bind]
  exact and_congr_right fun _ => ⟨fun h => (Except.ok.inj h).symm, fun h => congrArg Except.ok h.symm⟩

theorem modify_eq_ok {f : V → Except V V} : db.modify S o f = .ok db' ↔
    ∃ w, f o.value = .ok w ∧ db.taken S ⟨o.id, w⟩ = false ∧
      db' = { db.record (·.onModify o) with toStore := db.toStore.put ⟨o.id, w⟩ } := by
  unfold modify
  cases hf : f o.value with
  | error w => simp
  | ok w =>
    have htaken : (db.record (·.onModify o)).taken S ⟨o.id, w⟩ = db.taken S ⟨o.id, w⟩ := by
      rw [taken, record_toStore, taken]
    simp only [fcAssert_bind, htaken, record_toStore, Except.ok.injEq, exists_eq_left']
    exact and_congr_right fun _ => ⟨fun h => (Except.ok.inj h).symm, fun h => congrArg Except.ok h.symm⟩

end

end ObjectDatabase

section
variable {Ix V K : Type} [DecidableEq Ix] {S : Schema Ix V K} {m m' : Values Ix V} {o : Object Ix V}

theorem Schema.Consistent.insert (h : S.Consistent m)
    (hfree : ∀ id v, m.lookup id = some v → id ≠ o.id → ¬S.Clash ⟨id, v⟩ o) :
    S.Consistent (m.insert o.id o.value) := by
  intro a b v w ha hb hne
  by_cases hao : a = o.id
  · by_cases hbo : b = o.id
    · exact absurd (hao.trans hbo.symm) hne
    · rw [hao, Finmap.lookup_insert] at ha
      rw [Finmap.lookup_insert_of_ne _ hbo] at hb
      obtain rfl := Option.some.inj ha
      rw [hao]
      exact fun hclash => hfree b w hb hbo hclash.symm
  · rw [Finmap.lookup_insert_of_ne _ hao] at ha
    by_cases hbo : b = o.id
    · rw [hbo, Finmap.lookup_insert] at hb
      obtain rfl := Option.some.inj hb
      rw [hbo]
      exact hfree a v ha hao
    · rw [Finmap.lookup_insert_of_ne _ hbo] at hb
      exact h a b v w ha hb hne

/-- Fewer objects are as consistent. -/
theorem Schema.Consistent.mono (h : S.Consistent m)
    (hsub : ∀ id v, m'.lookup id = some v → m.lookup id = some v) : S.Consistent m' :=
  fun a b v w ha hb hne => h a b v w (hsub a v ha) (hsub b w hb) hne

theorem Store.WellFormed.remove {s : Store Ix V} (h : s.WellFormed S) (id : ObjectId Ix) : (s.erase id).WellFormed S where
  unique := h.unique.mono fun id' v hv => by
    by_cases hid : id' = id
    · rw [erase_objects, hid, Finmap.lookup_erase] at hv
      cases hv
    · rwa [erase_objects, Finmap.lookup_erase_ne hid] at hv
  fresh id' hid := h.fresh id' (Finmap.mem_erase.mp hid).2
  home := h.home

end

section
variable {Ix V K : Type} [DecidableEq Ix] [DecidableEq K] {S : Schema Ix V K} {db : ObjectDatabase Ix V}
  {o : Object Ix V} {w : V} {ix : Ix}

theorem Store.WellFormed.create (h : db.toStore.WellFormed S) (hfree : db.taken S ⟨db.nextId ix, w⟩ = false) :
    ((db.toStore.put ⟨db.nextId ix, w⟩).useNextId ix).WellFormed S where
  unique := h.unique.insert (o := ⟨db.nextId ix, w⟩) (ObjectDatabase.taken_eq_false.mp hfree)
  fresh id hid := by
    rcases Finmap.mem_insert.mp hid with rfl | hid
    · rw [h.home, useNextId_self]
      exact Nat.lt_succ_self _
    · exact (h.fresh id hid).trans_le (useNextId_le (s := db.toStore.put ⟨db.nextId ix, w⟩))
  home ix' := by
    rw [useNextId_index]
    exact h.home ix'

theorem Store.WellFormed.modify (h : db.toStore.WellFormed S) (hobj : o.id ∈ db.objects)
    (hfree : db.taken S ⟨o.id, w⟩ = false) :
    (db.toStore.put ⟨o.id, w⟩).WellFormed S where
  unique := h.unique.insert (o := ⟨o.id, w⟩) (ObjectDatabase.taken_eq_false.mp hfree)
  fresh id hid := h.fresh id <| by
    rcases Finmap.mem_insert.mp hid with rfl | hid
    · exact hobj
    · exact hid
  home := h.home

end

end Khc.Db
