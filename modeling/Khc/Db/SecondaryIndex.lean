import Khc.Db.Undo
import Khc.Lib.Except

/-! The database with a secondary index, whose hooks the primary index calls (`index.hpp`). An exception ends a run, unless the session
    in which it is thrown is undone. -/

namespace Khc.Db

open Lib

/-- The hooks of a `secondary_index` -/
structure Hooks (Ix V σ : Type) where
  objectInserted : Object Ix V → σ → σ
  objectRemoved : Object Ix V → σ → σ
  aboutToModify : Object Ix V → σ → σ
  objectModified : Object Ix V → σ → σ

structure Watched (Ix V σ : Type) where
  db : ObjectDatabase Ix V
  index : σ

/-- What is done with the database, which is enabled -/
inductive WatchedCommand (Ix V : Type)
  | start
  | commit
  | merge (order : IterationOrder Ix V)
  | undo (order : IterationOrder Ix V)
  | popCommit (order : IterationOrder Ix V)
  | setMaxSize (size : Nat)
  | call (op : Op Ix V)
  /-- A modification whose callback makes other calls before its own change -/
  | nested (id : ObjectId Ix) (ops : List (Op Ix V)) (m : V → V)
  /-- A modification whose callback throws, and the undoing of the session -/
  | interrupted (id : ObjectId Ix) (m : V → Except V V) (order : IterationOrder Ix V)

namespace Watched
variable {Ix V K σ : Type} [DecidableEq Ix] [DecidableEq K] (S : Schema Ix V K) (H : Hooks Ix V σ) (w : Watched Ix V σ)

/-! ### `primary_index` -/

def create (ix : Ix) (constructor : ObjectId Ix → V) : Option (Watched Ix V σ) := do
  let db ← (w.db.create S ix constructor).toOption
  return ⟨db, H.objectInserted ⟨w.db.nextId ix, constructor (w.db.nextId ix)⟩ w.index⟩

def insert (obj : Object Ix V) : Option (Watched Ix V σ) := do
  let db ← (w.db.insert S obj).toOption
  return ⟨db, H.objectInserted obj w.index⟩

def remove (obj : Object Ix V) : Watched Ix V σ := ⟨w.db.remove obj, H.objectRemoved obj w.index⟩

def modify (obj : Object Ix V) (m : V → Except V V) : Option (Watched Ix V σ) := do
  let value ← (m obj.value).toOption
  let db ← (w.db.modify S obj m).toOption
  return ⟨db, H.objectModified ⟨obj.id, value⟩ (H.aboutToModify obj w.index)⟩

/-- Where the callback throws, the hook after the modification is not called. -/
def interrupt (obj : Object Ix V) (m : V → Except V V) : Option (Watched Ix V σ) :=
  match m obj.value with
  | .ok _ => none
  | .error _ => some ⟨leaves (w.db.modify S obj m), H.aboutToModify obj w.index⟩

def getObject (id : ObjectId Ix) : Option (Object Ix V) := (w.db.getObject id).toOption

def call : Op Ix V → Option (Watched Ix V σ)
  | .create ix constructor => w.create S H ix constructor
  | .modify id m => do w.modify S H (← w.getObject id) m
  | .remove id => do return w.remove H (← w.getObject id)

/-! ### `undo_database` -/

def restoreOldValue (item : Σ _ : ObjectId Ix, V) : Option (Watched Ix V σ) := do
  w.modify S H (← w.getObject item.1) fun _ => .ok item.2

def removeNew (id : ObjectId Ix) : Option (Watched Ix V σ) := do
  return w.remove H (← w.getObject id)

def restoreRemoved (item : Σ _ : ObjectId Ix, V) : Option (Watched Ix V σ) := w.insert S H ⟨item.1, item.2⟩

def restore (order : IterationOrder Ix V) (state : UndoState Ix V) : Option (Watched Ix V σ) := do
  let w ← order.oldValues.foldlM (restoreOldValue S H) w
  let w ← order.newIds.foldlM (removeNew H) w
  order.removed.foldlM (restoreRemoved S H) { w with db := w.db.restoreNextIds state }

def undo (order : IterationOrder Ix V) : Option (Watched Ix V σ) := do
  guard (w.db.disabled = false ∧ 0 < w.db.activeSessions)
  match w.db.stack with
  | [] => none
  | state :: rest =>
    let w ← restore S H { w with db := w.db.disable } order state
    return { w with db := { w.db with stack := rest, disabled := false, activeSessions := w.db.activeSessions - 1 } }

def popCommit (order : IterationOrder Ix V) : Option (Watched Ix V σ) := do
  guard (w.db.activeSessions = 0)
  match w.db.stack with
  | [] => none
  | state :: rest =>
    let w ← restore S H { w with db := w.db.disable } order state
    return { w with db := { w.db with stack := rest, disabled := false } }

/-! ### Runs -/

/-- A modification up to where its callback has made other calls -/
def begun (id : ObjectId Ix) (ops : List (Op Ix V)) : Option (Watched Ix V σ) := do
  let obj ← w.getObject id
  ops.foldlM (call S H) ⟨w.db.record (·.onModify obj), H.aboutToModify obj w.index⟩

/-- The callback of the outer modification changes the object as the calls in it have left it. -/
def nested (id : ObjectId Ix) (ops : List (Op Ix V)) (m : V → V) : Option (Watched Ix V σ) := do
  let w ← w.begun S H id ops
  let obj ← w.getObject id
  guard (w.db.taken S ⟨id, m obj.value⟩ = false)
  return ⟨{ w.db with toStore := w.db.toStore.put ⟨id, m obj.value⟩ }, H.objectModified ⟨id, m obj.value⟩ w.index⟩

def step (w : Watched Ix V σ) : WatchedCommand Ix V → Option (Watched Ix V σ)
  | .start => if w.db.disabled then none else some { w with db := (w.db.startUndoSession false).2 }
  | .commit => do return { w with db := ← w.db.commit.toOption }
  | .merge order => do return { w with db := ← (w.db.merge order).toOption }
  | .undo order => w.undo S H order
  | .popCommit order => w.popCommit S H order
  | .setMaxSize size => some { w with db := { w.db with maxSize := size } }
  | .call op => w.call S H op
  | .nested id ops m => w.nested S H id ops m
  | .interrupted id m order => do
    let w ← w.interrupt S H (← w.getObject id) m
    w.undo S H order

/-- The iterations are those of the containers. -/
def Proper (w : Watched Ix V σ) : WatchedCommand Ix V → Prop
  | .merge order | .undo order | .popCommit order => w.db.Iterates order
  | .interrupted id m order => ∀ obj ∈ w.getObject id, ∀ w' ∈ w.interrupt S H obj m, w'.db.Iterates order
  | _ => True

end Watched

/-! ### What the operations do -/

/-- What one operation does to an object and to the index -/
inductive Watched.Changes {Ix V σ : Type} [DecidableEq Ix] (H : Hooks Ix V σ) (w : Watched Ix V σ) : ObjectId Ix → Watched Ix V σ → Prop
  | inserted {id : ObjectId Ix} {v : V} {w' : Watched Ix V σ} (hnone : w.db.objects.lookup id = none)
      (hobjects : w'.db.objects = w.db.objects.insert id v) (hindex : w'.index = H.objectInserted ⟨id, v⟩ w.index) : Changes H w id w'
  | removed {id : ObjectId Ix} {v : V} {w' : Watched Ix V σ} (hsome : w.db.objects.lookup id = some v)
      (hobjects : w'.db.objects = w.db.objects.erase id) (hindex : w'.index = H.objectRemoved ⟨id, v⟩ w.index) : Changes H w id w'
  | modified {id : ObjectId Ix} {v v' : V} {w' : Watched Ix V σ} (hsome : w.db.objects.lookup id = some v)
      (hobjects : w'.db.objects = w.db.objects.insert id v')
      (hindex : w'.index = H.objectModified ⟨id, v'⟩ (H.aboutToModify ⟨id, v⟩ w.index)) : Changes H w id w'

namespace Watched
variable {Ix V K σ : Type} [DecidableEq Ix] [DecidableEq K] {S : Schema Ix V K} {H : Hooks Ix V σ} {w w' : Watched Ix V σ}
  {id : ObjectId Ix} {obj : Object Ix V} {m : V → Except V V} {op : Op Ix V}

omit [DecidableEq K] in
theorem getObject_eq_some (h : w.getObject id = some obj) : obj.id = id ∧ w.db.objects.lookup id = some obj.value := by
  unfold getObject ObjectDatabase.getObject at h
  split at h
  · rename_i v hv
    obtain rfl := Option.some.inj h
    exact ⟨rfl, hv⟩
  · cases h

theorem create_changes {ix : Ix} {constructor : ObjectId Ix → V} (h : w.create S H ix constructor = some w') :
    w.Changes H (w.db.nextId ix) w' := by
  obtain ⟨db, hdb, rfl⟩ := map_toOption_eq_some h
  obtain ⟨⟨hnone, -⟩, rfl⟩ := ObjectDatabase.create_eq_ok.mp hdb
  refine .inserted (Finmap.lookup_eq_none.mpr hnone) ?_ rfl
  show (ObjectDatabase.record _ _).objects = _
  rw [ObjectDatabase.record_toStore]
  rfl

theorem insert_eq_some (h : w.insert S H obj = some w') : w.db.objects.lookup obj.id = none ∧
    w'.db.objects = w.db.objects.insert obj.id obj.value ∧ w'.index = H.objectInserted obj w.index := by
  obtain ⟨db, hdb, rfl⟩ := map_toOption_eq_some h
  obtain ⟨⟨hnone, -⟩, rfl⟩ := ObjectDatabase.insert_eq_ok.mp hdb
  refine ⟨Finmap.lookup_eq_none.mpr hnone, ?_, rfl⟩
  show (ObjectDatabase.record _ _).objects = _
  rw [ObjectDatabase.record_toStore]
  rfl

theorem insert_changes (h : w.insert S H obj = some w') : w.Changes H obj.id w' := by
  obtain ⟨hnone, hobjects, hindex⟩ := insert_eq_some h
  exact .inserted hnone hobjects hindex

omit [DecidableEq K] in
theorem remove_changes (h : w.db.objects.lookup obj.id = some obj.value) : w.Changes H obj.id (w.remove H obj) := by
  refine .removed h ?_ rfl
  show ((w.db.record _).toStore.erase obj.id).objects = _
  rw [ObjectDatabase.record_toStore]
  rfl

theorem modify_changes (h : w.modify S H obj m = some w') :
    ∃ v, m obj.value = .ok v ∧ w'.db.objects = w.db.objects.insert obj.id v ∧
      w'.index = H.objectModified ⟨obj.id, v⟩ (H.aboutToModify obj w.index) := by
  unfold modify at h
  cases hm : m obj.value with
  | error p =>
    rw [hm] at h
    cases h
  | ok v =>
    rw [hm] at h
    obtain ⟨db, hdb, rfl⟩ := map_toOption_eq_some h
    obtain ⟨v', hv', -, rfl⟩ := ObjectDatabase.modify_eq_ok.mp hdb
    obtain rfl := Except.ok.inj (hm.symm.trans hv')
    exact ⟨v, rfl, rfl, rfl⟩

end Watched

end Khc.Db
