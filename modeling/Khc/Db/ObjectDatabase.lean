import Khc.Lib.Entries
import Khc.Lib.Except

/-! Objects, and what one undo state keeps of the changes to them (`object_id.hpp`, `undo_database.hpp`). -/

namespace Khc.Db

/-- `object_id_type`: the index that an object belongs to, by its space and type, and its instance there. -/
structure ObjectId (Ix : Type) where
  index : Ix
  instanceNumber : Nat
deriving DecidableEq

/-- An object: its id, which no callback changes, and its other fields. -/
structure Object (Ix V : Type) where
  id : ObjectId Ix
  value : V

/-- Values by object id. -/
abbrev Values (Ix V : Type) := Finmap fun _ : ObjectId Ix => V

/-- `undo_state` -/
structure UndoState (Ix V : Type) where
  oldValues : Values Ix V := ∅
  oldIndexNextIds : Finmap fun _ : Ix => ObjectId Ix := ∅
  newIds : Finset (ObjectId Ix) := ∅
  removed : Values Ix V := ∅

/-- The items of the unordered containers of an undo state in the order of an iteration. -/
structure IterationOrder (Ix V : Type) where
  oldValues : List (Σ _ : ObjectId Ix, V)
  newIds : List (ObjectId Ix)
  removed : List (Σ _ : ObjectId Ix, V)

namespace UndoState
variable {Ix V : Type} [DecidableEq Ix] (s : UndoState Ix V)

/-- `undo_database::on_create`, on the last state. -/
def onCreate (obj : Object Ix V) : UndoState Ix V :=
  { s with
    oldIndexNextIds :=
      if obj.id.index ∈ s.oldIndexNextIds then s.oldIndexNextIds else s.oldIndexNextIds.insert obj.id.index obj.id
    newIds := insert obj.id s.newIds }

/-- `undo_database::on_modify`, on the last state. -/
def onModify (obj : Object Ix V) : UndoState Ix V :=
  if obj.id ∈ s.newIds then s
  else if obj.id ∈ s.oldValues then s
  else { s with oldValues := s.oldValues.insert obj.id obj.value }

/-- `undo_database::on_remove`, on the last state. -/
def onRemove (obj : Object Ix V) : UndoState Ix V :=
  if obj.id ∈ s.newIds then { s with newIds := s.newIds.erase obj.id }
  else match s.oldValues.lookup obj.id with
    | some was => { s with removed := s.removed.insert obj.id was, oldValues := s.oldValues.erase obj.id }
    | none =>
      if obj.id ∈ s.removed then s
      else { s with removed := s.removed.insert obj.id obj.value }

/-! ### Merging -/

/-- One round of the loop over `state.old_values`; the assertion excludes an update after a deletion. -/
def mergeOldValue (prev : UndoState Ix V) (obj : Σ _ : ObjectId Ix, V) : Option (UndoState Ix V) :=
  if obj.1 ∈ prev.newIds then some prev
  else if obj.1 ∈ prev.oldValues then some prev
  else if obj.1 ∈ prev.removed then none
  else some { prev with oldValues := prev.oldValues.insert obj.1 obj.2 }

/-- One round of the loop over `state.new_ids`. -/
def mergeNewId (prev : UndoState Ix V) (id : ObjectId Ix) : Option (UndoState Ix V) :=
  some { prev with newIds := insert id prev.newIds }

/-- One round of the loop over `state.removed`; the assertion excludes a deletion after a deletion. -/
def mergeRemoved (prev : UndoState Ix V) (obj : Σ _ : ObjectId Ix, V) : Option (UndoState Ix V) :=
  if obj.1 ∈ prev.newIds then some { prev with newIds := prev.newIds.erase obj.1 }
  else match prev.oldValues.lookup obj.1 with
    | some was => some { prev with removed := prev.removed.insert obj.1 was, oldValues := prev.oldValues.erase obj.1 }
    | none =>
      if obj.1 ∈ prev.removed then none
      else some { prev with removed := prev.removed.insert obj.1 obj.2 }

/-- The loops of `undo_database::merge`, by which `prev` takes up `s`; `none` where an assertion fails. The loop over
    `state.old_index_next_ids` adds the items whose keys `prev` does not have. -/
def mergeInto (order : IterationOrder Ix V) (prev : UndoState Ix V) : Option (UndoState Ix V) := do
  let prev ← order.oldValues.foldlM mergeOldValue prev
  let prev ← order.newIds.foldlM mergeNewId prev
  let prev := { prev with oldIndexNextIds := prev.oldIndexNextIds ∪ s.oldIndexNextIds }
  order.removed.foldlM mergeRemoved prev

end UndoState

/-- The iteration is one of the containers of the state. -/
structure IterationOrder.Of {Ix V : Type} (order : IterationOrder Ix V) (s : UndoState Ix V) : Prop where
  oldValues : Lib.Visits order.oldValues s.oldValues
  newIds : (order.newIds : Multiset (ObjectId Ix)) = s.newIds.val
  removed : Lib.Visits order.removed s.removed

instance {Ix V : Type} [DecidableEq Ix] [DecidableEq V] (order : IterationOrder Ix V) (s : UndoState Ix V) :
    Decidable (order.Of s) :=
  decidable_of_iff (Lib.Visits order.oldValues s.oldValues ∧ (order.newIds : Multiset (ObjectId Ix)) = s.newIds.val ∧
    Lib.Visits order.removed s.removed) ⟨fun h => ⟨h.1, h.2.1, h.2.2⟩, fun h => ⟨h.1, h.2, h.3⟩⟩

end Khc.Db

/-! The object database with its undo history (`index.hpp`, `generic_index.hpp`, `object_database.cpp`,
    `undo_database.cpp`). An exception comes with the state that it leaves.

The indexes are the elements of a type `Ix`, so there is no lookup of an index that can fail. An index is a keyed
container: it refuses an object that agrees with another one on a unique key. -/

namespace Khc.Db

open Lib

/-- The unique keys of the indexes, next to the id. -/
structure Schema (Ix V K : Type) where
  unique : Ix → List (Object Ix V → K)

section
variable {Ix V K : Type}

/-- Two objects of an index agree on a unique key. -/
def Schema.Clash (S : Schema Ix V K) (a b : Object Ix V) : Prop :=
  a.id.index = b.id.index ∧ ∃ key ∈ S.unique a.id.index, key a = key b

instance [DecidableEq Ix] [DecidableEq K] (S : Schema Ix V K) (a b : Object Ix V) : Decidable (S.Clash a b) :=
  inferInstanceAs (Decidable (_ ∧ _))

end

inductive Error
  /-- "Unable to find Object ${id}" -/
  | objectNotFound
  /-- "Could not insert object, most likely a uniqueness constraint was violated" -/
  | couldNotInsert
  /-- "Could not create object! Most likely a uniqueness constraint is violated." -/
  | couldNotCreate
  /-- "Could not modify object, most likely a index constraint was violated" -/
  | couldNotModify
  /-- What the callback of `modify` throws. -/
  | callback
  /-- `FC_ASSERT( !_disabled )` -/
  | disabled
  /-- `FC_ASSERT( _active_sessions > 0 )` -/
  | noActiveSession
  /-- `FC_ASSERT( _active_sessions == 0 )` -/
  | activeSession
  /-- `FC_ASSERT( !_stack.empty() )`; `back()` of an empty stack -/
  | emptyStack
  /-- `FC_ASSERT( _stack.size() >=2 )` -/
  | nothingToMerge
  /-- `assert( prev_state.removed.find(obj.second->id) == prev_state.removed.end() )` -/
  | assertion
deriving DecidableEq

/-- The objects of all indexes, and the next id of each. -/
structure Store (Ix V : Type) where
  objects : Values Ix V
  nextId : Ix → ObjectId Ix

namespace Store
variable {Ix V : Type} [DecidableEq Ix] (s : Store Ix V)

def put (obj : Object Ix V) : Store Ix V := { s with objects := s.objects.insert obj.id obj.value }

def erase (id : ObjectId Ix) : Store Ix V := { s with objects := s.objects.erase id }

/-- `use_next_id` -/
def useNextId (ix : Ix) : Store Ix V :=
  { s with nextId := Function.update s.nextId ix ⟨(s.nextId ix).index, (s.nextId ix).instanceNumber + 1⟩ }

end Store

/-- `object_database`, with its `undo_database`. -/
structure ObjectDatabase (Ix V : Type) extends Store Ix V where
  activeSessions : Nat
  disabled : Bool
  /-- The newest state first: the back of the deque is the head of the list. -/
  stack : List (UndoState Ix V)
  maxSize : Nat

/-- An exception, and the state that it leaves. -/
abbrev Thrown (Ix V : Type) := Error × ObjectDatabase Ix V

/-- The state after a call, whether it returns or throws. -/
def leaves {Ix V : Type} : Except (Thrown Ix V) (ObjectDatabase Ix V) → ObjectDatabase Ix V
  | .ok db => db
  | .error (_, db) => db

namespace ObjectDatabase
variable {Ix V K : Type} [DecidableEq Ix] [DecidableEq K] (S : Schema Ix V K) (db : ObjectDatabase Ix V)

def fcAssert (cond : Prop) [Decidable cond] (e : Error) : Except (Thrown Ix V) Unit :=
  if cond then .ok () else .error (e, db)

def enable : ObjectDatabase Ix V := { db with disabled := false }

def disable : ObjectDatabase Ix V := { db with disabled := true }

/-- What the hooks of `undo_database` do to the last state. -/
def record (hook : UndoState Ix V → UndoState Ix V) : ObjectDatabase Ix V :=
  if db.disabled then db
  else match db.stack with
    | [] => { db with stack := [hook {}] }
    | state :: rest => { db with stack := hook state :: rest }

/-- `object_database::get_object` -/
def getObject (id : ObjectId Ix) : Except (Thrown Ix V) (Object Ix V) :=
  match db.objects.lookup id with
  | some value => .ok ⟨id, value⟩
  | none => .error (.objectNotFound, db)

/-- Another object than `obj` is in the way of it. -/
def taken (obj : Object Ix V) : Bool := db.objects.any fun id value => id ≠ obj.id ∧ S.Clash ⟨id, value⟩ obj

/-! ### The operations of an index -/

/-- `primary_index::insert` -/
def insert (obj : Object Ix V) : Except (Thrown Ix V) (ObjectDatabase Ix V) := do
  db.fcAssert (obj.id ∉ db.objects ∧ db.taken S obj = false) .couldNotInsert
  return { db with toStore := db.toStore.put obj }.record (·.onCreate obj)

/-- `primary_index::create` -/
def create (ix : Ix) (constructor : ObjectId Ix → V) : Except (Thrown Ix V) (ObjectDatabase Ix V) := do
  let obj : Object Ix V := ⟨db.nextId ix, constructor (db.nextId ix)⟩
  db.fcAssert (obj.id ∉ db.objects ∧ db.taken S obj = false) .couldNotCreate
  return { db with toStore := (db.toStore.put obj).useNextId ix }.record (·.onCreate obj)

/-- `primary_index::modify`. The callback returns, or throws and leaves what it has changed so far; an object whose
    new keys are taken is lost. -/
def modify (obj : Object Ix V) (m : V → Except V V) : Except (Thrown Ix V) (ObjectDatabase Ix V) := do
  let db := db.record (·.onModify obj)
  match m obj.value with
  | .error value => .error (.callback, { db with toStore := db.toStore.put ⟨obj.id, value⟩ })
  | .ok value =>
    let lost : ObjectDatabase Ix V := { db with toStore := db.toStore.erase obj.id }
    lost.fcAssert (db.taken S ⟨obj.id, value⟩ = false) .couldNotModify
    return { db with toStore := db.toStore.put ⟨obj.id, value⟩ }

/-- `primary_index::remove` -/
def remove (obj : Object Ix V) : ObjectDatabase Ix V :=
  let db := db.record (·.onRemove obj)
  { db with toStore := db.toStore.erase obj.id }

/-! ### Sessions -/

/-- `undo_database::session` -/
structure Session where
  applyUndo : Bool := true
  disableOnExit : Bool := false

/-- `undo_database::start_undo_session`. The loop takes states from the front of the deque until there are no more
    than `_max_size`. -/
def startUndoSession (forceEnable : Bool) : Session × ObjectDatabase Ix V :=
  if db.disabled ∧ ¬forceEnable then ({}, db)
  else
    ({ disableOnExit := db.disabled && forceEnable },
      { db with
        disabled := if forceEnable then false else db.disabled
        stack := {} :: db.stack.take db.maxSize
        activeSessions := db.activeSessions + 1 })

/-- One round of the loop over `state.old_values` in `undo`. -/
def restoreOldValue (item : Σ _ : ObjectId Ix, V) : Except (Thrown Ix V) (ObjectDatabase Ix V) := do
  let obj ← db.getObject item.1
  db.modify S obj fun _ => .ok item.2

/-- One round of the loop over `state.new_ids` in `undo`. -/
def removeNew (id : ObjectId Ix) : Except (Thrown Ix V) (ObjectDatabase Ix V) := do
  let obj ← db.getObject id
  return db.remove obj

/-- One round of the loop over `state.removed` in `undo`. -/
def restoreRemoved (item : Σ _ : ObjectId Ix, V) : Except (Thrown Ix V) (ObjectDatabase Ix V) :=
  db.insert S ⟨item.1, item.2⟩

/-- The loop over `state.old_index_next_ids` in `undo`. -/
def restoreNextIds (state : UndoState Ix V) : ObjectDatabase Ix V :=
  { db with nextId := fun ix => (state.oldIndexNextIds.lookup ix).getD (db.nextId ix) }

/-- The loops of `undo`, which `pop_commit` repeats. -/
def restore (order : IterationOrder Ix V) (state : UndoState Ix V) : Except (Thrown Ix V) (ObjectDatabase Ix V) := do
  let db ← order.oldValues.foldlM (restoreOldValue S) db
  let db ← order.newIds.foldlM removeNew db
  let db := db.restoreNextIds state
  order.removed.foldlM (restoreRemoved S) db

/-- `undo_database::undo`. After an exception the database stays disabled. -/
def undo (order : IterationOrder Ix V) : Except (Thrown Ix V) (ObjectDatabase Ix V) := do
  db.fcAssert (db.disabled = false) .disabled
  db.fcAssert (db.activeSessions > 0) .noActiveSession
  match db.stack with
  | [] => .error (.emptyStack, db.disable)
  | state :: rest =>
    let db ← db.disable.restore S order state
    return { db with stack := rest, disabled := false, activeSessions := db.activeSessions - 1 }

/-- `undo_database::merge` -/
def merge (order : IterationOrder Ix V) : Except (Thrown Ix V) (ObjectDatabase Ix V) := do
  db.fcAssert (db.activeSessions > 0) .noActiveSession
  if db.activeSessions = 1 ∧ db.stack.length = 1 then
    return { db with stack := [], activeSessions := db.activeSessions - 1 }
  match db.stack with
  | state :: prev :: rest =>
    match state.mergeInto order prev with
    | some merged => return { db with stack := merged :: rest, activeSessions := db.activeSessions - 1 }
    | none => .error (.assertion, db)
  | _ => .error (.nothingToMerge, db)

/-- `undo_database::commit` -/
def commit : Except (Thrown Ix V) (ObjectDatabase Ix V) := do
  db.fcAssert (db.activeSessions > 0) .noActiveSession
  return { db with activeSessions := db.activeSessions - 1 }

/-- `undo_database::pop_commit`. After an exception the database is enabled. -/
def popCommit (order : IterationOrder Ix V) : Except (Thrown Ix V) (ObjectDatabase Ix V) := do
  db.fcAssert (db.activeSessions = 0) .activeSession
  match db.stack with
  | [] => .error (.emptyStack, db)
  | state :: rest =>
    match db.disable.restore S order state with
    | .ok db => return { db with stack := rest, disabled := false }
    | .error (e, db) => .error (e, db.enable)

end ObjectDatabase

/-! ### Runs of operations -/

/-- A call to the database by its user. -/
inductive Op (Ix V : Type)
  | create (ix : Ix) (constructor : ObjectId Ix → V)
  | modify (id : ObjectId Ix) (m : V → Except V V)
  | remove (id : ObjectId Ix)

namespace ObjectDatabase
variable {Ix V K : Type} [DecidableEq Ix] [DecidableEq K] (S : Schema Ix V K) (db : ObjectDatabase Ix V)

def apply : Op Ix V → Except (Thrown Ix V) (ObjectDatabase Ix V)
  | .create ix constructor => db.create S ix constructor
  | .modify id m => do
    let obj ← db.getObject id
    db.modify S obj m
  | .remove id => do
    let obj ← db.getObject id
    return db.remove obj

/-- The calls one after the other, up to the first that throws. -/
def applyAll (ops : List (Op Ix V)) : Except (Thrown Ix V) (ObjectDatabase Ix V) := ops.foldlM (apply S) db

end ObjectDatabase

end Khc.Db
