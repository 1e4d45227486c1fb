import Khc.Db.Restore

/-! Sessions: what `undo`, `merge` and `pop_commit` make of a database that has been recorded since a session was
    opened. -/

namespace Khc.Db

open Lib

section
variable {Ix V : Type}

/-- A session is opened where recording is enabled or is made so. -/
def ObjectDatabase.Opens (d : ObjectDatabase Ix V) (forceEnable : Bool) : Prop :=
  d.disabled = false ∨ forceEnable = true

/-- The iteration is one of the containers of the last state. -/
def ObjectDatabase.Iterates (d : ObjectDatabase Ix V) (order : IterationOrder Ix V) : Prop :=
  ∀ s ∈ d.stack.head?, order.Of s

/-- The containers of a state can be iterated over. -/
theorem exists_iterationOrder (s : UndoState Ix V) : ∃ order : IterationOrder Ix V, order.Of s := by
  obtain ⟨oldValues, hold⟩ := exists_visits s.oldValues
  obtain ⟨removed, hrem⟩ := exists_visits s.removed
  obtain ⟨newIds, hnew⟩ := Quot.exists_rep s.newIds.val
  exact ⟨⟨oldValues, newIds, removed⟩, hold, hnew, hrem⟩

instance [DecidableEq Ix] [DecidableEq V] (d : ObjectDatabase Ix V) (order : IterationOrder Ix V) :
    Decidable (d.Iterates order) :=
  inferInstanceAs (Decidable (∀ s ∈ _, _))

variable {d : ObjectDatabase Ix V} {forceEnable : Bool}

/-- What an opened session makes of the database. -/
theorem ObjectDatabase.startUndoSession_of_opens (h : d.Opens forceEnable) :
    (d.startUndoSession forceEnable).2 = { d with
      disabled := false
      stack := {} :: d.stack.take d.maxSize
      activeSessions := d.activeSessions + 1 } := by
  unfold startUndoSession
  rcases h with h | rfl
  · simp [h]
  · simp

theorem ObjectDatabase.disabled_of_not_opens (h : ¬d.Opens forceEnable) : d.disabled = true := by
  rw [← Bool.not_eq_false]
  exact fun hen => h (.inl hen)

theorem ObjectDatabase.startUndoSession_of_not_opens (h : ¬d.Opens forceEnable) :
    (d.startUndoSession forceEnable).2 = d := by
  have hforce : forceEnable = false := by
    rw [← Bool.not_eq_true]
    exact fun hforce => h (.inr hforce)
  simp [startUndoSession, disabled_of_not_opens h, hforce]

end

section
variable {Ix V K : Type} [DecidableEq Ix] [DecidableEq K] {S : Schema Ix V K} {d r : ObjectDatabase Ix V}
  {s : UndoState Ix V} {rest : List (UndoState Ix V)} {order : IterationOrder Ix V} {before : Store Ix V}
  {forceEnable : Bool} {op : Op Ix V} {ops : List (Op Ix V)}

omit [DecidableEq K] in
/-- A session that has just been opened has recorded nothing. -/
theorem Recorded.start (h : d.toStore.WellFormed S) (hopen : d.Opens forceEnable) :
    Recorded S (d.startUndoSession forceEnable).2 (d.startUndoSession forceEnable).2 := by
  rw [ObjectDatabase.startUndoSession_of_opens hopen]
  exact ⟨h, {}, rfl, UndoState.records_empty _⟩

/-- Calls in a session are recorded from its start. -/
theorem Recorded.session (h : d.toStore.WellFormed S) (hopen : d.Opens forceEnable)
    (hs : (d.startUndoSession forceEnable).2.applyAll S ops = .ok r) :
    r.toStore.WellFormed S ∧ ∃ s, s.Records d.toStore r.toStore ∧
      r = { d with
        toStore := r.toStore
        disabled := false
        stack := s :: d.stack.take d.maxSize
        activeSessions := d.activeSessions + 1 } := by
  have hstart := Recorded.start h hopen
  rw [ObjectDatabase.startUndoSession_of_opens hopen] at hs hstart
  have hend := hstart.applyAll (by exact h) (by rfl) hs
  obtain ⟨s, hdb, hrec⟩ := hend.state
  exact ⟨hend.wellFormed, s, hrec, hdb⟩

namespace ObjectDatabase

omit [DecidableEq Ix] in
@[simp] theorem record_disabled {hook : UndoState Ix V → UndoState Ix V} : (d.record hook).disabled = d.disabled := by
  unfold record
  split
  · rfl
  · split <;> rfl

theorem apply_disabled (h : d.apply S op = .ok r) : r.disabled = d.disabled := by
  cases op with
  | create ix constructor =>
    obtain ⟨-, rfl⟩ := create_eq_ok.mp h
    exact record_disabled
  | modify id m =>
    obtain ⟨v, -, h⟩ := getObject_bind.mp h
    obtain ⟨w, -, -, rfl⟩ := modify_eq_ok.mp h
    exact record_disabled
  | remove id =>
    obtain ⟨v, -, h⟩ := getObject_bind.mp h
    obtain rfl := Except.ok.inj h
    exact record_disabled

theorem applyAll_disabled (h : d.applyAll S ops = .ok r) : r.disabled = d.disabled := by
  unfold applyAll at h
  induction ops generalizing d with
  | nil =>
    obtain rfl := Except.ok.inj h
    rfl
  | cons op ops ih =>
    rw [List.foldlM_cons, bind_eq_ok] at h
    obtain ⟨d₁, hop, h⟩ := h
    exact (ih h).trans (apply_disabled hop)

/-- The session is undone, and the store is then what it was. -/
def Restores (S : Schema Ix V K) (d : ObjectDatabase Ix V) (order : IterationOrder Ix V) (start : Store Ix V) : Prop :=
  ∃ r, d.undo S order = .ok r ∧ r.toStore = start

theorem undo_of_disabled (h : d.disabled = true) : d.undo S order ≠ .ok r := by
  intro hs
  have hen := (fcAssert_bind.mp hs).1
  rw [h] at hen
  cases hen

/-- Undoing comes to its end where the loops do. -/
theorem undo_eq_ok (hen : d.disabled = false) (hact : 0 < d.activeSessions) (hstack : d.stack = s :: rest) :
    d.undo S order = .ok r ↔ ∃ d₁, d.disable.restore S order s = .ok d₁ ∧
      r = { d₁ with stack := rest, disabled := false, activeSessions := d₁.activeSessions - 1 } := by
  unfold undo
  rw [fcAssert_bind, fcAssert_bind, hstack]
  simp only [hen, hact, true_and]
  exact bind_eq_ok.trans (exists_congr fun _ => and_congr_right fun _ => pure_eq_ok.trans eq_comm)

theorem popCommit_eq_ok (hact : d.activeSessions = 0) (hstack : d.stack = s :: rest) :
    d.popCommit S order = .ok r ↔ ∃ d₁, d.disable.restore S order s = .ok d₁ ∧
      r = { d₁ with stack := rest, disabled := false } := by
  unfold popCommit
  rw [fcAssert_bind, hstack]
  simp only [hact, true_and]
  cases d.disable.restore S order s with
  | error t => simp
  | ok d₁ =>
    simp only [Except.ok.injEq, exists_eq_left']
    exact pure_eq_ok.trans eq_comm

end ObjectDatabase

/-! ### A modification that may fail -/

section
variable {id : ObjectId Ix} {v : V} {m : V → Except V V}

/-- What the callback makes of the object, also when it throws. -/
def reached : Except V V → V
  | .ok w => w
  | .error w => w

omit [DecidableEq K] in
/-- A modified object is one that will be restored or removed. -/
theorem UndoState.onModify_mem (s : UndoState Ix V) (o : Object Ix V) :
    o.id ∈ (s.onModify o).oldValues ∨ o.id ∈ (s.onModify o).newIds := by
  unfold UndoState.onModify
  split_ifs with hnew hold
  · exact .inr hnew
  · exact .inl hold
  · exact .inl (Finmap.mem_insert.mpr (.inl rfl))

namespace ObjectDatabase

/-- The callback returns, and another object has a unique key of what it has made. -/
def Collides (S : Schema Ix V K) (d : ObjectDatabase Ix V) (id : ObjectId Ix) (v : V) (m : V → Except V V) : Prop :=
  ∃ w, m v = .ok w ∧ d.taken S ⟨id, w⟩ = true

theorem leaves_modify (hv : d.objects.lookup id = some v) (h : ¬d.Collides S id v m) :
    leaves (d.apply S (.modify id m)) =
      { d.record (·.onModify ⟨id, v⟩) with toStore := d.toStore.put ⟨id, reached (m v)⟩ } := by
  cases hm : m v with
  | error w =>
    simp only [apply, getObject, hv, bind, Except.bind, modify, hm, record_toStore]
    rfl
  | ok w =>
    have htaken : d.taken S ⟨id, w⟩ = false := by
      rw [← Bool.not_eq_true]
      exact fun ht => h ⟨w, hm, ht⟩
    rw [show d.apply S (.modify id m) = .ok _ from getObject_bind.mpr ⟨v, hv, modify_eq_ok.mpr ⟨w, hm, htaken, rfl⟩⟩]
    rfl

theorem leaves_modify_of_collides (hv : d.objects.lookup id = some v) (h : d.Collides S id v m) :
    leaves (d.apply S (.modify id m)) =
      { d.record (·.onModify ⟨id, v⟩) with toStore := d.toStore.erase id } := by
  obtain ⟨w, hm, ht⟩ := h
  have htaken : (d.record (·.onModify ⟨id, v⟩)).taken S ⟨id, w⟩ = true := by rw [taken, record_toStore, ← taken, ht]
  simp only [apply, getObject, hv, bind, Except.bind, modify, hm, fcAssert, htaken, record_toStore]
  rfl

end ObjectDatabase

end

/-- What was recorded is undone exactly where the old values can be written back in their order. -/
theorem Recorded.undo_eq_ok (hb : S.Consistent before.objects) (hrec : s.Records before d.toStore)
    (hen : d.disabled = false) (hact : 0 < d.activeSessions)
    (hstack : d.stack = s :: rest) (ho : order.Of s) :
    d.undo S order = .ok r ↔
      S.Restorable (order.oldValues.map Sigma.fst) before.objects d.objects ∧
        r = { d with toStore := before, stack := rest, activeSessions := d.activeSessions - 1 } := by
  rw [ObjectDatabase.undo_eq_ok hen hact hstack]
  have hrestore := fun d₁ => ObjectDatabase.restore_eq_ok (d := d.disable) (r := d₁) rfl hb hrec ho
  constructor
  · rintro ⟨d₁, h₁, rfl⟩
    obtain ⟨hr, rfl⟩ := (hrestore d₁).mp h₁
    refine ⟨hr, ?_⟩
    rw [← hen]
    rfl
  · rintro ⟨hr, rfl⟩
    refine ⟨_, (hrestore _).mpr ⟨hr, rfl⟩, ?_⟩
    rw [← hen]
    rfl

/-- The last committed state is popped under the same condition. -/
theorem Recorded.popCommit_eq_ok (hb : S.Consistent before.objects) (hrec : s.Records before d.toStore)
    (hen : d.disabled = false) (hact : d.activeSessions = 0)
    (hstack : d.stack = s :: rest) (ho : order.Of s) :
    d.popCommit S order = .ok r ↔
      S.Restorable (order.oldValues.map Sigma.fst) before.objects d.objects ∧
        r = { d with toStore := before, stack := rest } := by
  rw [ObjectDatabase.popCommit_eq_ok hact hstack]
  have hrestore := fun d₁ => ObjectDatabase.restore_eq_ok (d := d.disable) (r := d₁) rfl hb hrec ho
  constructor
  · rintro ⟨d₁, h₁, rfl⟩
    obtain ⟨hr, rfl⟩ := (hrestore d₁).mp h₁
    refine ⟨hr, ?_⟩
    rw [← hen]
    rfl
  · rintro ⟨hr, rfl⟩
    refine ⟨_, (hrestore _).mpr ⟨hr, rfl⟩, ?_⟩
    rw [← hen]
    rfl

omit [DecidableEq K] in
/-- Without unique keys nothing is in the way. -/
theorem Schema.restorable_of_no_keys (hkeys : ∀ ix, S.unique ix = []) (ids : List (ObjectId Ix))
    (before after : Values Ix V) : S.Restorable ids before after := by
  intro a _ w _ b v _ _ hclash
  obtain ⟨-, key, hkey, -⟩ := hclash
  rw [hkeys] at hkey
  cases hkey

theorem ObjectDatabase.merge_eq_ok {prev t : UndoState Ix V} (hact : 0 < d.activeSessions)
    (hstack : d.stack = s :: prev :: rest) (ht : s.mergeInto order prev = some t) :
    d.merge order = .ok { d with stack := t :: rest, activeSessions := d.activeSessions - 1 } := by
  unfold merge
  rw [fcAssert_bind, hstack]
  simp [hact, ht]
  rfl

end

end Khc.Db
