import Khc.Db.Undo

/-! Sessions that are opened one inside the other. A run of calls is told with the session that each undo state comes
    from, so that it can be said which state a session acts on. -/

namespace Khc.Db

open Lib ObjectDatabase

/-- A session object that is not yet closed, and its number. -/
structure OpenSession where
  session : Session
  number : Nat

/-- The database, its open sessions (the innermost first), and the session that has pushed each undo state (the newest
    first); 0 stands for no session of the run. -/
structure Nest (Ix V : Type) where
  db : ObjectDatabase Ix V
  opened : List OpenSession
  owners : List Nat
  next : Nat

/-- A call on the undo database, or on the database between two of them. -/
inductive Command (Ix V : Type)
  | start (forceEnable : Bool)
  | commit
  | merge (order : IterationOrder Ix V)
  | undo (order : IterationOrder Ix V)
  | popCommit (order : IterationOrder Ix V)
  | setMaxSize (size : Nat)
  | call (op : Op Ix V)

namespace Nest
variable {Ix V K : Type}

/-- No session is open. -/
def start (db : ObjectDatabase Ix V) : Nest Ix V := ⟨db, [], db.stack.map fun _ => 0, 1⟩

/-- The end of the innermost session: its destructor disables the database where the session has enabled it. -/
def exit (n : Nest Ix V) (db : ObjectDatabase Ix V) (owners : List Nat) : Nest Ix V :=
  match n.opened with
  | [] => { n with db := db, owners := owners }
  | o :: rest =>
    { n with db := if o.session.disableOnExit then db.disable else db, opened := rest, owners := owners }

variable [DecidableEq Ix] [DecidableEq K] (S : Schema Ix V K) (n : Nest Ix V)

/-- A call on the undo database that returns, or a call between two of them, whether it returns or throws. The calls are
    properly nested: the innermost session is the one that is ended. -/
def step : Command Ix V → Option (Nest Ix V)
  | .start forceEnable =>
    let (session, db) := n.db.startUndoSession forceEnable
    if n.db.disabled ∧ ¬forceEnable then some n
    else some ⟨db, ⟨session, n.next⟩ :: n.opened, n.next :: n.owners.take n.db.maxSize, n.next + 1⟩
  | .commit => do
    guard (n.opened ≠ [])
    let db ← n.db.commit.toOption
    return n.exit db n.owners
  | .merge order => do
    guard (n.opened ≠ [])
    let db ← (n.db.merge order).toOption
    return n.exit db n.owners.tail
  | .undo order => do
    guard (n.opened ≠ [])
    let db ← (n.db.undo S order).toOption
    return n.exit db n.owners.tail
  | .popCommit order => do
    guard (n.opened = [])
    let db ← (n.db.popCommit S order).toOption
    return { n with db := db, owners := n.owners.tail }
  | .setMaxSize size => some { n with db := { n.db with maxSize := size } }
  | .call op =>
    let db := leaves (n.db.apply S op)
    -- a hook pushes a state where there is none
    some { n with db := db, owners := if db.stack.length = n.db.stack.length then n.owners else 0 :: n.owners }

end Nest

/-! ### What the calls do to the stack -/

/-- Apart from the store, the databases differ at most in a state that a hook has pushed on an empty stack. -/
structure ObjectDatabase.SameSessions {Ix V : Type} (db db' : ObjectDatabase Ix V) : Prop where
  activeSessions : db'.activeSessions = db.activeSessions
  disabled : db'.disabled = db.disabled
  maxSize : db'.maxSize = db.maxSize
  length : db'.stack.length = db.stack.length ∨ db.stack = [] ∧ db'.stack.length = 1

section
variable {Ix V K : Type} {d r : ObjectDatabase Ix V} {hook : UndoState Ix V → UndoState Ix V} {st : Store Ix V}

namespace ObjectDatabase

theorem SameSessions.refl (d : ObjectDatabase Ix V) (st : Store Ix V) : d.SameSessions { d with toStore := st } :=
  ⟨rfl, rfl, rfl, .inl rfl⟩

theorem SameSessions.record (d : ObjectDatabase Ix V) (hook : UndoState Ix V → UndoState Ix V) (st : Store Ix V) :
    d.SameSessions { d.record hook with toStore := st } := by
  unfold ObjectDatabase.record
  split
  · exact .refl d st
  · cases hs : d.stack with
    | nil => exact ⟨rfl, rfl, rfl, .inr ⟨hs, rfl⟩⟩
    | cons s rest => exact ⟨rfl, rfl, rfl, .inl (by simp [hs])⟩

/-- A hook looks only at the undo states. -/
theorem record_store (d : ObjectDatabase Ix V) (hook : UndoState Ix V → UndoState Ix V) (st : Store Ix V) :
    { d with toStore := st }.record hook = { d.record hook with toStore := st } := by
  obtain ⟨store, activeSessions, disabled, stack, maxSize⟩ := d
  cases disabled
  · cases stack <;> rfl
  · rfl

variable [DecidableEq Ix] [DecidableEq K] {S : Schema Ix V K} {s : UndoState Ix V} {order : IterationOrder Ix V}
  {id : ObjectId Ix} {v : V} {m : V → Except V V}

/-- Calls to the indexes open and end no session. -/
theorem sameSessions_apply (S : Schema Ix V K) (d : ObjectDatabase Ix V) (op : Op Ix V) :
    d.SameSessions (leaves (d.apply S op)) := by
  cases op with
  | create ix constructor =>
    simp only [apply, create, fcAssert, bind, Except.bind]
    split_ifs
    · rw [record_store]
      exact .record d _ _
    · exact .refl d _
  | modify id m =>
    cases hv : d.objects.lookup id with
    | none =>
      simp only [apply, getObject, hv, bind, Except.bind, leaves]
      exact .refl d _
    | some v =>
      by_cases hcol : d.Collides S id v m
      · rw [leaves_modify_of_collides hv hcol]
        exact .record d _ _
      · rw [leaves_modify hv hcol]
        exact .record d _ _
  | remove id =>
    cases hv : d.objects.lookup id with
    | none =>
      simp only [apply, getObject, hv, bind, Except.bind, leaves]
      exact .refl d _
    | some v =>
      simp only [apply, getObject, hv, bind, Except.bind]
      exact .record d _ _

/-- The loops of `undo` change only the store. -/
theorem restore_frame (hd : d.disabled = true) (h : d.restore S order s = .ok r) :
    ∃ st, r = { d with toStore := st } := by
  have hframe : ∃ st, d = { d with toStore := st } := ⟨d.toStore, rfl⟩
  rw [restore, bind_eq_ok] at h
  obtain ⟨d₁, h₁, h⟩ := h
  rw [bind_eq_ok] at h
  obtain ⟨d₂, h₂, h₃⟩ := h
  have hfirst : ∃ st, d₁ = { d with toStore := st } := by
    refine foldlM_invariant (I := fun r => ∃ st, r = { d with toStore := st }) (fun b e c hb hc => ?_) hframe h₁
    obtain ⟨st, rfl⟩ := hb
    obtain ⟨v, -, hc⟩ := getObject_bind.mp hc
    obtain ⟨w, -, -, rfl⟩ := modify_eq_ok.mp hc
    rw [record_of_disabled (by exact hd)]
    exact ⟨_, rfl⟩
  have hsecond : ∃ st, d₂ = { d with toStore := st } := by
    refine foldlM_invariant (I := fun r => ∃ st, r = { d with toStore := st }) (fun b id c hb hc => ?_) hfirst h₂
    obtain ⟨st, rfl⟩ := hb
    obtain ⟨v, -, hc⟩ := getObject_bind.mp hc
    obtain rfl := Except.ok.inj hc
    rw [remove, record_of_disabled (by exact hd)]
    exact ⟨_, rfl⟩
  refine foldlM_invariant (I := fun r => ∃ st, r = { d with toStore := st }) (fun b e c hb hc => ?_) ?_ h₃
  · obtain ⟨st, rfl⟩ := hb
    obtain ⟨-, rfl⟩ := insert_eq_ok.mp hc
    rw [record_of_disabled (by exact hd)]
    exact ⟨_, rfl⟩
  · obtain ⟨st, rfl⟩ := hsecond
    exact ⟨_, rfl⟩

theorem undo_inv (h : d.undo S order = .ok r) : 0 < d.activeSessions ∧ d.disabled = false ∧ ∃ s rest st,
    d.stack = s :: rest ∧ r = { d with toStore := st, stack := rest, activeSessions := d.activeSessions - 1 } := by
  obtain ⟨hen, h⟩ := fcAssert_bind.mp h
  obtain ⟨hact, h⟩ := fcAssert_bind.mp h
  cases hs : d.stack with
  | nil =>
    rw [hs] at h
    cases h
  | cons s rest =>
    rw [hs] at h
    obtain ⟨d₁, h₁, h⟩ := bind_eq_ok.mp h
    obtain ⟨st, rfl⟩ := restore_frame (by rfl) h₁
    obtain rfl := Except.ok.inj h
    refine ⟨hact, hen, s, rest, st, rfl, ?_⟩
    rw [← hen]
    rfl

theorem popCommit_inv (h : d.popCommit S order = .ok r) : d.activeSessions = 0 ∧ ∃ s rest st,
    d.stack = s :: rest ∧ r = { d with toStore := st, stack := rest, disabled := false } := by
  obtain ⟨hact, h⟩ := fcAssert_bind.mp h
  cases hs : d.stack with
  | nil =>
    rw [hs] at h
    cases h
  | cons s rest =>
    rw [hs] at h
    simp only at h
    cases hr : d.disable.restore S order s with
    | error t =>
      rw [hr] at h
      cases h
    | ok d₁ =>
      rw [hr] at h
      obtain ⟨st, rfl⟩ := restore_frame (by rfl) hr
      obtain rfl := Except.ok.inj h
      exact ⟨hact, s, rest, st, rfl, rfl⟩

omit [DecidableEq K] [DecidableEq Ix] in
theorem commit_inv (h : d.commit = .ok r) :
    0 < d.activeSessions ∧ r = { d with activeSessions := d.activeSessions - 1 } := by
  obtain ⟨hact, h⟩ := fcAssert_bind.mp h
  exact ⟨hact, (Except.ok.inj h).symm⟩

/-- A merge takes the newest state away, either into the one before it or, as the only one, for good. -/
theorem merge_inv (h : d.merge order = .ok r) : 0 < d.activeSessions ∧ ∃ s rest stack,
    d.stack = s :: rest ∧ stack.length = rest.length ∧
      r = { d with stack := stack, activeSessions := d.activeSessions - 1 } := by
  obtain ⟨hact, h⟩ := fcAssert_bind.mp h
  by_cases hone : d.activeSessions = 1 ∧ d.stack.length = 1
  · rw [if_pos hone] at h
    obtain rfl := Except.ok.inj h
    obtain ⟨s, hs⟩ := List.length_eq_one_iff.mp hone.2
    exact ⟨hact, s, [], [], hs, rfl, rfl⟩
  · rw [if_neg hone] at h
    cases hs : d.stack with
    | nil =>
      rw [hs] at h
      cases h
    | cons s rest =>
      cases rest with
      | nil =>
        rw [hs] at h
        cases h
      | cons prev rest =>
        rw [hs] at h
        simp only at h
        cases hm : s.mergeInto order prev with
        | none =>
          rw [hm] at h
          cases h
        | some merged =>
          rw [hm] at h
          obtain rfl := Except.ok.inj h
          exact ⟨hact, s, prev :: rest, merged :: rest, rfl, rfl, rfl⟩

end ObjectDatabase

end

end Khc.Db
