import Khc.Db.Undo

/-! Undo: that a session can be taken back, also after a modification that has failed, and that a session that was
    merged into another one is taken back with it. The old values are written back first and one by one, so an object
    that now holds one of their unique keys is in the way; an object that the index has lost can not be found. -/

namespace Khc.Db

open Lib ObjectDatabase

/-! ### A session of successful calls -/

section
variable {Ix V K : Type} [DecidableEq Ix] [DecidableEq K] {S : Schema Ix V K} {db db' : ObjectDatabase Ix V}
  {order : IterationOrder Ix V} {force : Bool} {ops : List (Op Ix V)}

/-- A session is restored where it was opened and no other object than one that is restored before has a unique key of
    an old value. -/
theorem undo_restores_iff (h : db.toStore.WellFormed S)
    (hops : (db.startUndoSession force).2.applyAll S ops = .ok db') (ho : db'.Iterates order) :
    db'.Restores S order db.toStore ↔
      db.Opens force ∧ S.Restorable (order.oldValues.map Sigma.fst) db.objects db'.objects := by
  by_cases hopen : db.Opens force
  · obtain ⟨-, s, hrec, hdb⟩ := Recorded.session h hopen hops
    have hstack : db'.stack = s :: db.stack.take db.maxSize := by rw [hdb]
    have hundo := fun r => Recorded.undo_eq_ok (d := db') (r := r) h.unique hrec (by rw [hdb]) (by rw [hdb]; simp)
      hstack (ho s (by rw [hstack]; rfl))
    constructor
    · rintro ⟨r, hr, -⟩
      exact ⟨hopen, ((hundo r).mp hr).1⟩
    · rintro ⟨-, hr⟩
      exact ⟨_, (hundo _).mpr ⟨hr, rfl⟩, rfl⟩
  · rw [startUndoSession_of_not_opens hopen] at hops
    refine iff_of_false ?_ fun hr => hopen hr.1
    rintro ⟨r, hr, -⟩
    exact undo_of_disabled ((applyAll_disabled hops).trans (disabled_of_not_opens hopen)) hr

end

section

/-- An index of numbers, each of them there once. -/
def numbers : Schema Unit Nat Nat := ⟨fun _ => [Object.value]⟩

/-- The database of the numbers 1 and 2. -/
def twoNumbers : ObjectDatabase Unit Nat where
  objects := (Finmap.singleton ⟨(), 0⟩ 1).insert ⟨(), 1⟩ 2
  nextId _ := ⟨(), 2⟩
  activeSessions := 0
  disabled := false
  stack := []
  maxSize := 256

/-- The number 3 is put in the place of 1. -/
def replace : Op Unit Nat := .modify ⟨(), 0⟩ fun _ => .ok 3

/-- The numbers 1 and 2 of a session, of which the first was modified, and a new one. -/
def replaced : IterationOrder Unit Nat := ⟨[⟨⟨(), 0⟩, 1⟩], [⟨(), 2⟩], []⟩

def inSession (ops : List (Op Unit Nat)) : ObjectDatabase Unit Nat :=
  leaves ((twoNumbers.startUndoSession false).2.applyAll numbers ops)

theorem undo_collides : twoNumbers.toStore.WellFormed numbers ∧
    (twoNumbers.startUndoSession false).2.applyAll numbers [replace, .create () fun _ => 1] =
      .ok (inSession [replace, .create () fun _ => 1]) ∧
    (inSession [replace, .create () fun _ => 1]).Iterates replaced ∧
    ¬(inSession [replace, .create () fun _ => 1]).Restores numbers replaced twoNumbers.toStore := by
  refine ⟨by decide, rfl, by decide, ?_⟩
  rintro ⟨r, hr, -⟩
  have hok : ((inSession [replace, .create () fun _ => 1]).undo numbers replaced).isOk = false := by decide
  rw [hr] at hok
  cases hok

theorem undo_restores_replaced :
    (inSession [replace, .create () fun _ => 4]).Restores numbers replaced twoNumbers.toStore := by
  have hops : (twoNumbers.startUndoSession false).2.applyAll numbers [replace, .create () fun _ => 4] =
      .ok (inSession [replace, .create () fun _ => 4]) := rfl
  exact (undo_restores_iff (by decide) hops (by decide)).mpr ⟨.inl rfl, by decide⟩

end

/-! ### A modification that may fail -/

section
variable {Ix V K : Type} [DecidableEq Ix] [DecidableEq K] {S : Schema Ix V K} {db db₁ : ObjectDatabase Ix V}
  {order : IterationOrder Ix V} {force : Bool} {ops : List (Op Ix V)} {id : ObjectId Ix} {v : V} {m : V → Except V V}

end

section

/-- One of two numbers of a session was modified. -/
def modified : IterationOrder Unit Nat := ⟨[⟨⟨(), 0⟩, 1⟩], [], []⟩

end

/-! ### A session that is merged -/

section
variable {Ix V K : Type} [DecidableEq Ix] [DecidableEq K]

/-- The outer session stays open, or is committed before the nested one is opened. -/
def ObjectDatabase.settle (db : ObjectDatabase Ix V) (committed : Bool) : Except (Thrown Ix V) (ObjectDatabase Ix V) :=
  if committed then db.commit else .ok db

/-- A committed session is taken back by `pop_commit`, an open one by `undo`. -/
def ObjectDatabase.takeBack (S : Schema Ix V K) (db : ObjectDatabase Ix V) (committed : Bool)
    (order : IterationOrder Ix V) : Except (Thrown Ix V) (ObjectDatabase Ix V) :=
  if committed then db.popCommit S order else db.undo S order

/-- In whatever order the containers are iterated over, the last session is taken back to the database. -/
structure ObjectDatabase.TakesBack (S : Schema Ix V K) (db : ObjectDatabase Ix V) (committed : Bool)
    (r : ObjectDatabase Ix V) : Prop where
  exists_order : ∃ order, db.Iterates order
  eq_ok : ∀ order, db.Iterates order → db.takeBack S committed order = .ok r

variable {S : Schema Ix V K} {db dc db₁ db₂ : ObjectDatabase Ix V} {s : UndoState Ix V} {rest : List (UndoState Ix V)}
  {before : Store Ix V} {order : IterationOrder Ix V} {force force' committed : Bool} {A B : List (Op Ix V)}

/-- What was recorded can be taken back where there are no unique keys. -/
theorem takesBack {d : ObjectDatabase Ix V} {c : Bool} (hkeys : ∀ ix, S.unique ix = []) (hb : S.Consistent before.objects)
    (hrec : s.Records before d.toStore) (hen : d.disabled = false)
    (hact : if c then d.activeSessions = 0 else 0 < d.activeSessions) (hstack : d.stack = s :: rest) :
    d.TakesBack S c { d with toStore := before, stack := rest, activeSessions := d.activeSessions - 1 } := by
  constructor
  case exists_order =>
    obtain ⟨order, ho⟩ := exists_iterationOrder s
    refine ⟨order, fun s' hs' => ?_⟩
    rw [hstack] at hs'
    obtain rfl := Option.some.inj hs'
    exact ho
  case eq_ok =>
    intro order ho
    have ho' : order.Of s := ho s (by rw [hstack]; rfl)
    have hr := Schema.restorable_of_no_keys hkeys (order.oldValues.map Sigma.fst) before.objects d.objects
    cases c with
    | true =>
      refine (Recorded.popCommit_eq_ok hb hrec hen hact hstack ho').mpr ⟨hr, ?_⟩
      simp only [if_true] at hact
      rw [hact]
    | false => exact (Recorded.undo_eq_ok hb hrec hen hact hstack ho').mpr ⟨hr, rfl⟩

/-- A nested session can be merged into the one before it, and taking the two back at once is taking back one after the
    other. -/
theorem merge_takesBack (hkeys : ∀ ix, S.unique ix = []) (h : db.toStore.WellFormed S) (hopen : db.Opens force)
    (hsize : 1 ≤ db.maxSize) (hact : committed = true → db.activeSessions = 0)
    (hA : (db.startUndoSession force).2.applyAll S A = .ok db₁) (hsettle : db₁.settle committed = .ok dc)
    (hB : (dc.startUndoSession force').2.applyAll S B = .ok db₂) (ho : db₂.Iterates order) :
    ∃ dm u r, db₂.merge order = .ok dm ∧ dm.TakesBack S committed r ∧
      db₂.TakesBack S false u ∧ u.TakesBack S committed r ∧ r.toStore = db.toStore := by
  obtain ⟨hwf₁, s₁, hrec₁, hdb₁⟩ := Recorded.session h hopen hA
  obtain ⟨k, hk⟩ : ∃ k, db.maxSize = k + 1 := ⟨_, (Nat.sub_add_cancel hsize).symm⟩
  have hdc : dc.toStore = db₁.toStore ∧ dc.disabled = false ∧ dc.stack.take dc.maxSize = s₁ :: (db.stack.take db.maxSize).take k ∧
      if committed then dc.activeSessions = 0 else 0 < dc.activeSessions := by
    unfold settle commit at hsettle
    cases committed with
    | true =>
      obtain ⟨-, hdc⟩ := fcAssert_bind.mp hsettle
      obtain rfl := Except.ok.inj hdc
      rw [hdb₁]
      exact ⟨rfl, rfl, by rw [hk]; rfl, hact rfl⟩
    | false =>
      obtain rfl := Except.ok.inj hsettle
      rw [hdb₁]
      exact ⟨rfl, rfl, by rw [hk]; rfl, Nat.succ_pos _⟩
  obtain ⟨hstore, hen, hstack, hopened⟩ := hdc
  obtain ⟨-, s₂, hrec₂, hdb₂⟩ := Recorded.session (d := dc) (hstore ▸ hwf₁) (.inl hen) hB
  rw [hstack] at hdb₂
  have hstack₂ : db₂.stack = s₂ :: s₁ :: (db.stack.take db.maxSize).take k := by rw [hdb₂]
  have hen₂ : db₂.disabled = false := by rw [hdb₂]
  have hact₂ : db₂.activeSessions = dc.activeSessions + 1 := by rw [hdb₂]
  rw [hstore] at hrec₂
  obtain ⟨t, ht, hrec⟩ := hrec₁.merge hrec₂ h (ho s₂ (by rw [hstack₂]; rfl))
  have hmerge := merge_eq_ok (by rw [hact₂]; exact Nat.succ_pos _) hstack₂ ht
  rw [hact₂, Nat.add_sub_cancel] at hmerge
  have hundo := takesBack (c := false) hkeys hwf₁.unique hrec₂ hen₂ (by simp [hact₂]) hstack₂
  rw [hact₂, Nat.add_sub_cancel] at hundo
  have htwo := takesBack (d := { db₂ with
    stack := t :: (db.stack.take db.maxSize).take k
    activeSessions := dc.activeSessions }) hkeys h.unique hrec hen₂ hopened rfl
  have hone := takesBack (d := { db₂ with
    toStore := db₁.toStore
    stack := s₁ :: (db.stack.take db.maxSize).take k
    activeSessions := dc.activeSessions }) hkeys h.unique hrec₁ hen₂ hopened rfl
  exact ⟨_, _, _, hmerge, htwo, hundo, hone, rfl⟩

end

section

/-- An index by id only. -/
def bare : Schema Unit Nat Nat := ⟨fun _ => []⟩

/-- A number was replaced in the outer session. -/
def outer : ObjectDatabase Unit Nat := leaves ((twoNumbers.startUndoSession false).2.applyAll bare [replace])

/-- The number is removed in the nested session. -/
def nested : ObjectDatabase Unit Nat := leaves ((outer.startUndoSession false).2.applyAll bare [.remove ⟨(), 0⟩])

theorem merge_takesBack_removed :
    ∃ dm u r, nested.merge ⟨[], [], [⟨⟨(), 0⟩, 3⟩]⟩ = .ok dm ∧ dm.TakesBack bare false r ∧
      nested.TakesBack bare false u ∧ u.TakesBack bare false r ∧ r.toStore = twoNumbers.toStore := by
  have hA : (twoNumbers.startUndoSession false).2.applyAll bare [replace] = .ok outer := rfl
  have hB : (outer.startUndoSession false).2.applyAll bare [.remove ⟨(), 0⟩] = .ok nested := rfl
  exact merge_takesBack (fun _ => rfl) (by decide) (.inl rfl) (by decide) (fun h => by cases h) hA rfl hB (by decide)

end

end Khc.Db
