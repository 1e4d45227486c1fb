import Khc.Db.Sessions
import Khc.Lib.Run
import Khc.Theorems.Undo

/-! Nested sessions: that the states of the open sessions are on top of the stack, in their order. A start drops the
    oldest states beyond the maximum size, whether or not their sessions are open. -/

namespace Khc.Db

open Lib ObjectDatabase

namespace Nest
variable {Ix V K : Type}

/-- Each open session has its own state on the stack, and the states lie as the sessions are nested. -/
structure Kept (n : Nest Ix V) : Prop where
  active : n.db.activeSessions = n.opened.length
  length : n.owners.length = n.db.stack.length
  own : n.opened.map (·.number) <+: n.owners
  once : ∀ o ∈ n.opened, n.owners.count o.number = 1
  fresh : ∀ i ∈ n.owners, i < n.next
  numbered : 0 < n.next

/-- There are never more active sessions than undo states. -/
theorem Kept.active_le {n : Nest Ix V} (h : n.Kept) : n.db.activeSessions ≤ n.db.stack.length := by
  have hle := h.own.length_le
  rw [List.length_map, ← h.active, h.length] at hle
  exact hle

/-- A start leaves room for the states of the active sessions, and a commit ends the only one. -/
def Fits (n : Nest Ix V) : Command Ix V → Prop
  | .start forceEnable => n.db.Opens forceEnable → n.db.activeSessions ≤ n.db.maxSize
  | .commit => n.db.activeSessions ≤ 1
  | _ => True

theorem start_kept {db : ObjectDatabase Ix V} (h : db.activeSessions = 0) : (start db).Kept where
  active := h
  length := List.length_map _
  own := List.nil_prefix
  once o ho := by cases ho
  fresh i hi := by
    obtain ⟨s, -, rfl⟩ := List.mem_map.mp hi
    exact Nat.zero_lt_one
  numbered := Nat.zero_lt_one

/-- A session is opened on the states that are kept. -/
theorem Kept.push {n : Nest Ix V} (h : n.Kept) {db : ObjectDatabase Ix V} {session : Session} {size : Nat}
    (hact : db.activeSessions = n.db.activeSessions + 1) (hlen : db.stack.length = (n.db.stack.take size).length + 1)
    (hsize : n.db.activeSessions ≤ size) :
    Kept ⟨db, ⟨session, n.next⟩ :: n.opened, n.next :: n.owners.take size, n.next + 1⟩ := by
  have hnum : (n.opened.map (·.number)).length ≤ size := by rwa [List.length_map, ← h.active]
  have hown : n.opened.map (·.number) <+: n.owners.take size := List.prefix_take_iff.mpr ⟨h.own, hnum⟩
  constructor
  case active => simp [hact, h.active]
  case length => simp [hlen, h.length]
  case own =>
    rw [List.map_cons]
    exact List.cons_prefix_cons.mpr ⟨rfl, hown⟩
  case once =>
    intro o ho
    have hfresh : n.next ∉ n.owners.take size := fun hmem => lt_irrefl _ (h.fresh _ (List.mem_of_mem_take hmem))
    rcases List.mem_cons.mp ho with rfl | ho
    · simp [List.count_eq_zero_of_not_mem hfresh]
    · have hmem : o.number ∈ n.owners.take size := hown.subset (List.mem_map_of_mem ho)
      have hle := (List.take_sublist size n.owners).count_le o.number
      have hpos := List.count_pos_iff.mpr hmem
      have hne : n.next ≠ o.number := fun heq => hfresh (heq ▸ hmem)
      rw [h.once o ho] at hle
      rw [List.count_cons_of_ne hne]
      omega
  case fresh =>
    intro i hi
    rcases List.mem_cons.mp hi with rfl | hi
    · exact Nat.lt_succ_self _
    · exact (h.fresh i (List.mem_of_mem_take hi)).trans (Nat.lt_succ_self _)
  case numbered => exact Nat.succ_pos _

/-- The innermost session takes its own state away. -/
theorem Kept.pop {n : Nest Ix V} (h : n.Kept) {o : OpenSession} {rest : List OpenSession} (ho : n.opened = o :: rest)
    {db : ObjectDatabase Ix V} (hact : db.activeSessions = n.db.activeSessions - 1)
    (hlen : db.stack.length = n.db.stack.length - 1) : Kept { n with db := db, opened := rest, owners := n.owners.tail } := by
  obtain ⟨tail, hown⟩ := h.own
  rw [ho, List.map_cons, List.cons_append] at hown
  constructor
  case active => rw [hact, h.active, ho, List.length_cons, Nat.add_sub_cancel]
  case length => rw [List.length_tail, h.length, hlen]
  case own =>
    rw [← hown]
    exact List.prefix_append _ _
  case once =>
    intro o' ho'
    have honce := h.once o' (ho ▸ List.mem_cons_of_mem _ ho')
    have hmem : o'.number ∈ rest.map (·.number) ++ tail := List.mem_append_left _ (List.mem_map_of_mem ho')
    have hpos := List.count_pos_iff.mpr hmem
    rw [← hown, List.count_cons] at honce
    rw [← hown, List.tail_cons]
    split at honce
    · omega
    · exact honce
  case fresh => exact fun i hi => h.fresh i (List.mem_of_mem_tail hi)
  case numbered => exact h.numbered

/-- Where no session is open, it does not matter whose the states are. -/
theorem Kept.closed {n : Nest Ix V} (h : n.Kept) {d : ObjectDatabase Ix V} {l : List Nat}
    (hact : d.activeSessions = 0) (hlen : l.length = d.stack.length) (hsub : ∀ i ∈ l, i ∈ n.owners ∨ i = 0) :
    Kept { n with db := d, opened := [], owners := l } where
  active := hact
  length := hlen
  own := List.nil_prefix
  once o ho := by cases ho
  fresh i hi := by
    rcases hsub i hi with hi | rfl
    · exact h.fresh i hi
    · exact h.numbered
  numbered := h.numbered

/-- Calls between those on the undo database leave the states where they are. -/
theorem Kept.call {n : Nest Ix V} (h : n.Kept) {db : ObjectDatabase Ix V} (hs : n.db.SameSessions db) :
    Kept { n with db := db, owners := if db.stack.length = n.db.stack.length then n.owners else 0 :: n.owners } := by
  by_cases hlen : db.stack.length = n.db.stack.length
  · rw [if_pos hlen]
    exact ⟨hs.activeSessions.trans h.active, h.length.trans hlen.symm, h.own, h.once, h.fresh, h.numbered⟩
  · -- only an empty stack gets a state, and then no session is open
    obtain ⟨hnil, hone⟩ := hs.length.resolve_left hlen
    have hact := h.active_le
    rw [hnil, List.length_nil, Nat.le_zero] at hact
    have hopened : n.opened = [] := List.length_eq_zero_iff.mp (h.active ▸ hact)
    have howners : n.owners = [] := List.length_eq_zero_iff.mp (by rw [h.length, hnil]; rfl)
    rw [if_neg hlen, howners]
    have hclosed := h.closed (l := [0]) (d := db) (hs.activeSessions.trans hact) (by rw [hone]; rfl) (by simp)
    rwa [hopened]

/-- The destructor of a session may disable the database, and does no more. -/
theorem exit_eq {n : Nest Ix V} {o : OpenSession} {rest : List OpenSession} (ho : n.opened = o :: rest)
    {db : ObjectDatabase Ix V} {owners : List Nat} : n.exit db owners =
      { n with db := { db with disabled := o.session.disableOnExit || db.disabled }, opened := rest, owners := owners } := by
  unfold exit
  rw [ho]
  simp only
  cases o.session.disableOnExit <;> rfl

theorem end_inv {α : Type} {ε : Type} {p : Prop} [Decidable p] {x : Except ε α} {f : α → Nest Ix V} {n' : Nest Ix V}
    (h : (do guard p; let a ← x.toOption; return f a) = some n') : ∃ a, p ∧ x = .ok a ∧ f a = n' := by
  by_cases hp : p
  · cases x with
    | error e => simp [hp, Except.toOption] at h
    | ok a =>
      simp only [hp, guard_true, Except.toOption] at h
      exact ⟨a, hp, rfl, Option.some.inj h⟩
  · simp [hp] at h

variable [DecidableEq Ix] [DecidableEq K] {S : Schema Ix V K} {n n' : Nest Ix V} {c : Command Ix V}

theorem Kept.step (h : n.Kept) (hfit : n.Fits c) (hs : n.step S c = some n') : n'.Kept := by
  cases c with
  | start forceEnable =>
    simp only [Nest.step] at hs
    split at hs
    · obtain rfl := Option.some.inj hs
      exact h
    · rename_i hopen
      obtain rfl := Option.some.inj hs
      have hopens : n.db.Opens forceEnable := by
        rw [not_and_or, not_not, Bool.not_eq_true] at hopen
        exact hopen
      have hstart := startUndoSession_of_opens hopens
      exact h.push (by rw [hstart]) (by rw [hstart]; rfl) (hfit hopens)
  | commit =>
    obtain ⟨db, hopened, hdb, rfl⟩ := end_inv hs
    obtain ⟨hact, rfl⟩ := commit_inv hdb
    obtain ⟨o, ho⟩ : ∃ o, n.opened = [o] := by
      have hone : n.db.activeSessions ≤ 1 := hfit
      rw [h.active] at hact hone
      exact List.length_eq_one_iff.mp (by omega)
    rw [exit_eq ho]
    refine h.closed ?_ ?_ fun i hi => .inl hi
    · simp only [h.active, ho, List.length_singleton]
    · exact h.length
  | merge order =>
    obtain ⟨db, hopened, hdb, rfl⟩ := end_inv hs
    obtain ⟨hact, s, rest, stack, hstack, hlen, rfl⟩ := merge_inv hdb
    obtain ⟨o, os, ho⟩ := List.exists_cons_of_ne_nil hopened
    rw [exit_eq ho]
    refine h.pop ho ?_ ?_
    · rfl
    · simp only [hstack, List.length_cons, Nat.add_sub_cancel, hlen]
  | undo order =>
    obtain ⟨db, hopened, hdb, rfl⟩ := end_inv hs
    obtain ⟨hact, hen, s, rest, st, hstack, rfl⟩ := undo_inv hdb
    obtain ⟨o, os, ho⟩ := List.exists_cons_of_ne_nil hopened
    rw [exit_eq ho]
    refine h.pop ho ?_ ?_
    · rfl
    · simp only [hstack, List.length_cons, Nat.add_sub_cancel]
  | popCommit order =>
    obtain ⟨db, hopened, hdb, rfl⟩ := end_inv hs
    obtain ⟨hact, s, rest, st, hstack, rfl⟩ := popCommit_inv hdb
    have hclosed := h.closed (d := { n.db with toStore := st, stack := rest, disabled := false })
      (l := n.owners.tail) hact (by rw [List.length_tail, h.length, hstack]; rfl)
      fun i hi => .inl (List.mem_of_mem_tail hi)
    rwa [← hopened] at hclosed
  | setMaxSize size =>
    obtain rfl := Option.some.inj hs
    exact ⟨h.active, h.length, h.own, h.once, h.fresh, h.numbered⟩
  | call op =>
    obtain rfl := Option.some.inj hs
    exact h.call (sameSessions_apply S n.db op)

end Nest

/-- In every run whose starts leave room for the states of the active sessions and whose commits end the only one, each
    open session has its own state on the stack. -/
theorem sessions_kept {Ix V K : Type} [DecidableEq Ix] [DecidableEq K] {S : Schema Ix V K} {db : ObjectDatabase Ix V}
    {n : Nest Ix V} (h₀ : db.activeSessions = 0) (h : Reaches (Nest.step S) Nest.Fits (Nest.start db) n) :
    n.Kept ∧ n.db.activeSessions ≤ n.db.stack.length := by
  have hkept := h.invariant (fun _ _ _ hkept hfit hs => hkept.step hfit hs) (Nest.start_kept h₀)
  exact ⟨hkept, hkept.active_le⟩

section

/-- No maximum size is set below 2. -/
def AtLeastTwo (_ : Nest Unit Nat) (c : Command Unit Nat) : Prop := ∀ size, c = .setMaxSize size → 2 ≤ size

theorem sessions_lost : ∃ n, Reaches (Nest.step numbers) AtLeastTwo (Nest.start twoNumbers) n ∧
    n.db.stack.length < n.db.activeSessions ∧ ¬n.Kept := by
  have hstart : ∀ n, AtLeastTwo n (.start false) := fun _ _ h => by cases h
  have hrun : Reaches (Nest.step numbers) AtLeastTwo (Nest.start twoNumbers) _ :=
    .step (.step (.step (.step (.step .refl (i := .setMaxSize 2) (fun _ h => by cases h; decide) rfl) (hstart _) rfl)
      (hstart _) rfl) (hstart _) rfl) (hstart _) rfl
  exact ⟨_, hrun, by decide, fun h => absurd h.active_le (by decide)⟩

theorem sessions_kept_nested : ∃ n, (Nest.start twoNumbers).step numbers (.start false) >>= (·.step numbers (.start false)) = some n ∧
    n.db.activeSessions = 2 ∧ n.Kept ∧ n.db.activeSessions ≤ n.db.stack.length := by
  have hrun : Reaches (Nest.step numbers) Nest.Fits (Nest.start twoNumbers) _ :=
    .step (.step .refl (i := .start false) (fun _ => by decide) rfl) (i := .start false) (fun _ => by decide) rfl
  exact ⟨_, rfl, rfl, sessions_kept rfl hrun⟩

end

end Khc.Db
