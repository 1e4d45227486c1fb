import Khc.Db.Listing
import Khc.Db.Sessions

/-! What runs leave listed. A modification that is interrupted leaves the object with other members than are listed, and the session that
    is undone makes its changes from those. -/

namespace Khc.Db

open Lib

namespace Watched
variable {Ix V K M σ : Type} [DecidableEq Ix] [DecidableEq K] [DecidableEq M] {S : Schema Ix V K} {H : Hooks Ix V σ}
  {listed : σ → ObjectId Ix → Finset M} {before : σ → Finset M} {members : V → Finset M} {w w₁ w' : Watched Ix V σ} {id : ObjectId Ix}
  {order : IterationOrder Ix V} {state : UndoState Ix V} {item : Σ _ : ObjectId Ix, V}

/-! ### Undoing -/

omit [DecidableEq M] in
theorem restoreOldValue_eq_some (h : w.restoreOldValue S H item = some w') :
    ∃ v, w.db.objects.lookup item.1 = some v ∧ w'.db.objects = w.db.objects.insert item.1 item.2 ∧
      w'.index = H.objectModified ⟨item.1, item.2⟩ (H.aboutToModify ⟨item.1, v⟩ w.index) := by
  obtain ⟨⟨id, v⟩, hobj, h⟩ := Option.bind_eq_some_iff.mp h
  obtain ⟨rfl, hv⟩ := getObject_eq_some hobj
  obtain ⟨_, ⟨⟩, hobjects, hindex⟩ := modify_changes h
  exact ⟨v, hv, hobjects, hindex⟩

omit [DecidableEq K] [DecidableEq M] in
theorem removeNew_eq_some (h : w.removeNew H id = some w') :
    ∃ v, w.db.objects.lookup id = some v ∧ w'.db.objects = w.db.objects.erase id ∧ w'.index = H.objectRemoved ⟨id, v⟩ w.index := by
  obtain ⟨⟨_, v⟩, hobj, hremove⟩ := Option.bind_eq_some_iff.mp h
  obtain ⟨rfl, hv⟩ := getObject_eq_some hobj
  obtain rfl := Option.some.inj hremove
  refine ⟨v, hv, ?_, rfl⟩
  show ((w.db.record _).toStore.erase _).objects = _
  rw [ObjectDatabase.record_toStore]
  rfl

omit [DecidableEq M] in
theorem restoreOldValue_changes (h : w.restoreOldValue S H item = some w') : w.Changes H item.1 w' := by
  obtain ⟨v, hv, hobjects, hindex⟩ := restoreOldValue_eq_some h
  exact .modified hv hobjects hindex

omit [DecidableEq K] [DecidableEq M] in
theorem removeNew_changes (h : w.removeNew H id = some w') : w.Changes H id w' := by
  obtain ⟨v, hv, hobjects, hindex⟩ := removeNew_eq_some h
  exact .removed hv hobjects hindex

omit [DecidableEq M] in
theorem call_changes {op : Op Ix V} (h : w.call S H op = some w') : ∃ id, w.Changes H id w' := by
  cases op with
  | create ix constructor => exact ⟨_, create_changes h⟩
  | modify id m =>
    obtain ⟨⟨_, v⟩, hobj, hmodify⟩ := Option.bind_eq_some_iff.mp h
    obtain ⟨rfl, hv⟩ := getObject_eq_some hobj
    obtain ⟨v', -, hobjects, hindex⟩ := modify_changes hmodify
    exact ⟨_, .modified hv hobjects hindex⟩
  | remove id =>
    obtain ⟨⟨_, v⟩, hobj, hremove⟩ := Option.bind_eq_some_iff.mp h
    obtain ⟨rfl, hv⟩ := getObject_eq_some hobj
    obtain rfl := Option.some.inj hremove
    exact ⟨_, remove_changes hv⟩

omit [DecidableEq M] in
theorem restore_eq_some (h : w.restore S H order state = some w') : ∃ w₁ w₂, order.oldValues.foldlM (restoreOldValue S H) w = some w₁ ∧
    order.newIds.foldlM (removeNew H) w₁ = some w₂ ∧
    order.removed.foldlM (restoreRemoved S H) { w₂ with db := w₂.db.restoreNextIds state } = some w' := by
  obtain ⟨w₁, h₁, h⟩ := Option.bind_eq_some_iff.mp h
  obtain ⟨w₂, h₂, h⟩ := Option.bind_eq_some_iff.mp h
  exact ⟨w₁, w₂, h₁, h₂, h⟩

omit [DecidableEq M] in
theorem undo_eq_some (h : w.undo S H order = some w') : w.db.disabled = false ∧ ∃ state rest w₁, w.db.stack = state :: rest ∧
    restore S H { w with db := w.db.disable } order state = some w₁ ∧
    w' = { w₁ with db := { w₁.db with stack := rest, disabled := false, activeSessions := w₁.db.activeSessions - 1 } } := by
  obtain ⟨⟨henabled, -⟩, h⟩ := guard_bind_eq_some h
  refine ⟨henabled, ?_⟩
  split at h
  · cases h
  · rename_i state rest hstack
    obtain ⟨w₁, h₁, h⟩ := Option.bind_eq_some_iff.mp h
    exact ⟨state, rest, w₁, hstack, h₁, (Option.some.inj h).symm⟩

omit [DecidableEq M] in
theorem popCommit_eq_some (h : w.popCommit S H order = some w') : ∃ state rest w₁, w.db.stack = state :: rest ∧
    restore S H { w with db := w.db.disable } order state = some w₁ ∧
    w' = { w₁ with db := { w₁.db with stack := rest, disabled := false } } := by
  obtain ⟨-, h⟩ := guard_bind_eq_some h
  split at h
  · cases h
  · rename_i state rest hstack
    obtain ⟨w₁, h₁, h⟩ := Option.bind_eq_some_iff.mp h
    exact ⟨state, rest, w₁, hstack, h₁, (Option.some.inj h).symm⟩

theorem removeNews_listedAt {ids : List (ObjectId Ix)} (hF : H.Follows listed before members) (h : ids.foldlM (removeNew H) w = some w')
    (hl : w.ListedAt listed members id) : w'.ListedAt listed members id :=
  foldlM_keeps (I := fun w => w.ListedAt listed members id) (fun _ _ _ _ ha hl => (removeNew_changes ha).listedAt hF hl) h hl

theorem restoreRemoved_listedAt {items : List (Σ _ : ObjectId Ix, V)} (hF : H.Follows listed before members)
    (h : items.foldlM (restoreRemoved S H) w = some w') (hl : w.ListedAt listed members id) : w'.ListedAt listed members id :=
  foldlM_keeps (I := fun w => w.ListedAt listed members id) (fun _ _ _ _ ha hl => (insert_changes ha).listedAt hF hl) h hl

/-- What is listed is restored with the objects. -/
theorem restore_listedAt (hF : H.Follows listed before members) (h : w.restore S H order state = some w') (hl : w.ListedAt listed members id) :
    w'.ListedAt listed members id := by
  obtain ⟨w₁, w₂, h₁, h₂, h₃⟩ := restore_eq_some h
  have hl₁ : w₁.ListedAt listed members id := foldlM_keeps (I := fun w => w.ListedAt listed members id)
    (fun _ _ _ _ ha hl => (restoreOldValue_changes ha).listedAt hF hl) h₁ hl
  have hl₂ : w₂.ListedAt listed members id := removeNews_listedAt hF h₂ hl₁
  exact restoreRemoved_listedAt hF h₃ hl₂

/-! ### An object with other members than are listed -/

/-- The object, and what is listed of it -/
def Holds (listed : σ → ObjectId Ix → Finset M) (id : ObjectId Ix) (p : V) (a : Finset M) (w : Watched Ix V σ) : Prop :=
  w.db.objects.lookup id = some p ∧ listed w.index id = a

theorem Changes.holds (hL : H.Lists listed members) {id' : ObjectId Ix} {p : V} {a : Finset M} (h : w.Changes H id' w') (hne : id' ≠ id)
    (hw : w.Holds listed id p a) : w'.Holds listed id p a := by
  obtain ⟨hlookup, hlisted⟩ := h.frame hL hne.symm
  exact ⟨hlookup.trans hw.1, hlisted.trans hw.2⟩

/-- The members that the undoing of the state gives back to an object it records -/
def restoredMembers (members : V → Finset M) (state : UndoState Ix V) (id : ObjectId Ix) : Finset M :=
  (state.oldValues.lookup id).elim ∅ members

/-- The old value of the object is written back once. -/
theorem restoreOldValues_holds (hF : H.Follows listed before members) {l : List (Σ _ : ObjectId Ix, V)} (hl : (l.map Sigma.fst).Nodup)
    {o p : V} {a : Finset M} (hitem : ⟨id, o⟩ ∈ l) (h : l.foldlM (restoreOldValue S H) w = some w') (hw : w.Holds listed id p a)
    (hcarries : Carries a (members p) (members o)) : w'.ListedAt listed members id := by
  refine foldlM_turns (I := Holds listed id p a) (J := fun w => w.ListedAt listed members id) hitem ?_ ?_ ?_ h hw
  · intro v v' e he hne hv
    exact (restoreOldValue_changes hv).holds hF.toLists fun heq => hne (List.inj_on_of_nodup_map hl he hitem heq)
  · rintro v v' hv ⟨hlookup, hlisted⟩
    obtain ⟨q, hq, hobjects, hindex⟩ := restoreOldValue_eq_some hv
    obtain rfl := Option.some.inj (hlookup.symm.trans hq)
    exact listedAt_modified hF hobjects hindex (hlisted ▸ hcarries)
  · intro v v' e hv
    exact (restoreOldValue_changes hv).listedAt hF

/-- The object is new and is removed once. -/
theorem removeNews_holds (hF : H.Follows listed before members) {ids : List (ObjectId Ix)} {p : V} {a : Finset M} (hid : id ∈ ids)
    (h : ids.foldlM (removeNew H) w = some w') (hw : w.Holds listed id p a) (hsub : a ⊆ members p) : w'.ListedAt listed members id := by
  refine foldlM_turns (I := Holds listed id p a) (J := fun w => w.ListedAt listed members id) hid ?_ ?_ ?_ h hw
  · intro v v' id' _ hne hv
    exact (removeNew_changes hv).holds hF.toLists hne
  · rintro v v' hv ⟨hlookup, hlisted⟩
    obtain ⟨q, hq, hobjects, hindex⟩ := removeNew_eq_some hv
    obtain rfl := Option.some.inj (hlookup.symm.trans hq)
    exact listedAt_removed hF.toLists hobjects hindex (hlisted ▸ hsub)
  · intro v v' id' hv
    exact (removeNew_changes hv).listedAt hF

theorem restore_holds (hF : H.Follows listed before members) (ho : order.Of state) (h : w.restore S H order state = some w')
    {p : V} {a : Finset M} (hw : w.Holds listed id p a) (hrecorded : id ∈ state.oldValues ∨ id ∈ state.newIds)
    (hcarries : Carries a (members p) (restoredMembers members state id)) : w'.ListedAt listed members id := by
  obtain ⟨w₁, w₂, h₁, h₂, h₃⟩ := restore_eq_some h
  suffices hl₂ : w₂.ListedAt listed members id from restoreRemoved_listedAt hF h₃ hl₂
  unfold restoredMembers at hcarries
  cases hold : state.oldValues.lookup id with
  | some o =>
    rw [hold] at hcarries
    have hl₁ := restoreOldValues_holds hF ho.oldValues.nodup (ho.oldValues.mem_iff.mpr hold) h₁ hw hcarries
    exact removeNews_listedAt hF h₂ hl₁
  | none =>
    rw [hold, Option.elim_none] at hcarries
    have hnotMem := Finmap.lookup_eq_none.mp hold
    have hw₁ : w₁.Holds listed id p a := by
      refine foldlM_keeps (I := Holds listed id p a) (fun v v' e he hv => ?_) h₁ hw
      have hkey := ho.oldValues.mem_keys.mp (List.mem_map_of_mem he)
      exact (restoreOldValue_changes hv).holds hF.toLists fun heq => hnotMem (heq ▸ hkey)
    have hsub : a ⊆ members p := hcarries.2.trans_eq (Finset.union_empty _)
    exact removeNews_holds hF (ho.mem_newIds.mpr (hrecorded.resolve_left hnotMem)) h₂ hw₁ hsub

/-! ### A step -/

/-- What an interruption and a nested modification do to the members of the object -/
def Clears (S : Schema Ix V K) (H : Hooks Ix V σ) (before : σ → Finset M) (members : V → Finset M) (w : Watched Ix V σ) :
    WatchedCommand Ix V → Prop
  | .interrupted id m _ => ∀ obj ∈ w.getObject id, ∀ p, m obj.value = .error p →
    Carries (members obj.value) (members p) (restoredMembers members ((w.db.stack.headD {}).onModify obj) id)
  | .nested id ops m => ∀ w₁ ∈ w.begun S H id ops, ∀ obj ∈ w₁.getObject id,
    Carries (members obj.value) (before w₁.index) (members (m obj.value))
  | _ => True

omit [DecidableEq M] in
theorem interrupt_eq_some {obj : Object Ix V} {m : V → Except V V} (h : w.interrupt S H obj m = some w') : ∃ p, m obj.value = .error p ∧
    w' = { db := { w.db.record (·.onModify obj) with toStore := w.db.toStore.put ⟨obj.id, p⟩ }, index := H.aboutToModify obj w.index } := by
  unfold interrupt at h
  split at h
  · cases h
  · rename_i p hp
    refine ⟨p, hp, ?_⟩
    rw [← Option.some.inj h, ObjectDatabase.modify, hp]
    show Watched.mk { w.db.record _ with toStore := (w.db.record _).toStore.put _ } _ = _
    rw [ObjectDatabase.record_toStore]

omit [DecidableEq Ix] in
/-- The hook records on the last state, or on one that it pushes. -/
theorem record_eq {db : ObjectDatabase Ix V} {hook : UndoState Ix V → UndoState Ix V} (h : db.disabled = false) :
    db.record hook = { db with stack := hook (db.stack.headD {}) :: db.stack.tail } := by
  unfold ObjectDatabase.record
  rw [if_neg (by rw [h]; exact Bool.false_ne_true)]
  cases hstack : db.stack <;> rfl

omit [DecidableEq M] in
theorem listedAt_congr (hobjects : w'.db.objects = w.db.objects) (hindex : w'.index = w.index) :
    w'.ListedAt listed members id ↔ w.ListedAt listed members id := by
  unfold ListedAt membersOf
  rw [hobjects, hindex]

theorem begun_listedAt (hF : H.Follows listed before members) {id' : ObjectId Ix} {ops : List (Op Ix V)}
    (h : w.begun S H id' ops = some w') (hl : w.ListedAt listed members id) : w'.ListedAt listed members id := by
  obtain ⟨obj, -, h⟩ := Option.bind_eq_some_iff.mp h
  refine foldlM_keeps (I := fun w => w.ListedAt listed members id) (fun v v' op _ hv hl => ?_) h ?_
  · obtain ⟨id', hv⟩ := call_changes hv
    exact hv.listedAt hF hl
  · unfold ListedAt membersOf
    rw [hF.about, ObjectDatabase.record_toStore]
    exact hl

/-- The undoing of a session in which a callback has thrown lists the members of what it restores. -/
theorem interrupted_listedAt (hF : H.Follows listed before members) {id' : ObjectId Ix} {m : V → Except V V}
    (hproper : w.Proper S H (.interrupted id' m order)) (hclears : w.Clears S H before members (.interrupted id' m order))
    (hs : step S H w (.interrupted id' m order) = some w') (hl : w.ListedAt listed members id) : w'.ListedAt listed members id := by
  obtain ⟨obj, hobj, hs⟩ := Option.bind_eq_some_iff.mp hs
  obtain ⟨w₁, hw₁, hundo⟩ := Option.bind_eq_some_iff.mp hs
  have horder := hproper obj hobj w₁ hw₁
  obtain ⟨p, hp, rfl⟩ := interrupt_eq_some hw₁
  have hcarries := hclears obj hobj p hp
  obtain ⟨rfl, hv⟩ := getObject_eq_some hobj
  obtain ⟨henabled, state, rest, w₂, hstack, hrestore, rfl⟩ := undo_eq_some hundo
  have htop : state = (w.db.stack.headD {}).onModify obj := by
    replace hstack : (w.db.record (·.onModify obj)).stack = state :: rest := hstack
    rw [record_eq (ObjectDatabase.record_disabled.symm.trans henabled)] at hstack
    exact (List.cons.inj hstack).1.symm
  refine (listedAt_congr (w := w₂) rfl rfl).mpr ?_
  by_cases hid : id = obj.id
  · subst hid
    rw [← htop] at hcarries
    refine restore_holds hF (horder state (by rw [hstack]; rfl)) hrestore ⟨?_, ?_⟩ (htop ▸ UndoState.onModify_mem _ obj) hcarries
    · show (w.db.objects.insert obj.id p).lookup obj.id = some p
      exact Finmap.lookup_insert _
    · show listed (H.aboutToModify obj w.index) obj.id = _
      rw [hF.about]
      exact hl.trans (membersOf_eq hv)
  · refine restore_listedAt hF hrestore ?_
    show listed (H.aboutToModify obj w.index) id = ((w.db.objects.insert obj.id p).lookup id).elim ∅ members
    rw [hF.about, Finmap.lookup_insert_of_ne _ hid]
    exact hl

/-- What is listed stays the members of the objects. -/
theorem step_listed (hF : H.Follows listed before members) {c : WatchedCommand Ix V} (hproper : w.Proper S H c)
    (hclears : w.Clears S H before members c) (hs : step S H w c = some w') (hl : w.ListedAt listed members id) :
    w'.ListedAt listed members id := by
  cases c with
  | start =>
    by_cases hdisabled : w.db.disabled = true
    · rw [step, if_pos hdisabled] at hs
      cases hs
    · rw [step, if_neg hdisabled] at hs
      obtain rfl := Option.some.inj hs
      have hobjects : (w.db.startUndoSession false).2.objects = w.db.objects := by
        rw [ObjectDatabase.startUndoSession_of_opens (.inl (Bool.not_eq_true _ ▸ hdisabled))]
      show listed w.index id = ((w.db.startUndoSession false).2.objects.lookup id).elim ∅ members
      rw [hobjects]
      exact hl
  | commit =>
    obtain ⟨db, hdb, rfl⟩ := map_toOption_eq_some hs
    obtain ⟨-, rfl⟩ := ObjectDatabase.commit_inv hdb
    exact hl
  | merge order =>
    obtain ⟨db, hdb, rfl⟩ := map_toOption_eq_some hs
    obtain ⟨-, -, -, -, -, -, rfl⟩ := ObjectDatabase.merge_inv hdb
    exact hl
  | undo order =>
    obtain ⟨-, state, rest, w₁, -, hrestore, rfl⟩ := undo_eq_some hs
    exact (listedAt_congr (w := w₁) rfl rfl).mpr (restore_listedAt hF hrestore hl)
  | popCommit order =>
    obtain ⟨state, rest, w₁, -, hrestore, rfl⟩ := popCommit_eq_some hs
    exact (listedAt_congr (w := w₁) rfl rfl).mpr (restore_listedAt hF hrestore hl)
  | setMaxSize size =>
    obtain rfl := Option.some.inj hs
    exact hl
  | call op =>
    obtain ⟨id', hc⟩ := call_changes hs
    exact hc.listedAt hF hl
  | nested id' ops m =>
    obtain ⟨w₁, hw₁, hs⟩ := Option.bind_eq_some_iff.mp hs
    obtain ⟨obj, hobj, hs⟩ := Option.bind_eq_some_iff.mp hs
    obtain ⟨-, hs⟩ := guard_bind_eq_some hs
    obtain rfl := Option.some.inj hs
    have hcarries := hclears w₁ hw₁ obj hobj
    obtain ⟨rfl, hv⟩ := getObject_eq_some hobj
    have hl₁ := begun_listedAt hF hw₁ hl
    by_cases hid : id = obj.id
    · subst hid
      rw [ListedAt, membersOf_eq hv] at hl₁
      rw [ListedAt, membersOf_eq (Finmap.lookup_insert _), hF.modified ⟨obj.id, m obj.value⟩ w₁.index, hl₁]
      exact carries_iff.mpr hcarries
    · show listed (H.objectModified ⟨obj.id, m obj.value⟩ w₁.index) id = ((w₁.db.objects.insert obj.id _).lookup id).elim ∅ members
      rw [hF.others ⟨obj.id, m obj.value⟩ w₁.index id hid, Finmap.lookup_insert_of_ne _ hid]
      exact hl₁
  | interrupted id' m order => exact interrupted_listedAt hF hproper hclears hs hl

/-! ### Runs -/

omit [DecidableEq M] in
theorem restoredMembers_onModify {obj : Object Ix V} (hnew : obj.id ∉ state.newIds) (hold : obj.id ∉ state.oldValues) :
    restoredMembers members (state.onModify obj) obj.id = members obj.value := by
  rw [restoredMembers, UndoState.onModify, if_neg hnew, if_neg hold, Finmap.lookup_insert]
  rfl

/-- No other interruption in a session than of what the session has changed already matters. -/
theorem clears_of_unrecorded {m : V → Except V V} (hnew : id ∉ (w.db.stack.headD {}).newIds)
    (hold : id ∉ (w.db.stack.headD {}).oldValues) : w.Clears S H before members (.interrupted id m order) := by
  intro obj hobj p _
  obtain ⟨rfl, -⟩ := getObject_eq_some hobj
  rw [restoredMembers_onModify hnew hold]
  exact ⟨Finset.inter_subset_right, Finset.subset_union_right⟩

omit [DecidableEq M] in
theorem proper_interrupted {v : V} {m : V → Except V V} (hv : w.db.objects.lookup id = some v)
    (ho : (w.db.record (·.onModify ⟨id, v⟩)).Iterates order) : w.Proper S H (.interrupted id m order) := by
  intro obj hobj w' hw'
  obtain ⟨p, -, rfl⟩ := interrupt_eq_some hw'
  obtain ⟨rfl, hobj⟩ := getObject_eq_some hobj
  obtain rfl := Option.some.inj (hv.symm.trans hobj)
  exact ho

/-- A state of a run whose steps meet the condition -/
inductive Reaches (S : Schema Ix V K) (H : Hooks Ix V σ) (P : Watched Ix V σ → WatchedCommand Ix V → Prop) (start : Watched Ix V σ) :
    Watched Ix V σ → Prop
  | start : Reaches S H P start start
  | step {w w' : Watched Ix V σ} {c : WatchedCommand Ix V} (h : Reaches S H P start w) (hproper : w.Proper S H c) (hP : P w c)
    (hs : step S H w c = some w') : Reaches S H P start w'

theorem Reaches.listedAt {P : Watched Ix V σ → WatchedCommand Ix V → Prop} {w₀ : Watched Ix V σ} (hF : H.Follows listed before members)
    (hP : ∀ w c, P w c → w.Clears S H before members c) (h : Reaches S H P w₀ w) (h₀ : w₀.ListedAt listed members id) :
    w.ListedAt listed members id := by
  induction h with
  | start => exact h₀
  | step _ hproper hPc hs ih => exact step_listed hF hproper (hP _ _ hPc) hs ih

omit [DecidableEq M] in
theorem Reaches.getD {P : Watched Ix V σ → WatchedCommand Ix V → Prop} {w₀ : Watched Ix V σ} {c : WatchedCommand Ix V}
    (h : Reaches S H P w₀ w) (hproper : w.Proper S H c) (hP : P w c) (hs : (Watched.step S H w c).isSome) :
    Reaches S H P w₀ ((Watched.step S H w c).getD w) := by
  obtain ⟨w', hw'⟩ := Option.isSome_iff_exists.mp hs
  rw [hw']
  exact h.step hproper hP hw'

end Watched

end Khc.Db
