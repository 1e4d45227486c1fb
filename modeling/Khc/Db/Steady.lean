import Khc.Db.Relisting

/-! Runs in which no modification changes the members of an object, so that an index which does not follow modifications is as good as one
    that does. For the undoing this has to hold of the stores that it comes back to. -/

namespace Khc.Db

open Lib

section
variable {Ix V K M : Type} [DecidableEq Ix] {S : Schema Ix V K} {Q : V → Prop} {members : V → Finset M} {s prev : UndoState Ix V}
  {before between after after' : Store Ix V} {stack : List (UndoState Ix V)} {id : ObjectId Ix} {v : V}

/-- The objects that were there and still are have the members they had. -/
structure Store.Steady (Q : V → Prop) (members : V → Finset M) (before after : Store Ix V) : Prop where
  good : ∀ id v, before.objects.lookup id = some v → Q v
  same : ∀ id v v', before.objects.lookup id = some v → after.objects.lookup id = some v' → members v' = members v

theorem Store.Steady.refl (hgood : ∀ id v, after.objects.lookup id = some v → Q v) : after.Steady Q members after where
  good := hgood
  same id v v' hv hv' := by rw [Option.some.inj (hv.symm.trans hv')]

theorem Store.Steady.next (h : before.Steady Q members after) (hnext : ∀ id v', after'.objects.lookup id = some v' →
    before.objects.lookup id = none ∨ ∃ v, after.objects.lookup id = some v ∧ members v' = members v) : before.Steady Q members after' where
  good := h.good
  same id v v' hv hv' := by
    rcases hnext id v' hv' with hnone | ⟨u, hu, hsame⟩
    · cases hnone.symm.trans hv
    · exact hsame.trans (h.same id v u hv hu)

/-- An object is not made anew. -/
theorem UndoState.Records.isSome_between (hp : prev.Records before between) (hs : s.Records between after) (hb : before.WellFormed S)
    (hv : id ∈ before.objects) (hv' : id ∈ after.objects) : id ∈ between.objects := by
  by_contra hnot
  have hnone := Finmap.lookup_eq_none.mpr hnot
  have hnew : id ∈ s.newIds := by
    by_contra hnew
    have hold : id ∉ s.oldValues := fun hold => by
      obtain ⟨w, hw⟩ := Finmap.mem_iff.mp hold
      cases hnone.symm.trans (hs.of_oldValues hw).1
    have hrem : id ∉ s.removed := fun hrem => by
      obtain ⟨w, hw⟩ := Finmap.mem_iff.mp hrem
      cases hnone.symm.trans (hs.of_removed hw).1
    have hunchanged := (hs.unchanged hold hnew hrem).trans hnone
    exact Finmap.lookup_eq_none.mp hunchanged hv'
  have hfresh := hb.fresh id hv
  have hgrown := hp.grown id.index
  have hnewer := hs.newer id hnew
  omega

theorem Store.Steady.trans (hsteady : before.Steady Q members between) (hsteady' : between.Steady Q members after)
    (hp : prev.Records before between) (hs : s.Records between after) (hb : before.WellFormed S) : before.Steady Q members after where
  good := hsteady.good
  same id v v' hv hv' := by
    have hmem := hp.isSome_between hs hb (Finmap.mem_of_lookup_eq_some hv) (Finmap.mem_of_lookup_eq_some hv')
    obtain ⟨u, hu⟩ := Finmap.mem_iff.mp hmem
    exact (hsteady'.same id u v' hu hv').trans (hsteady.same id v u hv hu)

/-- The undo states record how each store came from the one before it. -/
inductive Chain (S : Schema Ix V K) (Q : V → Prop) (members : V → Finset M) : Store Ix V → List (UndoState Ix V) → Prop
  | nil {after : Store Ix V} : Chain S Q members after []
  | cons {before after : Store Ix V} {s : UndoState Ix V} {stack : List (UndoState Ix V)} (hb : before.WellFormed S)
    (hrec : s.Records before after) (hsteady : before.Steady Q members after) (hrest : Chain S Q members before stack) :
    Chain S Q members after (s :: stack)

theorem Chain.take (h : Chain S Q members after stack) (n : Nat) : Chain S Q members after (stack.take n) := by
  induction h generalizing n with
  | nil =>
    rw [List.take_nil]
    exact .nil
  | cons hb hrec hsteady _ ih =>
    cases n with
    | zero => exact .nil
    | succ n => exact .cons hb hrec hsteady (ih n)

/-- The state that a hook changes records from some store on, be it pushed by the hook. -/
theorem Chain.top (h : Chain S Q members after stack) (ha : after.WellFormed S) (hgood : ∀ id v, after.objects.lookup id = some v → Q v) :
    ∃ before : Store Ix V, before.WellFormed S ∧ (stack.headD {}).Records before after ∧ before.Steady Q members after ∧
      Chain S Q members before stack.tail := by
  cases h with
  | nil => exact ⟨after, ha, UndoState.records_empty after, .refl hgood, .nil⟩
  | cons hb hrec hsteady hrest => exact ⟨_, hb, hrec, hsteady, hrest⟩

end

namespace Watched
variable {Ix V K M σ : Type} [DecidableEq Ix] [DecidableEq K] [DecidableEq M] {S : Schema Ix V K} {H : Hooks Ix V σ}
  {listed : σ → ObjectId Ix → Finset M} {members : V → Finset M} {Q : V → Prop} {w w' : Watched Ix V σ} {id : ObjectId Ix}
  {order : IterationOrder Ix V} {state : UndoState Ix V}

/-! ### The database under the index -/

section
variable {α : Type} {f : Watched Ix V σ → α → Option (Watched Ix V σ)}
  {g : ObjectDatabase Ix V → α → Except (Thrown Ix V) (ObjectDatabase Ix V)} {l : List α}

omit [DecidableEq Ix] in
theorem foldlM_db (hf : ∀ w a w', f w a = some w' → g w.db a = .ok w'.db) (h : l.foldlM f w = some w') : l.foldlM g w.db = .ok w'.db := by
  induction l generalizing w with
  | nil =>
    obtain rfl := Option.some.inj h
    rfl
  | cons a l ih =>
    obtain ⟨w₁, h₁, h⟩ := foldlM_cons_eq_some.mp h
    rw [List.foldlM_cons, hf w a w₁ h₁]
    exact ih h

end

omit [DecidableEq K] [DecidableEq M] in
theorem getObject_db {obj : Object Ix V} (h : w.getObject id = some obj) : w.db.getObject id = .ok obj := by
  unfold getObject at h
  cases hobj : w.db.getObject id with
  | error e =>
    rw [hobj] at h
    cases h
  | ok obj' =>
    rw [hobj] at h
    rw [Option.some.inj h]

omit [DecidableEq M] in
theorem modify_db {obj : Object Ix V} {m : V → Except V V} (h : w.modify S H obj m = some w') : w.db.modify S obj m = .ok w'.db := by
  obtain ⟨v, -, h⟩ := toOption_bind_eq_some h
  obtain ⟨db, hdb, rfl⟩ := map_toOption_eq_some h
  exact hdb

omit [DecidableEq M] in
/-- The loops do to the database what they do without the index. -/
theorem restore_db (h : w.restore S H order state = some w') : w.db.restore S order state = .ok w'.db := by
  obtain ⟨w₁, w₂, h₁, h₂, h₃⟩ := restore_eq_some h
  have hold : order.oldValues.foldlM (ObjectDatabase.restoreOldValue S) w.db = .ok w₁.db := by
    refine foldlM_db (fun v item v' hv => ?_) h₁
    obtain ⟨obj, hobj, hmodify⟩ := Option.bind_eq_some_iff.mp hv
    exact bind_eq_ok.mpr ⟨obj, getObject_db hobj, modify_db hmodify⟩
  have hnew : order.newIds.foldlM ObjectDatabase.removeNew w₁.db = .ok w₂.db := by
    refine foldlM_db (fun v id v' hv => ?_) h₂
    obtain ⟨obj, hobj, hremove⟩ := Option.bind_eq_some_iff.mp hv
    obtain rfl := Option.some.inj hremove
    exact bind_eq_ok.mpr ⟨obj, getObject_db hobj, rfl⟩
  have hremoved : order.removed.foldlM (ObjectDatabase.restoreRemoved S) (w₂.db.restoreNextIds state) = .ok w'.db := by
    refine foldlM_db (fun v item v' hv => ?_) h₃
    obtain ⟨db, hdb, rfl⟩ := map_toOption_eq_some hv
    exact hdb
  exact bind_eq_ok.mpr ⟨w₁.db, hold, bind_eq_ok.mpr ⟨w₂.db, hnew, hremoved⟩⟩

/-! ### What is listed -/

/-- Where the members stay, what is listed may stay as well. -/
theorem listedAt_unmodified (hI : ∀ o i, listed (H.objectModified o i) = listed i) (hL : H.Lists listed members) {v v' : V}
    (hsome : w.db.objects.lookup id = some v) (hobjects : w'.db.objects = w.db.objects.insert id v')
    (hindex : w'.index = H.objectModified ⟨id, v'⟩ (H.aboutToModify ⟨id, v⟩ w.index)) (hsame : members v' = members v)
    (hl : w.ListedAt listed members id) : w'.ListedAt listed members id := by
  unfold ListedAt at hl ⊢
  rw [membersOf_eq hsome] at hl
  rw [membersOf_eq (hobjects ▸ Finmap.lookup_insert _), hindex, hI, hL.about, hl, hsame]

theorem restore_steady (hI : ∀ o i, listed (H.objectModified o i) = listed i) (hL : H.Lists listed members) {before : Store Ix V}
    (hrec : state.Records before w.db.toStore) (hsteady : before.Steady Q members w.db.toStore) (ho : order.Of state)
    (h : w.restore S H order state = some w') (hl : ∀ id, w.ListedAt listed members id) : ∀ id, w'.ListedAt listed members id := by
  obtain ⟨w₁, w₂, h₁, h₂, h₃⟩ := restore_eq_some h
  -- the objects that are still to be written back have the members of their old values
  have hold : (∀ id, w₁.ListedAt listed members id) ∧ ∀ e ∈ order.oldValues, ∀ v, w₁.db.objects.lookup e.1 = some v → members v = members e.2 := by
    refine foldlM_keeps (I := fun w => (∀ id, w.ListedAt listed members id) ∧
      ∀ e ∈ order.oldValues, ∀ v, w.db.objects.lookup e.1 = some v → members v = members e.2) ?_ h₁ ⟨hl, ?_⟩
    · rintro v v' e he hv ⟨hl, hsame⟩
      obtain ⟨u, hu, hobjects, hindex⟩ := restoreOldValue_eq_some hv
      refine ⟨fun id => (restoreOldValue_changes hv).listedAt_of_self hL (fun hid => ?_) (hl id), fun e' he' u' hu' => ?_⟩
      · exact listedAt_unmodified hI hL hu hobjects hindex (hsame e he u hu).symm (hl e.1)
      · by_cases hkey : e'.1 = e.1
        · rw [hobjects, hkey, Finmap.lookup_insert] at hu'
          rw [List.inj_on_of_nodup_map ho.oldValues.nodup he' he hkey, Option.some.inj hu']
        · rw [hobjects, Finmap.lookup_insert_of_ne _ hkey] at hu'
          exact hsame e' he' u' hu'
    · intro e he v hv
      exact hsteady.same e.1 e.2 v (hrec.of_oldValues (ho.oldValues.mem_iff.mp he)).1 hv
  have hnew : ∀ id, w₂.ListedAt listed members id := by
    refine foldlM_keeps (I := fun w => ∀ id, w.ListedAt listed members id) (fun v v' id _ hv hl id' => ?_) h₂ hold.1
    obtain ⟨u, hu, hobjects, hindex⟩ := removeNew_eq_some hv
    refine (removeNew_changes hv).listedAt_of_self hL (fun _ => listedAt_removed hL hobjects hindex ?_) (hl id')
    exact (hl id).trans (membersOf_eq hu) |>.subset
  refine foldlM_keeps (I := fun w => ∀ id, w.ListedAt listed members id) (fun v v' e _ hv hl id' => ?_) h₃ hnew
  obtain ⟨hnone, hobjects, hindex⟩ := insert_eq_some hv
  exact (insert_changes hv).listedAt_of_self hL (fun _ => listedAt_inserted hL hnone hobjects hindex (hl e.1)) (hl id')

/-! ### Steps -/

/-- The command makes good objects, and changes the members of none. -/
def Steadies (Q : V → Prop) (members : V → Finset M) (w : Watched Ix V σ) : WatchedCommand Ix V → Prop
  | .call (.create _ constructor) => ∀ id, Q (constructor id)
  | .call (.modify id m) => ∀ obj ∈ w.getObject id, Q obj.value → ∀ v, m obj.value = .ok v → Q v ∧ members v = members obj.value
  | .nested _ _ _ | .interrupted _ _ _ => False
  | _ => True

/-- What is listed is right, and would be after each of the states has been undone. -/
structure Level (S : Schema Ix V K) (listed : σ → ObjectId Ix → Finset M) (Q : V → Prop) (members : V → Finset M) (w : Watched Ix V σ) : Prop where
  enabled : w.db.disabled = false
  wellFormed : w.db.toStore.WellFormed S
  good : ∀ id v, w.db.objects.lookup id = some v → Q v
  chain : Chain S Q members w.db.toStore w.db.stack
  listed : ∀ id, w.ListedAt listed members id

theorem Level.create (hL : H.Lists listed members) (h : w.Level S listed Q members) {ix : Ix} {constructor : ObjectId Ix → V}
    (hgood : ∀ id, Q (constructor id)) (hs : w.create S H ix constructor = some w') : w'.Level S listed Q members := by
  have hchanges : w.Changes H _ w' := create_changes hs
  obtain ⟨db, hdb, rfl⟩ := map_toOption_eq_some hs
  obtain ⟨⟨hnone, hfree⟩, rfl⟩ := ObjectDatabase.create_eq_ok.mp hdb
  rw [record_eq (by exact h.enabled)] at hchanges ⊢
  obtain ⟨before, hb, hrec, hsteady, hrest⟩ := h.chain.top h.wellFormed h.good
  have hlookup : ∀ id v, (w.db.objects.insert (w.db.nextId ix) (constructor (w.db.nextId ix))).lookup id = some v →
      id = w.db.nextId ix ∧ v = constructor (w.db.nextId ix) ∨ w.db.objects.lookup id = some v := by
    intro id v hv
    by_cases hid : id = w.db.nextId ix
    · rw [hid, Finmap.lookup_insert] at hv
      exact .inl ⟨hid, (Option.some.inj hv).symm⟩
    · rw [Finmap.lookup_insert_of_ne _ hid] at hv
      exact .inr hv
  constructor
  case enabled => exact h.enabled
  case wellFormed => exact h.wellFormed.create hfree
  case good =>
    intro id v hv
    rcases hlookup id v hv with ⟨-, rfl⟩ | hv
    · exact hgood _
    · exact h.good id v hv
  case chain =>
    refine .cons hb (hrec.onCreate hb h.wellFormed hnone) (hsteady.next fun id v hv => ?_) hrest
    rcases hlookup id v hv with ⟨rfl, -⟩ | hv
    · exact .inl (hrec.nextId_notMem hb h.wellFormed ix)
    · exact .inr ⟨v, hv, rfl⟩
  case listed =>
    refine fun id => hchanges.listedAt_of_self hL (fun _ => ?_) (h.listed id)
    exact listedAt_inserted hL (Finmap.lookup_eq_none.mpr hnone) rfl rfl (h.listed _)

theorem Level.modify (hI : ∀ o i, listed (H.objectModified o i) = listed i) (hL : H.Lists listed members) (h : w.Level S listed Q members)
    {obj : Object Ix V} {m : V → Except V V} (hobj : w.db.objects.lookup obj.id = some obj.value)
    (hm : ∀ v, m obj.value = .ok v → Q v ∧ members v = members obj.value) (hs : w.modify S H obj m = some w') :
    w'.Level S listed Q members := by
  obtain ⟨v, hv, hobjects, hindex⟩ := modify_changes hs
  have hchanges : w.Changes H obj.id w' := .modified hobj hobjects hindex
  obtain ⟨hgood, hsame⟩ := hm v hv
  obtain ⟨v', hv', hfree, hdb⟩ := ObjectDatabase.modify_eq_ok.mp (modify_db hs)
  obtain rfl := Except.ok.inj (hv.symm.trans hv')
  rw [record_eq h.enabled] at hdb
  obtain ⟨before, hb, hrec, hsteady, hrest⟩ := h.chain.top h.wellFormed h.good
  have hlookup : ∀ id u, (w.db.objects.insert obj.id v).lookup id = some u → ∃ u', w.db.objects.lookup id = some u' ∧ Q u ∧ members u = members u' := by
    intro id u hu
    by_cases hid : id = obj.id
    · rw [hid, Finmap.lookup_insert] at hu
      obtain rfl := Option.some.inj hu
      exact ⟨obj.value, hid ▸ hobj, hgood, hsame⟩
    · rw [Finmap.lookup_insert_of_ne _ hid] at hu
      exact ⟨u, hu, h.good id u hu, rfl⟩
  have hlisted : ∀ id, w'.ListedAt listed members id := fun id =>
    hchanges.listedAt_of_self hL (fun _ => listedAt_unmodified hI hL hobj hobjects hindex hsame (h.listed _)) (h.listed id)
  obtain ⟨db, index⟩ := w'
  subst hdb
  refine ⟨h.enabled, h.wellFormed.modify (Finmap.mem_of_lookup_eq_some hobj) hfree, fun id u hu => ?_, ?_, hlisted⟩
  · obtain ⟨-, -, hu, -⟩ := hlookup id u hu
    exact hu
  · refine .cons hb (hrec.onModify hobj) (hsteady.next fun id u hu => ?_) hrest
    obtain ⟨u', hu', -, hsame⟩ := hlookup id u hu
    exact .inr ⟨u', hu', hsame⟩

omit [DecidableEq K] in
theorem Level.remove (hL : H.Lists listed members) (h : w.Level S listed Q members) {obj : Object Ix V}
    (hobj : w.db.objects.lookup obj.id = some obj.value) : (w.remove H obj).Level S listed Q members := by
  have hchanges : w.Changes H obj.id (w.remove H obj) := remove_changes hobj
  unfold Watched.remove ObjectDatabase.remove at hchanges ⊢
  rw [record_eq h.enabled] at hchanges ⊢
  obtain ⟨before, hb, hrec, hsteady, hrest⟩ := h.chain.top h.wellFormed h.good
  have hlookup : ∀ id v, (w.db.objects.erase obj.id).lookup id = some v → w.db.objects.lookup id = some v := by
    intro id v hv
    by_cases hid : id = obj.id
    · rw [hid, Finmap.lookup_erase] at hv
      cases hv
    · rwa [Finmap.lookup_erase_ne hid] at hv
  refine ⟨h.enabled, h.wellFormed.remove obj.id, fun id v hv => h.good id v (hlookup id v hv), ?_, fun id => ?_⟩
  · exact .cons hb (hrec.onRemove hobj) (hsteady.next fun id v hv => .inr ⟨v, hlookup id v hv, rfl⟩) hrest
  · refine hchanges.listedAt_of_self hL (fun _ => listedAt_removed hL rfl rfl ?_) (h.listed id)
    exact (h.listed obj.id).trans (membersOf_eq hobj) |>.subset

/-- The store before the state, and what is listed of it -/
theorem Level.restored (hI : ∀ o i, listed (H.objectModified o i) = listed i) (hL : H.Lists listed members) (h : w.Level S listed Q members)
    {rest : List (UndoState Ix V)} {w₁ : Watched Ix V σ} (hstack : w.db.stack = state :: rest) (ho : w.db.Iterates order)
    (hs : restore S H { w with db := w.db.disable } order state = some w₁) (n : Nat) :
    Level S listed Q members { w₁ with db := { w₁.db with stack := rest, disabled := false, activeSessions := n } } := by
  have hchain := h.chain
  rw [hstack] at hchain
  cases hchain with
  | @cons before _ _ _ hb hrec hsteady hrest =>
    have horder : order.Of state := ho state (by rw [hstack]; rfl)
    have hlisted := restore_steady (w := { w with db := w.db.disable }) hI hL hrec hsteady horder hs h.listed
    have hdb := restore_db (w := { w with db := w.db.disable }) hs
    rw [ObjectDatabase.restore_eq_ok (d := w.db.disable) rfl hb.unique hrec horder] at hdb
    obtain ⟨-, hdb⟩ := hdb
    obtain ⟨db, index⟩ := w₁
    subst hdb
    exact ⟨rfl, hb, hsteady.good, hrest, hlisted⟩

omit [DecidableEq K] [DecidableEq M] in
theorem Level.merge (h : w.Level S listed Q members) (ho : w.db.Iterates order) {db : ObjectDatabase Ix V} (hs : w.db.merge order = .ok db) :
    Level S listed Q members { w with db := db } := by
  obtain ⟨-, hs⟩ := ObjectDatabase.fcAssert_bind.mp hs
  split at hs
  · obtain rfl := Except.ok.inj hs
    exact ⟨h.enabled, h.wellFormed, h.good, .nil, h.listed⟩
  · split at hs
    · rename_i s prev rest hstack
      have hchain := h.chain
      rw [hstack] at hchain
      cases hchain with
      | cons hb hrec hsteady hrest =>
        cases hrest with
        | cons hb' hrec' hsteady' hrest =>
          obtain ⟨t, ht, htrec⟩ := hrec'.merge hrec hb' (ho s (by rw [hstack]; rfl))
          rw [ht] at hs
          obtain rfl := Except.ok.inj hs
          exact ⟨h.enabled, h.wellFormed, h.good, .cons hb' htrec (hsteady'.trans hsteady hrec' hrec hb') hrest, h.listed⟩
    · cases hs

/-- Each step keeps what is listed right, whatever is undone later. -/
theorem Level.step (hI : ∀ o i, listed (H.objectModified o i) = listed i) (hL : H.Lists listed members) {c : WatchedCommand Ix V}
    (h : w.Level S listed Q members) (hproper : w.Proper S H c) (hsteadies : w.Steadies Q members c) (hs : Watched.step S H w c = some w') :
    w'.Level S listed Q members := by
  cases c with
  | start =>
    rw [Watched.step, if_neg (by rw [h.enabled]; exact Bool.false_ne_true)] at hs
    obtain rfl := Option.some.inj hs
    rw [ObjectDatabase.startUndoSession_of_opens (.inl h.enabled)]
    exact ⟨rfl, h.wellFormed, h.good, .cons h.wellFormed (UndoState.records_empty _) (.refl h.good) (h.chain.take _), h.listed⟩
  | commit =>
    obtain ⟨db, hdb, rfl⟩ := map_toOption_eq_some hs
    obtain ⟨-, rfl⟩ := ObjectDatabase.commit_inv hdb
    exact ⟨h.enabled, h.wellFormed, h.good, h.chain, h.listed⟩
  | merge order =>
    obtain ⟨db, hdb, rfl⟩ := map_toOption_eq_some hs
    exact h.merge hproper hdb
  | undo order =>
    obtain ⟨-, state, rest, w₁, hstack, hrestore, rfl⟩ := undo_eq_some hs
    exact h.restored hI hL hstack hproper hrestore _
  | popCommit order =>
    obtain ⟨state, rest, w₁, hstack, hrestore, rfl⟩ := popCommit_eq_some hs
    exact h.restored hI hL hstack hproper hrestore _
  | setMaxSize size =>
    obtain rfl := Option.some.inj hs
    exact ⟨h.enabled, h.wellFormed, h.good, h.chain, h.listed⟩
  | call op =>
    cases op with
    | create ix constructor => exact h.create hL hsteadies hs
    | modify id m =>
      obtain ⟨obj, hobj, hmodify⟩ := Option.bind_eq_some_iff.mp hs
      obtain ⟨rfl, hv⟩ := getObject_eq_some hobj
      exact h.modify hI hL hv (hsteadies obj hobj (h.good _ _ hv)) hmodify
    | remove id =>
      obtain ⟨obj, hobj, hremove⟩ := Option.bind_eq_some_iff.mp hs
      obtain ⟨rfl, hv⟩ := getObject_eq_some hobj
      obtain rfl := Option.some.inj hremove
      exact h.remove hL hv
  | nested id ops m => exact hsteadies.elim
  | interrupted id m order => exact hsteadies.elim

theorem Reaches.level {P : Watched Ix V σ → WatchedCommand Ix V → Prop} {w₀ : Watched Ix V σ}
    (hI : ∀ o i, listed (H.objectModified o i) = listed i) (hL : H.Lists listed members) (hP : ∀ w c, P w c → w.Steadies Q members c)
    (h : Reaches S H P w₀ w) (h₀ : w₀.Level S listed Q members) : w.Level S listed Q members := by
  induction h with
  | start => exact h₀
  | step _ hproper hPc hs ih => exact ih.step hI hL hproper (hP _ _ hPc) hs

end Watched

end Khc.Db
