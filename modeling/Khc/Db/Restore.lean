import Khc.Db.Record

/-! The loops of `undo` and `pop_commit`: when they come to their end, and that they then have restored the store. -/

namespace Khc.Db

open Lib

section
variable {Ix V : Type} {s : UndoState Ix V} {order : IterationOrder Ix V} {id : ObjectId Ix}

theorem IterationOrder.Of.mem_newIds (ho : order.Of s) : id ∈ order.newIds ↔ id ∈ s.newIds := by
  rw [← Multiset.mem_coe, ho.newIds, Finset.mem_val]

theorem IterationOrder.Of.nodup_newIds (ho : order.Of s) : order.newIds.Nodup := by
  rw [← Multiset.coe_nodup, ho.newIds]
  exact s.newIds.nodup

end

section
variable {Ix V K : Type} [DecidableEq Ix]

/-- Whoever holds a key that an object of the order had at first is before it in the order. -/
def Schema.Restorable (S : Schema Ix V K) (order : List (ObjectId Ix)) (before after : Values Ix V) : Prop :=
  ∀ a ∈ order, ∀ w, before.lookup a = some w → ∀ b v, after.lookup b = some v → b ≠ a → S.Clash ⟨b, v⟩ ⟨a, w⟩ →
    [b, a].Sublist order

instance [DecidableEq K] (S : Schema Ix V K) (order : List (ObjectId Ix)) (before after : Values Ix V) :
    Decidable (S.Restorable order before after) :=
  decidable_of_iff (∀ a ∈ order, ∀ w ∈ before.lookup a,
    ¬after.any (fun b v => b ≠ a ∧ S.Clash ⟨b, v⟩ ⟨a, w⟩ ∧ ¬[b, a].Sublist order) = true) <| by
    simp only [Schema.Restorable, any_eq_true, decide_eq_true_eq, not_exists, not_and, not_not, Option.mem_def]

/-- The objects can be written one after the other, with no other object in the way. -/
def Schema.Clear (S : Schema Ix V K) : List (Σ _ : ObjectId Ix, V) → Values Ix V → Prop
  | [], _ => True
  | e :: l, m => (∀ id v, m.lookup id = some v → id ≠ e.1 → ¬S.Clash ⟨id, v⟩ ⟨e.1, e.2⟩) ∧
      S.Clear l (m.insert e.1 e.2)

/-- In a list without repetitions, the elements before one of it. -/
theorem pair_sublist_iff {α : Type} {a b : α} {l r : List α} (h : (l ++ a :: r).Nodup) (hne : b ≠ a) :
    [b, a].Sublist (l ++ a :: r) ↔ b ∈ l := by
  induction l with
  | nil =>
    simp only [List.nil_append, List.not_mem_nil, iff_false]
    intro hsub
    rcases List.sublist_cons_iff.mp hsub with hsub | ⟨t, ht, -⟩
    · exact (List.nodup_cons.mp h).1 (hsub.subset (by simp))
    · exact hne (List.cons.inj ht).1
  | cons x l ih =>
    have htail := ih (List.nodup_cons.mp h).2
    rw [List.cons_append, List.sublist_cons_iff, htail, List.mem_cons]
    constructor
    · rintro (hb | ⟨t, ht, -⟩)
      · exact .inr hb
      · exact .inl (List.cons.inj ht).1
    · rintro (rfl | hb)
      · exact .inr ⟨[a], rfl, by simp⟩
      · exact .inl hb

/-- After the objects before it are written back, an object is free if its keys are held by none but those. -/
theorem Schema.free_iff {S : Schema Ix V K} {before after : Values Ix V} {l : List (Σ _ : ObjectId Ix, V)}
    {e : Σ _ : ObjectId Ix, V} (hb : S.Consistent before) (hl : (l.map Sigma.fst).Nodup)
    (hwas : ∀ e' ∈ e :: l, before.lookup e'.1 = some e'.2) :
    (∀ id v, (write l after).lookup id = some v → id ≠ e.1 → ¬S.Clash ⟨id, v⟩ ⟨e.1, e.2⟩) ↔
      ∀ b v, after.lookup b = some v → b ≠ e.1 → S.Clash ⟨b, v⟩ ⟨e.1, e.2⟩ → b ∈ l.map Sigma.fst := by
  constructor
  · intro h b v hv hne hclash
    by_contra hbl
    exact h b v (by rw [lookup_write_of_notMem hbl, hv]) hne hclash
  · intro h id v hv hne hclash
    by_cases hid : id ∈ l.map Sigma.fst
    · obtain ⟨e', he', rfl⟩ := List.mem_map.mp hid
      rw [lookup_write_of_mem hl he'] at hv
      obtain rfl := Option.some.inj hv
      exact hb _ _ _ _ (hwas e' (List.mem_cons_of_mem _ he')) (hwas e List.mem_cons_self) hne hclash
    · rw [lookup_write_of_notMem hid] at hv
      exact hid (h id v hv hne hclash)

/-- The objects can be written back in the order if each is free of the others when its turn comes. -/
theorem Schema.clear_iff {S : Schema Ix V K} {before after : Values Ix V} {l r : List (Σ _ : ObjectId Ix, V)}
    (hb : S.Consistent before) (hnodup : ((l ++ r).map Sigma.fst).Nodup)
    (hwas : ∀ e ∈ l ++ r, before.lookup e.1 = some e.2) :
    S.Clear r (write l after) ↔ ∀ e ∈ r, ∀ b v, after.lookup b = some v → b ≠ e.1 → S.Clash ⟨b, v⟩ ⟨e.1, e.2⟩ →
      [b, e.1].Sublist ((l ++ r).map Sigma.fst) := by
  induction r generalizing l with
  | nil => simp [Clear]
  | cons e r ih =>
    have happ : l ++ e :: r = (l ++ [e]) ++ r := by simp
    have hwritten : (write l after).insert e.1 e.2 = write (l ++ [e]) after := by simp [write]
    have hbefore : ∀ b, b ≠ e.1 → ([b, e.1].Sublist ((l ++ e :: r).map Sigma.fst) ↔ b ∈ l.map Sigma.fst) := fun b hne => by
      rw [List.map_append, List.map_cons] at hnodup ⊢
      exact pair_sublist_iff hnodup hne
    have hl : (l.map Sigma.fst).Nodup := by
      rw [List.map_append] at hnodup
      exact hnodup.of_append_left
    rw [Clear, hwritten, ih (happ ▸ hnodup) (happ ▸ hwas), ← happ, List.forall_mem_cons,
      free_iff hb hl fun e' he' => hwas e' (by
        rcases List.mem_cons.mp he' with rfl | he'
        · simp
        · exact List.mem_append_left _ he')]
    refine and_congr_left fun _ => forall₄_congr fun b v hv hne => ?_
    rw [hbefore b hne]

/-! ### What the records say -/

variable {S : Schema Ix V K} {s : UndoState Ix V} {order : IterationOrder Ix V} {id : ObjectId Ix} {w : V}
  {before after : Store Ix V}

namespace UndoState

theorem Records.of_oldValues (h : s.Records before after) (hw : s.oldValues.lookup id = some w) :
    before.objects.lookup id = some w ∧ id ∈ after.objects := by
  obtain ⟨χ, hrep, hlead⟩ := h.changes
  have hid := hlead id
  rw [(hrep.oldValues id w).mp hw] at hid
  generalize hx : after.objects.lookup id = x at hid
  generalize before.objects.lookup id = y at hid ⊢
  cases hid with
  | upd w x => exact ⟨rfl, Finmap.mem_of_lookup_eq_some hx⟩

theorem Records.of_newIds (h : s.Records before after) (hid : id ∈ s.newIds) :
    before.objects.lookup id = none ∧ id ∈ after.objects := by
  obtain ⟨χ, hrep, hlead⟩ := h.changes
  have hid' := hlead id
  rw [(hrep.newIds id).mp hid] at hid'
  generalize hx : after.objects.lookup id = x at hid'
  generalize before.objects.lookup id = y at hid' ⊢
  cases hid' with
  | new x => exact ⟨rfl, Finmap.mem_of_lookup_eq_some hx⟩

theorem Records.of_removed (h : s.Records before after) (hw : s.removed.lookup id = some w) :
    before.objects.lookup id = some w ∧ after.objects.lookup id = none := by
  obtain ⟨χ, hrep, hlead⟩ := h.changes
  have hid := hlead id
  rw [(hrep.removed id w).mp hw] at hid
  generalize after.objects.lookup id = x at hid ⊢
  generalize before.objects.lookup id = y at hid ⊢
  cases hid with
  | del w => exact ⟨rfl, rfl⟩

theorem Records.unchanged (h : s.Records before after) (hold : id ∉ s.oldValues) (hnew : id ∉ s.newIds)
    (hrem : id ∉ s.removed) : after.objects.lookup id = before.objects.lookup id := by
  obtain ⟨χ, hrep, hlead⟩ := h.changes
  have hid := hlead id
  cases hχ : χ id with
  | nop =>
    rw [hχ] at hid
    generalize after.objects.lookup id = x at hid ⊢
    generalize before.objects.lookup id = y at hid ⊢
    cases hid
    rfl
  | new => exact absurd ((hrep.newIds id).mpr hχ) hnew
  | upd w => exact absurd (hrep.mem_oldValues.mpr ⟨w, hχ⟩) hold
  | del w => exact absurd (hrep.mem_removed.mpr ⟨w, hχ⟩) hrem

/-- The old values are those that the objects had. -/
theorem Records.restorable_iff (h : s.Records before after) (ho : order.Of s) :
    S.Restorable (order.oldValues.map Sigma.fst) before.objects after.objects ↔
      ∀ e ∈ order.oldValues, ∀ b v, after.objects.lookup b = some v → b ≠ e.1 → S.Clash ⟨b, v⟩ ⟨e.1, e.2⟩ →
        [b, e.1].Sublist (order.oldValues.map Sigma.fst) := by
  constructor
  · intro hr e he
    exact hr e.1 (List.mem_map_of_mem he) e.2 (h.of_oldValues (ho.oldValues.mem_iff.mp he)).1
  · intro hr a ha w hw
    obtain ⟨e, he, rfl⟩ := List.mem_map.mp ha
    obtain rfl := Option.some.inj (hw.symm.trans (h.of_oldValues (ho.oldValues.mem_iff.mp he)).1)
    exact hr e he

end UndoState

/-- After the first two loops the store is the former one without what is still to be inserted. -/
theorem UndoState.Records.lookup_restored (h : s.Records before after) (ho : order.Of s) (id : ObjectId Ix) :
    (eraseAll order.newIds (write order.oldValues after.objects)).lookup id =
      if id ∈ s.removed then none else before.objects.lookup id := by
  by_cases hnew : id ∈ s.newIds
  · rw [lookup_eraseAll_of_mem (ho.mem_newIds.mpr hnew), (h.of_newIds hnew).1, ite_self]
  · rw [lookup_eraseAll_of_notMem fun hid => hnew (ho.mem_newIds.mp hid)]
    by_cases hold : id ∈ s.oldValues
    · obtain ⟨w, hw⟩ := Finmap.mem_iff.mp hold
      obtain ⟨hwas, hmem⟩ := h.of_oldValues hw
      have hrem : id ∉ s.removed := fun hrem => by
        obtain ⟨w', hw'⟩ := Finmap.mem_iff.mp hrem
        exact Finmap.lookup_eq_none.mp (h.of_removed hw').2 hmem
      rw [lookup_write_of_mem ho.oldValues.nodup (ho.oldValues.mem_iff.mpr hw), if_neg hrem, hwas]
    · rw [lookup_write_of_notMem fun hid => hold (ho.oldValues.mem_keys.mp hid)]
      split
      · rename_i hrem
        obtain ⟨w, hw⟩ := Finmap.mem_iff.mp hrem
        exact (h.of_removed hw).2
      · rename_i hrem
        exact h.unchanged hold hnew hrem

/-! ### The loops -/

variable [DecidableEq K] {d r : ObjectDatabase Ix V} {e : Σ _ : ObjectId Ix, V} {l : List (Σ _ : ObjectId Ix, V)}
  {ids : List (ObjectId Ix)}

namespace ObjectDatabase

theorem restoreOldValue_eq_ok (hd : d.disabled = true) (he : e.1 ∈ d.objects) :
    d.restoreOldValue S e = .ok r ↔
      (∀ id v, d.objects.lookup id = some v → id ≠ e.1 → ¬S.Clash ⟨id, v⟩ ⟨e.1, e.2⟩) ∧
        r = { d with toStore := d.toStore.put ⟨e.1, e.2⟩ } := by
  obtain ⟨w, hw⟩ := Finmap.mem_iff.mp he
  rw [restoreOldValue, getObject_bind]
  simp only [hw, modify_eq_ok, taken_eq_false, record_of_disabled hd, Option.some.injEq, exists_eq_left',
    Except.ok.injEq]

theorem restoreOldValues_eq_ok (hd : d.disabled = true) (hl : ∀ e ∈ l, e.1 ∈ d.objects) :
    l.foldlM (restoreOldValue S) d = .ok r ↔
      S.Clear l d.objects ∧ r = { d with objects := write l d.objects } := by
  induction l generalizing d with
  | nil =>
    simp only [Schema.Clear, true_and]
    exact ⟨fun h => (Except.ok.inj h).symm, fun h => congrArg Except.ok h.symm⟩
  | cons e l ih =>
    have hput : ∀ e' ∈ l, e'.1 ∈ (d.toStore.put ⟨e.1, e.2⟩).objects := fun e' he' =>
      Finmap.mem_insert.mpr (.inr (hl e' (List.mem_cons_of_mem _ he')))
    have hrest := ih (d := { d with toStore := d.toStore.put ⟨e.1, e.2⟩ }) hd hput
    rw [List.foldlM_cons]
    constructor
    · intro h
      cases he : d.restoreOldValue S e with
      | error t =>
        rw [he] at h
        cases h
      | ok d₁ =>
        obtain ⟨hfree, rfl⟩ := (restoreOldValue_eq_ok hd (hl e List.mem_cons_self)).mp he
        rw [he] at h
        obtain ⟨hclear, rfl⟩ := hrest.mp h
        exact ⟨⟨hfree, hclear⟩, rfl⟩
    · rintro ⟨⟨hfree, hclear⟩, rfl⟩
      rw [(restoreOldValue_eq_ok hd (hl e List.mem_cons_self)).mpr ⟨hfree, rfl⟩]
      exact hrest.mpr ⟨hclear, rfl⟩

theorem removeNew_eq_ok (hd : d.disabled = true) (hid : id ∈ d.objects) :
    d.removeNew id = .ok { d with toStore := d.toStore.erase id } := by
  obtain ⟨w, hw⟩ := Finmap.mem_iff.mp hid
  rw [removeNew, getObject_bind]
  exact ⟨w, hw, by rw [remove, record_of_disabled hd]; rfl⟩

theorem removeNews_eq_ok (hd : d.disabled = true) (hnodup : ids.Nodup) (hids : ∀ id ∈ ids, id ∈ d.objects) :
    ids.foldlM removeNew d = .ok { d with objects := eraseAll ids d.objects } := by
  induction ids generalizing d with
  | nil => rfl
  | cons id ids ih =>
    rw [List.nodup_cons] at hnodup
    rw [List.foldlM_cons, removeNew_eq_ok hd (hids id List.mem_cons_self)]
    refine ih (d := { d with toStore := d.toStore.erase id }) hd hnodup.2 fun id' hid' => ?_
    exact Finmap.mem_erase.mpr ⟨fun heq => hnodup.1 (heq ▸ hid'), hids id' (List.mem_cons_of_mem _ hid')⟩

/-- Objects of a consistent store go into a part of it that lacks them. -/
theorem restoreRemoved_eq_ok (hd : d.disabled = true) (hb : S.Consistent before.objects)
    (hnodup : (l.map Sigma.fst).Nodup) (hl : ∀ e ∈ l, before.objects.lookup e.1 = some e.2 ∧ e.1 ∉ d.objects)
    (hpart : ∀ id v, d.objects.lookup id = some v → before.objects.lookup id = some v) :
    l.foldlM (restoreRemoved S) d = .ok { d with objects := write l d.objects } := by
  induction l generalizing d with
  | nil => rfl
  | cons e l ih =>
    rw [List.map_cons, List.nodup_cons] at hnodup
    obtain ⟨hwas, hlacks⟩ := hl e List.mem_cons_self
    have hinsert : d.restoreRemoved S e = .ok { d with toStore := d.toStore.put ⟨e.1, e.2⟩ } := by
      refine insert_eq_ok.mpr ⟨⟨hlacks, taken_eq_false.mpr fun id v hv hne => ?_⟩, ?_⟩
      · exact hb id e.1 v e.2 (hpart id v hv) hwas hne
      · rw [record_of_disabled (by exact hd)]
    rw [List.foldlM_cons, hinsert]
    refine ih (d := { d with toStore := d.toStore.put ⟨e.1, e.2⟩ }) hd hnodup.2 (fun e' he' => ?_) fun id v hv => ?_
    · obtain ⟨hwas', hlacks'⟩ := hl e' (List.mem_cons_of_mem _ he')
      refine ⟨hwas', fun hmem => ?_⟩
      rcases Finmap.mem_insert.mp hmem with heq | hmem
      · exact hnodup.1 (List.mem_map.mpr ⟨e', he', heq⟩)
      · exact hlacks' hmem
    · rw [Store.put_objects] at hv
      by_cases hid : id = e.1
      · subst hid
        rw [Finmap.lookup_insert] at hv
        exact hv ▸ hwas
      · rw [Finmap.lookup_insert_of_ne _ hid] at hv
        exact hpart id v hv

end ObjectDatabase

namespace ObjectDatabase

/-- Once the old values are written back, the other loops make the store what it was. -/
theorem restore_rest (hd : d.disabled = true) (hb : S.Consistent before.objects) (h : s.Records before d.toStore)
    (ho : order.Of s) :
    (order.newIds.foldlM removeNew { d with objects := write order.oldValues d.objects } >>= fun d =>
      order.removed.foldlM (restoreRemoved S) (d.restoreNextIds s)) = .ok { d with toStore := before } := by
  have hnew : ∀ id ∈ order.newIds, id ∈ write order.oldValues d.objects := fun id hid => by
    obtain ⟨hwas, hmem⟩ := h.of_newIds (ho.mem_newIds.mp hid)
    obtain ⟨v, hv⟩ := Finmap.mem_iff.mp hmem
    refine Finmap.mem_of_lookup_eq_some (s := write order.oldValues d.objects) (b := v) ?_
    rw [lookup_write_of_notMem, hv]
    intro hold
    obtain ⟨w, hw⟩ := Finmap.mem_iff.mp (ho.oldValues.mem_keys.mp hold)
    rw [(h.of_oldValues hw).1] at hwas
    cases hwas
  rw [removeNews_eq_ok (d := { d with objects := write order.oldValues d.objects }) hd ho.nodup_newIds hnew]
  have hlookup := h.lookup_restored ho
  refine (restoreRemoved_eq_ok (d := { d with
    objects := eraseAll order.newIds (write order.oldValues d.objects)
    nextId := fun ix => (s.oldIndexNextIds.lookup ix).getD (d.nextId ix) })
    hd hb ho.removed.nodup (fun e he => ?_) fun id v hv => ?_).trans ?_
  · have hrem := ho.removed.mem_iff.mp he
    refine ⟨(h.of_removed hrem).1, Finmap.lookup_eq_none.mp ?_⟩
    exact (hlookup e.1).trans (if_pos (Finmap.mem_of_lookup_eq_some hrem))
  · have hrest := (hlookup id).symm.trans hv
    split at hrest
    · cases hrest
    · exact hrest
  · have hobjects : write order.removed (eraseAll order.newIds (write order.oldValues d.objects)) = before.objects := by
      refine Finmap.ext_lookup fun id => ?_
      by_cases hrem : id ∈ s.removed
      · obtain ⟨w, hw⟩ := Finmap.mem_iff.mp hrem
        rw [lookup_write_of_mem ho.removed.nodup (ho.removed.mem_iff.mpr hw), (h.of_removed hw).1]
      · rw [lookup_write_of_notMem fun hid => hrem (ho.removed.mem_keys.mp hid), hlookup id, if_neg hrem]
    have hnext : (fun ix => (s.oldIndexNextIds.lookup ix).getD (d.nextId ix)) = before.nextId :=
      funext fun ix => (h.nextIds ix).symm
    simp only [hobjects, hnext]

/-- The loops come to their end exactly where the old values can be written back in their order, and then the store is
    what it was. -/
theorem restore_eq_ok (hd : d.disabled = true) (hb : S.Consistent before.objects) (h : s.Records before d.toStore)
    (ho : order.Of s) :
    d.restore S order s = .ok r ↔
      S.Restorable (order.oldValues.map Sigma.fst) before.objects d.objects ∧ r = { d with toStore := before } := by
  have hold : ∀ e ∈ order.oldValues, before.objects.lookup e.1 = some e.2 ∧ e.1 ∈ d.objects := fun e he =>
    h.of_oldValues (ho.oldValues.mem_iff.mp he)
  have hclear : S.Clear order.oldValues d.objects ↔
      S.Restorable (order.oldValues.map Sigma.fst) before.objects d.objects := by
    rw [h.restorable_iff ho]
    exact S.clear_iff (l := []) hb ho.oldValues.nodup fun e he => (hold e he).1
  have hfirst := fun d₁ => restoreOldValues_eq_ok (S := S) (r := d₁) hd fun e he => (hold e he).2
  have hrest := restore_rest hd hb h ho
  rw [← hclear]
  unfold restore
  rw [bind_eq_ok]
  constructor
  · rintro ⟨d₁, h₁, hs⟩
    obtain ⟨hcl, rfl⟩ := (hfirst d₁).mp h₁
    exact ⟨hcl, (Except.ok.inj (hrest.symm.trans hs)).symm⟩
  · rintro ⟨hcl, rfl⟩
    exact ⟨_, (hfirst _).mpr ⟨hcl, rfl⟩, hrest⟩

end ObjectDatabase

end

end Khc.Db
