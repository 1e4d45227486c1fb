import Khc.Db.ObjectDatabase
import Khc.Lib.Change

/-! An undo state as one change of each object. No object can then be in two of its containers, the hooks compose the
    change of an object with one more, and a merge composes the changes of all objects. -/

namespace Khc.Db

open Lib

namespace UndoState
variable {Ix V : Type}

/-- The containers of the state hold the changes. -/
structure Represents (s : UndoState Ix V) [DecidableEq Ix] (χ : ObjectId Ix → Change V) : Prop where
  newIds : ∀ id, id ∈ s.newIds ↔ χ id = .new
  oldValues : ∀ id w, s.oldValues.lookup id = some w ↔ χ id = .upd w
  removed : ∀ id w, s.removed.lookup id = some w ↔ χ id = .del w

variable [DecidableEq Ix] {s t prev : UndoState Ix V} {χ ψ ω : ObjectId Ix → Change V} {o : Object Ix V}
  {id : ObjectId Ix} {c : Change V} {y : V}

theorem represents_empty : ({} : UndoState Ix V).Represents fun _ => .nop where
  newIds id := by simp
  oldValues id w := by simp
  removed id w := by simp

theorem Represents.mem_oldValues (h : s.Represents χ) : id ∈ s.oldValues ↔ ∃ w, χ id = .upd w := by
  simp only [Finmap.mem_iff, h.oldValues]

theorem Represents.mem_removed (h : s.Represents χ) : id ∈ s.removed ↔ ∃ w, χ id = .del w := by
  simp only [Finmap.mem_iff, h.removed]

theorem Represents.congr (h : s.Represents χ) (hn : t.newIds = s.newIds) (ho : t.oldValues = s.oldValues)
    (hr : t.removed = s.removed) : t.Represents χ :=
  ⟨fun id => hn ▸ h.newIds id, fun id w => ho ▸ h.oldValues id w, fun id w => hr ▸ h.removed id w⟩

/-- A state that differs in one object holds the changes but for that object. -/
theorem Represents.update (h : s.Represents χ)
    (hother : ∀ id', id' ≠ id → (id' ∈ t.newIds ↔ id' ∈ s.newIds) ∧
      t.oldValues.lookup id' = s.oldValues.lookup id' ∧ t.removed.lookup id' = s.removed.lookup id')
    (hnew : id ∈ t.newIds ↔ c = .new) (hold : ∀ w, t.oldValues.lookup id = some w ↔ c = .upd w)
    (hrem : ∀ w, t.removed.lookup id = some w ↔ c = .del w) : t.Represents (Function.update χ id c) := by
  constructor
  case newIds =>
    intro id'
    by_cases hid : id' = id
    · subst hid
      rw [Function.update_self, hnew]
    · rw [Function.update_of_ne hid, (hother id' hid).1, h.newIds]
  case oldValues =>
    intro id' w
    by_cases hid : id' = id
    · subst hid
      rw [Function.update_self, hold]
    · rw [Function.update_of_ne hid, (hother id' hid).2.1, h.oldValues]
  case removed =>
    intro id' w
    by_cases hid : id' = id
    · subst hid
      rw [Function.update_self, hrem]
    · rw [Function.update_of_ne hid, (hother id' hid).2.2, h.removed]

theorem Represents.lookup_eq_none (h : s.Represents χ) (id : ObjectId Ix) (hold : ∀ w, χ id ≠ .upd w) : s.oldValues.lookup id = none := by
  rw [Option.eq_none_iff_forall_not_mem]
  exact fun w hw => hold w ((h.oldValues id w).mp hw)

theorem Represents.removed_eq_none (h : s.Represents χ) (id : ObjectId Ix) (hdel : ∀ w, χ id ≠ .del w) : s.removed.lookup id = none := by
  rw [Option.eq_none_iff_forall_not_mem]
  exact fun w hw => hdel w ((h.removed id w).mp hw)

/-! ### The hooks -/

/-- An id that becomes new, whatever the state keeps of the next ids. -/
theorem Represents.insertNew (h : s.Represents χ) (hc : (χ id).comp .new = some c)
    (ids : Finmap fun _ : Ix => ObjectId Ix) :
    ({ s with oldIndexNextIds := ids, newIds := insert id s.newIds } : UndoState Ix V).Represents
      (Function.update χ id c) := by
  cases hχ : χ id with
  | nop =>
    rw [hχ] at hc
    obtain rfl := Option.some.inj hc
    refine h.update (fun id' hid => ⟨by simp [hid], rfl, rfl⟩) (by simp) (fun w => ?_) fun w => ?_
    · simp [h.lookup_eq_none id (by simp [hχ])]
    · simp [h.removed_eq_none id (by simp [hχ])]
  | _ =>
    rw [hχ] at hc
    cases hc

theorem Represents.onCreate (h : s.Represents χ) (hc : (χ o.id).comp .new = some c) :
    (s.onCreate o).Represents (Function.update χ o.id c) :=
  h.insertNew hc _

theorem Represents.onModify (h : s.Represents χ) (hc : (χ o.id).comp (.upd o.value) = some c) :
    (s.onModify o).Represents (Function.update χ o.id c) := by
  unfold UndoState.onModify
  cases hχ : χ o.id with
  | nop =>
    rw [hχ] at hc
    obtain rfl := Option.some.inj hc
    have hnew : o.id ∉ s.newIds := by simp [h.newIds, hχ]
    have hold : o.id ∉ s.oldValues := by simp [h.mem_oldValues, hχ]
    rw [if_neg hnew, if_neg hold]
    refine h.update (fun id' hid => ⟨Iff.rfl, Finmap.lookup_insert_of_ne _ hid, rfl⟩) (by simp [hnew]) (fun w => ?_)
      fun w => ?_
    · rw [Finmap.lookup_insert]
      simp
    · simp [h.removed_eq_none o.id (by simp [hχ])]
  | new =>
    rw [hχ] at hc
    obtain rfl := Option.some.inj hc
    rw [if_pos ((h.newIds _).mpr hχ), ← hχ, Function.update_eq_self]
    exact h
  | upd x =>
    rw [hχ] at hc
    obtain rfl := Option.some.inj hc
    have hnew : o.id ∉ s.newIds := by simp [h.newIds, hχ]
    rw [if_neg hnew, if_pos (h.mem_oldValues.mpr ⟨x, hχ⟩), ← hχ, Function.update_eq_self]
    exact h
  | del x =>
    rw [hχ] at hc
    cases hc

theorem Represents.onRemove (h : s.Represents χ) (hc : (χ o.id).comp (.del o.value) = some c) :
    (s.onRemove o).Represents (Function.update χ o.id c) := by
  unfold UndoState.onRemove
  cases hχ : χ o.id with
  | nop =>
    rw [hχ] at hc
    obtain rfl := Option.some.inj hc
    have hnew : o.id ∉ s.newIds := by simp [h.newIds, hχ]
    have hold := h.lookup_eq_none o.id (by simp [hχ])
    have hrem : o.id ∉ s.removed := by simp [h.mem_removed, hχ]
    rw [if_neg hnew, hold]
    simp only [if_neg hrem]
    refine h.update (fun id' hid => ⟨Iff.rfl, rfl, Finmap.lookup_insert_of_ne _ hid⟩) (by simp [hnew])
      (fun w => by simp [hold]) fun w => ?_
    rw [Finmap.lookup_insert]
    simp
  | new =>
    rw [hχ] at hc
    obtain rfl := Option.some.inj hc
    rw [if_pos ((h.newIds _).mpr hχ)]
    refine h.update (fun id' hid => ⟨by simp [hid], rfl, rfl⟩) (by simp) (fun w => ?_) fun w => ?_
    · simp [h.lookup_eq_none o.id (by simp [hχ])]
    · simp [h.removed_eq_none o.id (by simp [hχ])]
  | upd x =>
    rw [hχ] at hc
    obtain rfl := Option.some.inj hc
    have hnew : o.id ∉ s.newIds := by simp [h.newIds, hχ]
    rw [if_neg hnew, (h.oldValues _ x).mpr hχ]
    refine h.update (fun id' hid => ⟨Iff.rfl, Finmap.lookup_erase_ne hid, Finmap.lookup_insert_of_ne _ hid⟩)
      (by simp [hnew]) (fun w => ?_) fun w => ?_
    · rw [Finmap.lookup_erase]
      simp
    · rw [Finmap.lookup_insert]
      simp
  | del x =>
    rw [hχ] at hc
    cases hc

/-! ### The merge -/

/-- A round of the first loop is the hook of a modification, where the changes compose. -/
theorem mergeOldValue_eq (h : prev.Represents χ) (hc : (χ id).comp (.upd y) = some c) :
    prev.mergeOldValue ⟨id, y⟩ = some (prev.onModify ⟨id, y⟩) := by
  unfold mergeOldValue UndoState.onModify
  split
  · rfl
  · split
    · rfl
    · rename_i hold
      rw [if_neg]
      intro hrem
      obtain ⟨w, hw⟩ := h.mem_removed.mp hrem
      rw [hw] at hc
      cases hc

/-- A round of the last loop is the hook of a removal, where the changes compose. -/
theorem mergeRemoved_eq (h : prev.Represents χ) (hc : (χ id).comp (.del y) = some c) :
    prev.mergeRemoved ⟨id, y⟩ = some (prev.onRemove ⟨id, y⟩) := by
  unfold mergeRemoved UndoState.onRemove
  split
  · rfl
  · simp only
    split
    · rfl
    · have hrem : id ∉ prev.removed := fun hrem => by
        obtain ⟨w, hw⟩ := h.mem_removed.mp hrem
        rw [hw] at hc
        cases hc
      rw [if_neg hrem, if_neg hrem]

theorem onModify_nextIds (s : UndoState Ix V) (obj : Object Ix V) :
    (s.onModify obj).oldIndexNextIds = s.oldIndexNextIds := by
  unfold UndoState.onModify
  split_ifs <;> rfl

theorem onRemove_nextIds (s : UndoState Ix V) (obj : Object Ix V) :
    (s.onRemove obj).oldIndexNextIds = s.oldIndexNextIds := by
  unfold UndoState.onRemove
  split
  · rfl
  · split
    · rfl
    · split_ifs <;> rfl

/-- A loop that composes the changes of different objects, one in each round. -/
theorem represents_foldlM {α : Type} {f : UndoState Ix V → α → Option (UndoState Ix V)} {k : α → ObjectId Ix}
    {δ : α → Change V}
    (hround : ∀ s χ a c, s.Represents χ → (χ (k a)).comp (δ a) = some c → ∃ t, f s a = some t ∧
      t.Represents (Function.update χ (k a) c) ∧ t.oldIndexNextIds = s.oldIndexNextIds)
    {l : List α} (hl : (l.map k).Nodup) (h : s.Represents χ)
    (hcomp : ∀ a ∈ l, (χ (k a)).comp (δ a) = some (ω (k a))) :
    ∃ t, l.foldlM f s = some t ∧ t.Represents (fun id => if id ∈ l.map k then ω id else χ id) ∧
      t.oldIndexNextIds = s.oldIndexNextIds := by
  induction l generalizing s χ with
  | nil => exact ⟨s, rfl, by simpa using h, rfl⟩
  | cons a l ih =>
    rw [List.map_cons, List.nodup_cons] at hl
    obtain ⟨t, ht, hrep, hids⟩ := hround s χ a _ h (hcomp a List.mem_cons_self)
    have hne : ∀ b ∈ l, k b ≠ k a := fun b hb heq => hl.1 (heq ▸ List.mem_map_of_mem hb)
    obtain ⟨t', ht', hrep', hids'⟩ := ih hl.2 hrep fun b hb => by
      rw [Function.update_of_ne (hne b hb)]
      exact hcomp b (List.mem_cons_of_mem _ hb)
    refine ⟨t', by rw [List.foldlM_cons, ht]; exact ht', ?_, hids'.trans hids⟩
    have hsame : (fun id => if id ∈ (a :: l).map k then ω id else χ id) =
        fun id => if id ∈ l.map k then ω id else Function.update χ (k a) (ω (k a)) id := by
      funext id
      by_cases hid : id = k a
      · subst hid
        simp [hl.1]
      · simp [hid]
    rw [hsame]
    exact hrep'

variable {order : IterationOrder Ix V}

/-- Where the changes of two states compose, a merge makes them one, and no assertion fails. -/
theorem mergeInto_eq (hp : prev.Represents χ) (hs : s.Represents ψ) (ho : order.Of s)
    (hcomp : ∀ id, (χ id).comp (ψ id) = some (ω id)) :
    ∃ t, s.mergeInto order prev = some t ∧ t.Represents ω ∧
      t.oldIndexNextIds = prev.oldIndexNextIds ∪ s.oldIndexNextIds := by
  have hold : ∀ e ∈ order.oldValues, ψ e.1 = .upd e.2 := fun e he =>
    (hs.oldValues _ _).mp (ho.oldValues.mem_iff.mp he)
  have hrem : ∀ e ∈ order.removed, ψ e.1 = .del e.2 := fun e he => (hs.removed _ _).mp (ho.removed.mem_iff.mp he)
  have hnew : ∀ id ∈ order.newIds, ψ id = .new := fun id hid =>
    (hs.newIds _).mp (by rw [← Finset.mem_val, ← ho.newIds]; exact hid)
  have hnewNodup : order.newIds.Nodup := by
    rw [← Multiset.coe_nodup, ho.newIds]
    exact s.newIds.nodup
  -- the three loops change different objects, by what the state has of them
  obtain ⟨t₁, ht₁, hrep₁, hids₁⟩ := represents_foldlM (f := mergeOldValue) (k := Sigma.fst)
    (δ := fun e => .upd e.2) (ω := ω)
    (fun s χ e c h hc => ⟨_, mergeOldValue_eq h hc, h.onModify (o := ⟨e.1, e.2⟩) hc, onModify_nextIds _ _⟩)
    ho.oldValues.nodup hp fun e he => hold e he ▸ hcomp e.1
  obtain ⟨t₂, ht₂, hrep₂, hids₂⟩ := represents_foldlM (f := mergeNewId) (k := fun id => id)
    (δ := fun _ => .new) (ω := ω) (fun s χ id c h hc => ⟨_, rfl, h.insertNew hc _, rfl⟩)
    (by rwa [List.map_id']) hrep₁ fun id hid => by
      have hother : id ∉ order.oldValues.map Sigma.fst := fun hmem => by
        obtain ⟨e, he, rfl⟩ := List.mem_map.mp hmem
        have := (hnew _ hid).symm.trans (hold e he)
        cases this
      rw [if_neg hother]
      exact hnew id hid ▸ hcomp id
  obtain ⟨t₃, ht₃, hrep₃, hids₃⟩ := represents_foldlM (f := mergeRemoved) (k := Sigma.fst)
    (δ := fun e => .del e.2) (ω := ω)
    (fun s χ e c h hc => ⟨_, mergeRemoved_eq h hc, h.onRemove (o := ⟨e.1, e.2⟩) hc, onRemove_nextIds _ _⟩)
    ho.removed.nodup (hrep₂.congr (t := { t₂ with oldIndexNextIds := t₂.oldIndexNextIds ∪ s.oldIndexNextIds })
      rfl rfl rfl) fun e he => by
      have hother : e.1 ∉ order.oldValues.map Sigma.fst := fun hmem => by
        obtain ⟨e', he', heq⟩ := List.mem_map.mp hmem
        have := (hrem e he).symm.trans (heq ▸ hold e' he')
        cases this
      have hother' : e.1 ∉ order.newIds.map fun id => id := fun hmem => by
        rw [List.map_id'] at hmem
        have := (hrem e he).symm.trans (hnew _ hmem)
        cases this
      rw [if_neg hother', if_neg hother]
      exact hrem e he ▸ hcomp e.1
  refine ⟨t₃, ?_, ?_, ?_⟩
  · rw [mergeInto, ht₁]
    simp only [Option.bind_eq_bind, Option.bind_some, ht₂, ht₃]
  · have hω : ω = fun id => if id ∈ order.removed.map Sigma.fst then ω id else
        if id ∈ order.newIds.map fun id => id then ω id else
          if id ∈ order.oldValues.map Sigma.fst then ω id else χ id := by
      funext id
      split_ifs with h₁ h₂ h₃
      · rfl
      · rfl
      · rfl
      · -- an object in none of the containers has not changed
        have hnop : ψ id = .nop := by
          cases hψ : ψ id with
          | nop => rfl
          | new =>
            refine absurd ?_ h₂
            rw [List.map_id', ← Multiset.mem_coe, ho.newIds]
            exact (hs.newIds id).mpr hψ
          | upd w => exact absurd (ho.oldValues.mem_keys.mpr (hs.mem_oldValues.mpr ⟨w, hψ⟩)) h₃
          | del w => exact absurd (ho.removed.mem_keys.mpr (hs.mem_removed.mpr ⟨w, hψ⟩)) h₁
        have hid := hcomp id
        rw [hnop, Change.comp_nop] at hid
        exact (Option.some.inj hid).symm
    rw [hω]
    exact hrep₃
  · rw [hids₃, hids₂, hids₁]

end UndoState

end Khc.Db
