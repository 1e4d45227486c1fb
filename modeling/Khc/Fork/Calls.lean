import Khc.Fork.Retention

/-! Runs of calls of the fork database, and which items the walks of `fetch_branch_from` can go back to. -/

namespace Khc.Fork

open Lib ForkItem

variable {Block Id : Type}

namespace ForkItem
variable {own : ForkItem Block → Bool} {B : Blocks Block Id} {x y a z p : ForkItem Block}

/-- Going back from the one item to the other, each `prev` locks. -/
inductive HeldTo (own : ForkItem Block → Bool) : ForkItem Block → ForkItem Block → Prop
  | here (x : ForkItem Block) : HeldTo own x x
  | back {b : Block} {s : Nat} {p a : ForkItem Block} : own p → HeldTo own p a → HeldTo own (.child b s p) a

theorem HeldTo.mem_trail (h : HeldTo own x a) : a ∈ x.trail := by
  induction h with
  | here x => exact mem_trail_self x
  | back hp h ih => exact List.mem_cons_of_mem _ ih

theorem HeldTo.chained (h : HeldTo own x a) (hx : x.Chained B) : a.Chained B := hx.of_mem h.mem_trail

theorem HeldTo.blockNum_le (h : HeldTo own x a) (hx : x.Chained B) : B.blockNum a.block ≤ B.blockNum x.block :=
  hx.blockNum_le h.mem_trail

theorem HeldTo.trans (h : HeldTo own x y) (h' : HeldTo own y a) : HeldTo own x a := by
  induction h with
  | here x => exact h'
  | back hp h ih => exact .back hp (ih h')

/-- A parent is one block below. -/
theorem Chained.blockNum_child {b : Block} {s : Nat} (h : (child b s p).Chained B) :
    B.blockNum b = B.blockNum p.block + 1 := by
  unfold Blocks.blockNum
  rw [h.1, B.numFromId_id]

/-- There is one item of each number on the way back. -/
theorem Chained.eq_of_blockNum (hx : x.Chained B) (h : a ∈ x.trail) (hn : B.blockNum x.block = B.blockNum a.block) :
    x = a := by
  obtain ⟨l, hl⟩ := trail_suffix h
  have hnum := hx.blockNum_trail hl.symm
  obtain rfl : l = [] := List.length_eq_zero_iff.mp (by omega)
  exact eq_of_trail_eq hl.symm

/-- The way back is held where each item of it is. -/
theorem HeldTo.of_trail (ha : a ∈ x.trail) (h : ∀ z ∈ x.trail, a ∈ z.trail → own z) : HeldTo own x a := by
  induction x with
  | root b s =>
    obtain rfl := List.mem_singleton.mp ha
    exact .here _
  | child b s p ih =>
    rcases List.mem_cons.mp ha with rfl | hap
    · exact .here _
    · have hp : p ∈ (child b s p).trail := List.mem_cons_of_mem _ (mem_trail_self p)
      exact .back (h p hp hap) (ih hap fun z hz => h z (List.mem_cons_of_mem _ hz))

end ForkItem

namespace ForkDatabase
variable [DecidableEq Id] {B : Blocks Block Id} {f g : ForkDatabase Block} {own : ForkItem Block → Bool}
  {x y a c : ForkItem Block} {n : Nat}

/-! ### The walks return -/

omit [DecidableEq Id] in
/-- The first walk stops at the number or, if it starts below it, at once. -/
theorem descend_of_heldTo (h : HeldTo own x a) (hx : x.Chained B) (ha : B.blockNum a.block ≤ n) :
    ∃ l y, descend B own n x = .ok (l, y) ∧ HeldTo own y a ∧ y.Chained B ∧
      B.blockNum y.block = min n (B.blockNum x.block) := by
  have here : ∀ {x : ForkItem Block}, HeldTo own x a → x.Chained B → B.blockNum x.block ≤ n →
      ∃ l y, descend B own n x = .ok (l, y) ∧ HeldTo own y a ∧ y.Chained B ∧
        B.blockNum y.block = min n (B.blockNum x.block) := by
    intro x h hx hle
    refine ⟨[], x, ?_, h, hx, by omega⟩
    cases x <;> exact if_pos hle
  induction h with
  | here x => exact here (.here x) hx ha
  | @back b s p a hp h ih =>
    by_cases hle : B.blockNum b ≤ n
    · exact here (.back hp h) hx hle
    · obtain ⟨l, y, hd, hy, hyc, hnum⟩ := ih hx.2 ha here
      have hb := hx.blockNum_child
      refine ⟨child b s p :: l, y, ?_, hy, hyc, ?_⟩
      · rw [descend, if_neg hle, if_pos hp, hd]
        rfl
      · rw [hnum, block_child]
        omega

/-- The walks in lockstep return where both items lead to siblings. -/
theorem converge_of_heldTo (hx : HeldTo own x a) (hy : HeldTo own y c) (hxc : x.Chained B) (hyc : y.Chained B)
    (hn : B.blockNum x.block = B.blockNum y.block) (hac : B.blockNum a.block = B.blockNum c.block)
    (hprev : B.previous a.block = B.previous c.block) : ∃ l m, converge B own x y = .ok (l, m) := by
  have here : ∀ {x y : ForkItem Block}, B.previous x.block = B.previous y.block →
      ∃ l m, converge B own x y = .ok (l, m) := by
    intro x y h
    refine ⟨[x], [y], ?_⟩
    cases x <;> cases y <;> exact if_pos h
  induction hx generalizing y with
  | here x =>
    obtain rfl := hyc.eq_of_blockNum hy.mem_trail (hn.symm.trans hac)
    exact here hprev
  | @back b s p a hp hpa ih =>
    cases hy with
    | here =>
      have hle := hpa.blockNum_le hxc.2
      have hb := hxc.blockNum_child
      rw [block_child] at hn
      omega
    | @back b' s' q _ hq hqc =>
      by_cases heq : B.previous b = B.previous b'
      · exact here heq
      · have hpq : B.blockNum p.block = B.blockNum q.block := by
          have hb := hxc.blockNum_child
          have hb' := hyc.blockNum_child
          rw [block_child, block_child] at hn
          omega
        obtain ⟨l, m, hlm⟩ := ih hqc hxc.2 hyc.2 hpq hac hprev
        refine ⟨child b s p :: l, child b' s' q :: m, ?_⟩
        rw [converge, if_neg heq, hp, hq, hlm]
        rfl

omit [DecidableEq Id] in
theorem popBlock_back {held : List (ForkItem Block)} (h : f.popBlock held = .ok g) :
    ∃ y p, f.head = some y ∧ y.prev = some p ∧ g = { f with head := some p } := by
  unfold popBlock at h
  split at h
  next => cases h
  next y hy =>
    split at h
    next => cases h
    next p hp =>
      split at h
      next => exact ⟨y, p, hy, hp, (Except.ok.inj h).symm⟩
      next => cases h

/-! ### Calls -/

/-- The calls that change the database. `set_head` is given an item that is linked. -/
inductive Call (Block Id : Type)
  | push (b : Block)
  | pop
  | setHead (id : Id)
  | remove (id : Id)
  | setMaxSize (size : Nat)
  deriving DecidableEq

/-- A call, whether it returns or throws. -/
def step (B : Blocks Block Id) (f : ForkDatabase Block) : Call Block Id → ForkDatabase Block
  | .push b => match f.pushBlock B b with
    | .ok (g, _) => g
    | .error _ => f
  | .pop => match f.popBlock [] with
    | .ok g => g
    | .error _ => f
  | .setHead id => match f.find B id with
    | some x => f.setHead x
    | none => f
  | .remove id => f.remove B id
  | .setMaxSize size => f.setMaxSize B size

/-- A database without blocks, or one that was started with a block. -/
def Opened (f : ForkDatabase Block) : Prop :=
  f.index = [] ∧ f.head = none ∨ ∃ (g : ForkDatabase Block) (b : Block), g.index = [] ∧ f = g.startBlock b

/-- What holds after any calls: the items are chained and told apart, and what is missing between two linked items was
    removed. -/
structure Kept (B : Blocks Block Id) (f : ForkDatabase Block) (calls : List (Call Block Id)) : Prop where
  index : ∀ x ∈ f.index, x.Chained B
  head : ∀ x ∈ f.head, x.Chained B
  addressed : Addressed [] f
  between : ∀ x ∈ f.index, ∀ z ∈ x.trail, ∀ a ∈ z.trail, a ∈ f.index → z ∈ f.index ∨ .remove (B.id z.block) ∈ calls

omit [DecidableEq Id] in
theorem Opened.kept (h : Opened f) : Kept B f [] := by
  rcases h with ⟨hi, hh⟩ | ⟨g, b, hg, rfl⟩
  · refine ⟨by simp [hi], by simp [hh], ⟨?_, ?_, fun _ => hi⟩, by simp [hi]⟩
    · rintro u ⟨x, hx | hx | hx, -⟩
      · cases hx
      · simp [hi] at hx
      · simp [hh] at hx
    · rintro u v ⟨x, hx | hx | hx, -⟩
      · cases hx
      · simp [hi] at hx
      · simp [hh] at hx
  · have hindex : (g.startBlock b).index = [.root b g.next] := by simp [startBlock, hg]
    have hall : ∀ u, Leads [] (g.startBlock b) u → u = .root b g.next := by
      rintro u ⟨x, hx, hu⟩
      have hx : x = .root b g.next := by
        rcases hx with hx | hx | hx
        · cases hx
        · rw [hindex] at hx
          exact List.mem_singleton.mp hx
        · exact (Option.some.inj hx).symm
      rw [hx] at hu
      exact List.mem_singleton.mp hu
    refine ⟨?_, ?_, ⟨?_, ?_, by rintro ⟨⟩⟩, ?_⟩
    · intro x hx
      rw [hindex] at hx
      obtain rfl := List.mem_singleton.mp hx
      trivial
    · intro x hx
      obtain rfl := Option.some.inj hx
      trivial
    · intro u hu
      rw [hall u hu]
      exact Nat.lt_succ_self _
    · intro u v hu hv _
      rw [hall u hu, hall v hv]
    · intro x hx z hz a ha _
      rw [hindex] at hx ⊢
      obtain rfl := List.mem_singleton.mp hx
      exact .inl hz

omit [DecidableEq Id] in
/-- Items are taken out of the index. -/
theorem Kept.shrink {calls : List (Call Block Id)} (h : Kept B f calls) (hi : ∀ x ∈ g.index, x ∈ f.index)
    (hh : ∀ x ∈ g.head, x.Chained B) (ha : Addressed [] g)
    (hz : ∀ z ∈ f.index, ∀ a ∈ g.index, a ∈ z.trail → z ∈ g.index) : Kept B g calls where
  index x hx := h.index x (hi x hx)
  head := hh
  addressed := ha
  between x hx z hzx a haz hag := by
    rcases h.between x (hi x hx) z hzx a haz (hi a hag) with hzf | hrem
    · exact .inl (hz z hzf a hag haz)
    · exact .inr hrem

omit [DecidableEq Id] in
theorem Kept.more {calls : List (Call Block Id)} (h : Kept B f calls) (call : Call Block Id) :
    Kept B f (calls ++ [call]) where
  index := h.index
  head := h.head
  addressed := h.addressed
  between x hx z hz a ha haf := by
    rcases h.between x hx z hz a ha haf with hzf | hrem
    · exact .inl hzf
    · exact .inr (List.mem_append_left _ hrem)

theorem Kept.remove {calls : List (Call Block Id)} (h : Kept B f calls) (id : Id) :
    Kept B (f.remove B id) (calls ++ [.remove id]) where
  index x hx := h.index x (mem_remove.mp hx).1
  head x hx := h.head x hx
  addressed := h.addressed.remove id
  between x hx z hz a ha haf := by
    rcases h.between x (mem_remove.mp hx).1 z hz a ha (mem_remove.mp haf).1 with hzf | hrem
    · by_cases hid : B.id z.block = id
      · exact .inr (List.mem_append_right _ (by simp [hid]))
      · exact .inl (mem_remove.mpr ⟨hzf, hid⟩)
    · exact .inr (List.mem_append_left _ hrem)

/-- A new item: what is erased with it is below all that stays. -/
theorem mem_link_of_le {z : ForkItem Block} (hz : z ∈ f.index) (ha : a ∈ (f.link B x).index)
    (hle : B.blockNum a.block ≤ B.blockNum z.block) : z ∈ (f.link B x).index := by
  unfold link at ha ⊢
  cases hh : f.head with
  | none => exact subset_insert hz
  | some h =>
    rw [hh] at ha
    dsimp only at ha ⊢
    split
    next hlt =>
      rw [if_pos hlt] at ha
      exact mem_eraseBelow.mpr ⟨subset_insert hz, (mem_eraseBelow.mp ha).2.trans hle⟩
    next => exact subset_insert hz

theorem Kept.push {calls : List (Call Block Id)} {b : Block} (h : Kept B f calls) (hx : Takes B f b x) :
    Kept B (f.link B x) calls := by
  have hxc := hx.chained h.index
  have hserial : x.serial = f.next := by
    rcases hx.prev with ⟨rfl, -⟩ | ⟨p, -, rfl, -⟩ <;> rfl
  have hfresh : ∀ y ∈ f.index, ∀ u ∈ y.trail, u ≠ x := by
    rintro y hy u hu rfl
    have hlt := h.addressed.fresh u ((leads_index hy).trail hu)
    omega
  refine ⟨?_, ?_, h.addressed.takes hx, ?_⟩
  · intro y hy
    rcases mem_link hy with hy | rfl
    · exact h.index y hy
    · exact hxc
  · intro y hy
    rcases link_head (B := B) (f := f) (x := x) with ⟨hl, -⟩ | ⟨z, hz, hl, -⟩
    · obtain rfl := Option.some.inj (hl.symm.trans hy)
      exact hxc
    · obtain rfl := Option.some.inj (hl.symm.trans hy)
      exact h.head z hz
  · -- An item that an old one leads to: what it leads to was there before.
    have hold : ∀ y ∈ f.index, ∀ z ∈ y.trail, ∀ a ∈ z.trail, a ∈ (f.link B x).index →
        z ∈ (f.link B x).index ∨ .remove (B.id z.block) ∈ calls := by
      intro y hy z hz a ha haf
      rcases mem_link haf with haf' | rfl
      · rcases h.between y hy z hz a ha haf' with hzf | hrem
        · exact .inl (mem_link_of_le hzf haf ((h.index z hzf).blockNum_le ha))
        · exact .inr hrem
      · exact absurd rfl (hfresh y hy a ((trail_suffix hz).mem ha))
    intro y hy z hz a ha haf
    rcases mem_link hy with hy' | rfl
    · exact hold y hy' z hz a ha haf
    · rcases hx.prev with ⟨rfl, -⟩ | ⟨p, hp, rfl, -⟩
      · obtain rfl := List.mem_singleton.mp hz
        exact .inl hy
      · rcases List.mem_cons.mp hz with rfl | hz
        · exact .inl hy
        · exact hold p hp z hz a ha haf

theorem Kept.step {calls : List (Call Block Id)} (h : Kept B f calls) (call : Call Block Id) :
    Kept B (f.step B call) (calls ++ [call]) := by
  cases call with
  | push b =>
    refine .more ?_ _
    dsimp only [ForkDatabase.step]
    split
    next g y hp =>
      obtain ⟨x, hx, rfl, -⟩ := pushBlock_eq_ok hp
      exact h.push hx
    next => exact h
  | pop =>
    refine .more ?_ _
    dsimp only [ForkDatabase.step]
    split
    next g hp =>
      obtain ⟨y, p, hy, hpy, rfl⟩ := popBlock_back hp
      have hlead : Leads [] f p :=
        (leads_head hy).trail (by rw [trail_of_prev hpy]; exact List.mem_cons_of_mem _ (mem_trail_self p))
      refine h.shrink (fun _ hx => hx) ?_ (h.addressed.setHead hlead) (fun _ hz _ _ _ => hz)
      intro x hx
      obtain rfl := Option.some.inj hx
      exact ((h.head y hy).prev hpy).2
    next => exact h
  | setHead id =>
    refine .more ?_ _
    dsimp only [ForkDatabase.step]
    split
    next x hf =>
      obtain ⟨hx, -⟩ := find_eq_some hf
      refine h.shrink (fun _ hx => hx) ?_ (h.addressed.setHead (leads_index hx)) (fun _ hz _ _ _ => hz)
      intro y hy
      obtain rfl := Option.some.inj hy
      exact h.index x hx
    next => exact h
  | remove id => exact h.remove id
  | setMaxSize size =>
    refine .more ?_ _
    refine h.shrink (fun x hx => (mem_setMaxSize.mp hx).1) ?_ (h.addressed.setMaxSize size) ?_
    · intro x hx
      exact h.head x (setMaxSize_head.symm.trans hx)
    · intro z hz a ha haz
      obtain ⟨-, ha⟩ := mem_setMaxSize.mp ha
      refine mem_setMaxSize.mpr ⟨hz, fun y hy => ?_⟩
      have hle := (h.index z hz).blockNum_le haz
      have hay := ha y hy
      omega

theorem Opened.run (h : Opened f) (calls : List (Call Block Id)) : Kept B (run (step B) f calls) calls := by
  induction calls using List.reverseRecOn with
  | nil => exact h.kept
  | append_singleton calls call ih =>
    rw [run_snoc]
    exact ih.step call

end ForkDatabase

end Khc.Fork
