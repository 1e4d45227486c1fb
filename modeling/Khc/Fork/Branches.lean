import Khc.Fork.ForkDatabase

/-! What the fork database links, and the two branches that `fetch_branch_from` returns. -/

namespace Khc.Fork

open Lib

namespace ForkItem
variable {Block Id : Type} {B : Blocks Block Id} {x y z p : ForkItem Block}

/-- Each item is made of the block that the next one names as its previous block. -/
def Chained (B : Blocks Block Id) : ForkItem Block → Prop
  | .root _ _ => True
  | .child b _ p => B.previous b = B.id p.block ∧ p.Chained B

theorem Chained.of_mem (h : x.Chained B) (hy : y ∈ x.trail) : y.Chained B := by
  induction x with
  | root b s =>
    obtain rfl := List.mem_singleton.mp hy
    exact h
  | child b s p ih =>
    rcases List.mem_cons.mp hy with rfl | hy
    · exact h
    · exact ih h.2 hy

theorem Chained.prev (h : x.Chained B) (hp : x.prev = some p) : B.previous x.block = B.id p.block ∧ p.Chained B := by
  cases x with
  | root b s => cases hp
  | child b s q =>
    obtain rfl := Option.some.inj hp
    exact h

/-- An item some steps back has a number as much smaller. -/
theorem Chained.blockNum_trail (h : x.Chained B) {l : List (ForkItem Block)} (ht : x.trail = l ++ y.trail) :
    B.blockNum x.block = B.blockNum y.block + l.length := by
  induction x generalizing l with
  | root b s =>
    cases l with
    | nil => rw [trail_eq y, List.nil_append] at ht; cases ht; rfl
    | cons z l =>
      have hnil : l ++ y.trail = [] := (List.cons.inj ht).2.symm
      rw [trail_eq y] at hnil
      simp at hnil
  | child b s p ih =>
    cases l with
    | nil =>
      rw [trail_eq y, List.nil_append] at ht
      have hxy : child b s p = y := (List.cons.inj ht).1
      rw [← hxy, List.length_nil, Nat.add_zero]
    | cons z l =>
      have hp := ih h.2 (List.cons.inj ht).2
      have hb : B.blockNum (child b s p).block = B.blockNum p.block + 1 := by
        show B.numFromId (B.previous b) + 1 = _
        rw [h.1, B.numFromId_id]
        rfl
      rw [hb, hp, List.length_cons]
      omega

theorem Chained.blockNum_le (h : x.Chained B) (hy : y ∈ x.trail) : B.blockNum y.block ≤ B.blockNum x.block := by
  obtain ⟨l, hl⟩ := trail_suffix hy
  have hnum := h.blockNum_trail hl.symm
  omega

/-- Each item of a path leads to its end. -/
theorem end_mem_trail {a : ForkItem Block} {l : List (ForkItem Block)} (ht : x.trail = l ++ a.trail)
    (hz : z ∈ l ++ [a]) : a ∈ z.trail := by
  induction x generalizing l with
  | root b s =>
    cases l with
    | nil =>
      obtain rfl := List.mem_singleton.mp hz
      exact mem_trail_self z
    | cons w l =>
      have hnil : l ++ a.trail = [] := (List.cons.inj ht).2.symm
      rw [trail_eq a] at hnil
      simp at hnil
  | child b s p ih =>
    cases l with
    | nil =>
      obtain rfl := List.mem_singleton.mp hz
      exact mem_trail_self z
    | cons w l =>
      rcases List.mem_cons.mp hz with rfl | hz
      · obtain ⟨rfl, -⟩ := List.cons.inj ht
        rw [ht]
        exact List.mem_append_right _ (mem_trail_self a)
      · exact ih (List.cons.inj ht).2 hz

theorem mem_trail_of_path {a : ForkItem Block} {l : List (ForkItem Block)} (ht : x.trail = l ++ a.trail)
    (hz : z ∈ l ++ [a]) : z ∈ x.trail := by
  rw [ht]
  rcases List.mem_append.mp hz with hz | hz
  · exact List.mem_append_left _ hz
  · obtain rfl := List.mem_singleton.mp hz
    exact List.mem_append_right _ (mem_trail_self z)

/-- The end of a path has the smallest number. -/
theorem Chained.blockNum_end {a : ForkItem Block} {l : List (ForkItem Block)} (h : x.Chained B)
    (ht : x.trail = l ++ a.trail) (hz : z ∈ l ++ [a]) : B.blockNum a.block ≤ B.blockNum z.block :=
  (h.of_mem (mem_trail_of_path ht hz)).blockNum_le (end_mem_trail ht hz)

/-- A trail starts with its item. -/
theorem eq_of_trail_eq (h : x.trail = y.trail) : x = y := by
  rw [trail_eq x, trail_eq y] at h
  exact (List.cons.inj h).1

/-- One step back along a path. -/
theorem prev_of_trail_cons {l : List (ForkItem Block)} (h : x.trail = z :: (l ++ y.trail)) :
    z = x ∧ ∃ p, x.prev = some p ∧ p.trail = l ++ y.trail := by
  cases x with
  | root b s =>
    have hnil : l ++ y.trail = [] := (List.cons.inj h).2.symm
    rw [trail_eq y] at hnil
    simp at hnil
  | child b s p => exact ⟨(List.cons.inj h).1.symm, p, rfl, (List.cons.inj h).2⟩

end ForkItem

open ForkItem

namespace ForkDatabase
variable {Block Id : Type} [DecidableEq Id] {B : Blocks Block Id} {f g : ForkDatabase Block}
  {x y h : ForkItem Block} {l m : List (ForkItem Block)} {b : Block} {id : Id} {n : Nat}

/-! ### The index -/

theorem find_eq_some (hf : f.find B id = some x) : x ∈ f.index ∧ B.id x.block = id :=
  ⟨List.mem_of_find?_eq_some hf, by simpa using List.find?_some hf⟩

theorem mem_insert (hy : y ∈ (f.insert B x).index) : y ∈ f.index ∨ y = x := by
  unfold insert at hy
  split at hy
  · exact .inl hy
  · simpa using hy

theorem subset_insert (hy : y ∈ f.index) : y ∈ (f.insert B x).index := by
  unfold insert
  split
  · exact hy
  · exact List.mem_append_left _ hy

@[simp] theorem insert_head : (f.insert B x).head = f.head := by
  unfold insert
  split <;> rfl

@[simp] theorem insert_maxSize : (f.insert B x).maxSize = f.maxSize := by
  unfold insert
  split <;> rfl

omit [DecidableEq Id] in
@[simp] theorem eraseBelow_head : (f.eraseBelow B n).head = f.head := rfl

omit [DecidableEq Id] in
theorem mem_eraseBelow : y ∈ (f.eraseBelow B n).index ↔ y ∈ f.index ∧ n ≤ B.blockNum y.block := by
  simp [eraseBelow]

omit [DecidableEq Id] in
@[simp] theorem setMaxSize_head : (f.setMaxSize B n).head = f.head := by
  unfold setMaxSize
  split <;> simp_all

omit [DecidableEq Id] in
/-- `set_max_size` erases what is further below the head than the size. -/
theorem mem_setMaxSize :
    y ∈ (f.setMaxSize B n).index ↔ y ∈ f.index ∧ ∀ h ∈ f.head, B.blockNum h.block ≤ B.blockNum y.block + n := by
  unfold setMaxSize
  split
  next hh => simp [hh]
  next h hh =>
    rw [mem_eraseBelow]
    simp [hh]

theorem mem_remove : y ∈ (f.remove B id).index ↔ y ∈ f.index ∧ B.id y.block ≠ id := by
  simp [remove]

@[simp] theorem remove_head : (f.remove B id).head = f.head := rfl

@[simp] theorem foldl_remove_head : (l.foldl (fun f x => f.remove B (B.id x.block)) f).head = f.head := by
  induction l generalizing f with
  | nil => rfl
  | cons x l ih => rw [List.foldl_cons, ih, remove_head]

theorem mem_foldl_remove :
    y ∈ (l.foldl (fun f x => f.remove B (B.id x.block)) f).index ↔
      y ∈ f.index ∧ ∀ x ∈ l, B.id y.block ≠ B.id x.block := by
  induction l generalizing f with
  | nil => simp
  | cons x l ih =>
    rw [List.foldl_cons, ih, mem_remove]
    simp [and_assoc]

/-! ### `push_block` -/

/-- Where an item is linked: it is the new head exactly if it is the first one or has a greater number than the head. -/
theorem link_head : (f.link B x).head = some x ∧ (∀ h ∈ f.head, B.blockNum h.block < B.blockNum x.block) ∨
    ∃ h, f.head = some h ∧ (f.link B x).head = some h ∧ B.blockNum x.block ≤ B.blockNum h.block := by
  unfold link
  cases hh : f.head with
  | none => exact .inl ⟨rfl, by simp⟩
  | some h =>
    dsimp only
    split
    next hlt => exact .inl ⟨rfl, by simpa using hlt⟩
    next hle => exact .inr ⟨h, rfl, by simp [hh], Nat.le_of_not_lt hle⟩

theorem mem_link (hy : y ∈ (f.link B x).index) : y ∈ f.index ∨ y = x := by
  unfold link at hy
  cases hh : f.head with
  | none =>
    rw [hh] at hy
    exact mem_insert hy
  | some h =>
    rw [hh] at hy
    dsimp only at hy
    split at hy
    · exact mem_insert (mem_eraseBelow.mp hy).1
    · exact mem_insert hy

/-- What is not too far below the new item stays. -/
theorem subset_link (hy : y ∈ f.index) (hn : B.blockNum x.block ≤ B.blockNum y.block + f.maxSize) :
    y ∈ (f.link B x).index := by
  unfold link
  cases hh : f.head with
  | none => exact subset_insert hy
  | some h =>
    dsimp only
    split
    · exact mem_eraseBelow.mpr ⟨subset_insert hy, by omega⟩
    · exact subset_insert hy

/-- A block that the fork database takes: the item made of it, and what it is linked to. -/
structure Takes (B : Blocks Block Id) (f : ForkDatabase Block) (b : Block) (x : ForkItem Block) : Prop where
  block : x.block = b
  prev : (x = .root b f.next ∧ (f.head = none ∨ B.previous b = B.zero)) ∨
    ∃ p ∈ f.index, x = .child b f.next p ∧ B.previous b = B.id p.block

theorem pushBlock_eq_ok (hp : f.pushBlock B b = .ok (g, h)) :
    ∃ x, Takes B f b x ∧ g = f.link B x ∧ g.head = some h := by
  unfold pushBlock at hp
  cases hh : f.head with
  | none =>
    rw [hh] at hp
    obtain ⟨rfl, rfl⟩ := Prod.mk.inj (Except.ok.inj hp)
    refine ⟨_, ⟨rfl, .inl ⟨rfl, .inl hh⟩⟩, rfl, ?_⟩
    rcases link_head (B := B) (f := f) (x := .root b f.next) with hl | ⟨h, hl, -⟩
    · exact hl.1
    · rw [hh] at hl
      cases hl
  | some h₀ =>
    have hhead : ∀ x, (f.link B x).head = some ((f.link B x).head.getD h₀) := by
      intro x
      rcases link_head (B := B) (f := f) (x := x) with hl | ⟨h, -, hl, -⟩
      · rw [hl.1, Option.getD_some]
      · rw [hl, Option.getD_some]
    rw [hh] at hp
    dsimp only at hp
    split at hp
    · cases hp
    split at hp
    next hz =>
      obtain ⟨rfl, rfl⟩ := Prod.mk.inj (Except.ok.inj hp)
      exact ⟨_, ⟨rfl, .inl ⟨rfl, .inr hz⟩⟩, rfl, hhead _⟩
    next =>
      split at hp
      · cases hp
      next p hpf =>
        obtain ⟨rfl, rfl⟩ := Prod.mk.inj (Except.ok.inj hp)
        obtain ⟨hmem, hid⟩ := find_eq_some hpf
        exact ⟨_, ⟨rfl, .inr ⟨p, hmem, rfl, hid.symm⟩⟩, rfl, hhead _⟩

omit [DecidableEq Id] in
theorem Takes.chained (ht : Takes B f b x) (hf : ∀ y ∈ f.index, y.Chained B) : x.Chained B := by
  rcases ht.prev with ⟨rfl, -⟩ | ⟨p, hp, rfl, hid⟩
  · trivial
  · exact ⟨hid, hf p hp⟩

/-! ### `fetch_branch_from` -/

omit [DecidableEq Id] in
theorem descend_eq_ok {own : ForkItem Block → Bool} (hd : descend B own n x = .ok (l, y)) :
    x.trail = l ++ y.trail ∧ B.blockNum y.block ≤ n ∧ (∀ z ∈ l, n < B.blockNum z.block) ∧ (y = x ∨ own y) := by
  induction x generalizing l with
  | root b s =>
    rw [descend] at hd
    split at hd
    next hle =>
      obtain ⟨rfl, rfl⟩ := Prod.mk.inj (Except.ok.inj hd)
      exact ⟨rfl, hle, by simp, .inl rfl⟩
    next => cases hd
  | child b s p ih =>
    rw [descend] at hd
    split at hd
    next hle =>
      obtain ⟨rfl, rfl⟩ := Prod.mk.inj (Except.ok.inj hd)
      exact ⟨rfl, hle, by simp, .inl rfl⟩
    next hlt =>
      split at hd
      next hown =>
        obtain ⟨⟨l', y'⟩, hd', hr⟩ := bind_eq_ok.mp hd
        obtain ⟨rfl, rfl⟩ := Prod.mk.inj (Except.ok.inj hr)
        obtain ⟨htrail, hle, hall, hy⟩ := ih hd'
        refine ⟨by rw [trail, htrail, List.cons_append], hle, ?_, .inr ?_⟩
        · intro z hz
          rcases List.mem_cons.mp hz with rfl | hz
          · exact Nat.lt_of_not_le hlt
          · exact hall z hz
        · rcases hy with rfl | hy
          · exact hown
          · exact hy
      next => cases hd

/-- The two branches end with items that have the same previous block. -/
structure Converges (B : Blocks Block Id) (own : ForkItem Block → Bool) (x y : ForkItem Block)
    (l m : List (ForkItem Block)) : Prop where
  ends : ∃ l' a m' c, l = l' ++ [a] ∧ m = m' ++ [c] ∧ x.trail = l' ++ a.trail ∧ y.trail = m' ++ c.trail ∧
    B.previous a.block = B.previous c.block ∧ (a = x ∨ own a) ∧ (c = y ∨ own c) ∧
    (x.Chained B → y.Chained B → x.block ≠ y.block → a.block ≠ c.block)

omit [DecidableEq Id] in
theorem Converges.here {own : ForkItem Block → Bool} (h : B.previous x.block = B.previous y.block) :
    Converges B own x y [x] [y] :=
  ⟨[], x, [], y, rfl, rfl, rfl, rfl, h, .inl rfl, .inl rfl, fun _ _ hne => hne⟩

theorem converge_eq_ok {own : ForkItem Block → Bool} (hc : converge B own x y = .ok (l, m)) :
    Converges B own x y l m := by
  induction x generalizing y l m with
  | root b s =>
    rw [converge.eq_def] at hc
    split at hc
    next heq => cases heq
    next =>
      split at hc
      next hprev =>
        obtain ⟨rfl, rfl⟩ := Prod.mk.inj (Except.ok.inj hc)
        exact .here hprev
      next => cases hc
  | child b s p ih =>
    cases y with
    | root b' s' =>
      rw [converge.eq_def] at hc
      dsimp only at hc
      split at hc
      next hprev =>
        obtain ⟨rfl, rfl⟩ := Prod.mk.inj (Except.ok.inj hc)
        exact .here hprev
      next => cases hc
    | child b' s' q =>
      rw [converge] at hc
      split at hc
      next hprev =>
        obtain ⟨rfl, rfl⟩ := Prod.mk.inj (Except.ok.inj hc)
        exact .here hprev
      next hprev =>
        split at hc
        next hown =>
          obtain ⟨⟨l₁, m₁⟩, hpq, hr⟩ := bind_eq_ok.mp hc
          obtain ⟨rfl, rfl⟩ := Prod.mk.inj (Except.ok.inj hr)
          obtain ⟨l', a, m', c, rfl, rfl, hl, hm, hac, ha, hc', hne⟩ := (ih hpq).ends
          obtain ⟨hp, hq⟩ := Bool.and_eq_true_iff.mp hown
          refine ⟨child b s p :: l', a, child b' s' q :: m', c, rfl, rfl, ?_, ?_, hac, .inr ?_, .inr ?_, ?_⟩
          · rw [trail, hl, List.cons_append]
          · rw [trail, hm, List.cons_append]
          · rcases ha with rfl | ha
            · exact hp
            · exact ha
          · rcases hc' with rfl | hc'
            · exact hq
            · exact hc'
          · intro hx hy _
            refine hne hx.2 hy.2 fun heq => hprev ?_
            rw [hx.1, hy.1, heq]
        next => cases hc

/-- What `fetch_branch_from` returns: the items from the two that were asked for to two siblings. -/
structure Branches (B : Blocks Block Id) (f : ForkDatabase Block) (x y : ForkItem Block)
    (l m : List (ForkItem Block)) : Prop where
  ends : ∃ l' a m' c, l = l' ++ [a] ∧ m = m' ++ [c] ∧ x.trail = l' ++ a.trail ∧ y.trail = m' ++ c.trail ∧
    B.previous a.block = B.previous c.block ∧ (a = x ∨ f.owned [] a) ∧ (c = y ∨ f.owned [] c) ∧
    (x.Chained B → y.Chained B → B.blockNum x.block = B.blockNum y.block + 1 → B.previous x.block ≠ B.id y.block →
      a.block ≠ c.block)

omit [DecidableEq Id] in
/-- From an item to another one that is one block lower, there is one step. -/
theorem eq_prev_of_descend (hx : x.Chained B) {k : Nat} (hnum : B.blockNum x.block = k + 1)
    (ht : x.trail = l ++ y.trail) (hy : B.blockNum y.block ≤ k) (hl : ∀ z ∈ l, k < B.blockNum z.block) :
    x.prev = some y := by
  cases l with
  | nil =>
    rw [eq_of_trail_eq ht] at hnum
    omega
  | cons z l =>
    obtain ⟨rfl, p, hp, hpt⟩ := prev_of_trail_cons ht
    have hpnum : B.blockNum z.block = B.blockNum p.block + 1 :=
      hx.blockNum_trail (l := [z]) (trail_of_prev hp)
    cases l with
    | nil => rw [hp, eq_of_trail_eq hpt]
    | cons w l =>
      obtain ⟨rfl, -⟩ := prev_of_trail_cons hpt
      have hlt := hl w (by simp)
      omega

theorem fetchBranchFrom_eq_ok {i j : Id} (h : f.fetchBranchFrom B i j = .ok (l, m)) :
    ∃ x y, f.find B i = some x ∧ f.find B j = some y ∧ Branches B f x y l m := by
  unfold fetchBranchFrom at h
  split at h
  next x y hx hy =>
    obtain ⟨⟨l₁, x₁⟩, hl, h⟩ := bind_eq_ok.mp h
    obtain ⟨⟨m₁, y₁⟩, hm, h⟩ := bind_eq_ok.mp h
    obtain ⟨⟨l₂, m₂⟩, hc, h⟩ := bind_eq_ok.mp h
    obtain ⟨rfl, rfl⟩ := Prod.mk.inj (Except.ok.inj h)
    obtain ⟨hxt, hxle, hxall, hxo⟩ := descend_eq_ok hl
    obtain ⟨hyt, -, hyall, hyo⟩ := descend_eq_ok hm
    obtain ⟨l', a, m', c, rfl, rfl, hlt, hmt, hac, ha, hc', hne⟩ := (converge_eq_ok hc).ends
    refine ⟨x, y, hx, hy, ⟨l₁ ++ l', a, m₁ ++ m', c, by simp, by simp, ?_, ?_, hac, ?_, ?_, ?_⟩⟩
    · rw [hxt, hlt, List.append_assoc]
    · rw [hyt, hmt, List.append_assoc]
    · rcases ha with rfl | ha
      · exact hxo
      · exact .inr ha
    · rcases hc' with rfl | hc'
      · exact hyo
      · exact .inr hc'
    · intro hcx hcy hnum hprev
      have hp := eq_prev_of_descend hcx hnum hxt hxle hxall
      have hnum' : B.blockNum x.block = B.blockNum x₁.block + 1 :=
        hcx.blockNum_trail (l := [x]) (trail_of_prev hp)
      have hy₁ : y = y₁ := by
        cases m₁ with
        | nil => exact eq_of_trail_eq hyt
        | cons z m₁ =>
          obtain ⟨rfl, -⟩ := prev_of_trail_cons hyt
          have hlt := hyall z (by simp)
          omega
      refine hne (hcx.prev hp).2 (hy₁ ▸ hcy) fun heq => hprev ?_
      rw [(hcx.prev hp).1, heq, hy₁]
  next => cases h

end ForkDatabase

end Khc.Fork
