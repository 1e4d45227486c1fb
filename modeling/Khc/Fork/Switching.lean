import Khc.Fork.Steps

/-! Back to a common ancestor and forward again: what a branch was applied on, popping its blocks, and putting them
    back. -/

namespace Khc.Fork

open Lib ForkItem

variable {Block Id ρ : Type} [DecidableEq Id] {B : Blocks Block Id} {E : Processing B ρ}

/-- The blocks of the items were applied on the states, one after the other, to `s`. Both lists start with the newest. -/
def Laid (E : Processing B ρ) : ChainState Id ρ → List (ForkItem Block) → List (ChainState Id ρ) → Prop
  | _, [], _ => True
  | _, _ :: _, [] => False
  | s, x :: m, t :: ts => t.applyBlock E x.block = some s ∧ Laid E t m ts

/-- The state after the blocks, the first of them first. -/
def ChainState.applyAll (E : Processing B ρ) (s : ChainState Id ρ) (l : List Block) : Option (ChainState Id ρ) :=
  l.foldlM (fun s b => s.applyBlock E b) s

theorem ChainState.applyAll_head {s t : ChainState Id ρ} {l : List Block} {b : Block}
    (h : s.applyAll E (l ++ [b]) = some t) : t.headBlockId = B.id b := by
  unfold applyAll at h
  rw [List.foldlM_append] at h
  obtain ⟨u, -, h⟩ := Option.bind_eq_some_iff.mp h
  obtain ⟨v, hv, h⟩ := Option.bind_eq_some_iff.mp h
  obtain rfl := Option.some.inj h
  exact (ChainState.applyBlock_eq_some hv).2.1

namespace ForkItem
variable {x a : ForkItem Block} {l : List (ForkItem Block)}

omit [DecidableEq Id] in
/-- A path starts with its item. -/
theorem head?_of_trail (h : x.trail = l ++ a.trail) : (l ++ [a]).head? = some x := by
  cases l with
  | nil => rw [eq_of_trail_eq h, List.nil_append, List.head?_cons]
  | cons z l => rw [(prev_of_trail_cons h).1, List.cons_append, List.head?_cons]

omit [DecidableEq Id] in
/-- A path can be left at each of its items. -/
theorem trail_split (ht : x.trail = l ++ a.trail) {k : Nat} (hk : k ≤ l.length) :
    ∃ g ∈ l ++ [a], x.trail = l.take k ++ g.trail ∧ ∀ z ∈ l.take k, z ∈ l ++ [a] := by
  induction l generalizing x k with
  | nil =>
    obtain rfl := Nat.le_zero.mp hk
    exact ⟨a, List.mem_singleton_self a, ht, by simp⟩
  | cons y l ih =>
    obtain ⟨rfl, p, hp, hpt⟩ := prev_of_trail_cons ht
    cases k with
    | zero => exact ⟨y, by simp, rfl, by simp⟩
    | succ k =>
      obtain ⟨g, hg, hgt, -⟩ := ih hpt (Nat.le_of_succ_le_succ hk)
      refine ⟨g, List.mem_cons_of_mem _ hg, ?_, fun z hz => List.mem_append_left _ (List.mem_of_mem_take hz)⟩
      rw [trail_of_prev hp, hgt, List.take_succ_cons, List.cons_append]

end ForkItem

section
variable {s t : ChainState Id ρ} {x y c : ForkItem Block} {m : List (ForkItem Block)} {ts rest : List (ChainState Id ρ)}

/-- The blocks from the head of the chain down were applied on the undo states. -/
theorem laid_of_built {log : List Block}
    (h : (s :: ts).IsChain fun s t => ∃ b ∈ log, t.applyBlock E b = some s) (hy : B.id y.block = s.headBlockId)
    (hc : y.Chained B) (ht : y.trail = m ++ c.trail) (hlen : m.length < ts.length) : Laid E s (m ++ [c]) ts := by
  induction m generalizing s ts y with
  | nil =>
    cases ts with
    | nil => cases hlen
    | cons t ts =>
      obtain ⟨⟨b, -, hb⟩, -⟩ := List.isChain_cons_cons.mp h
      have hid : b = c.block := by
        rw [← eq_of_trail_eq ht]
        exact B.id_injective _ _ ((ChainState.applyBlock_eq_some hb).2.1.symm.trans hy.symm)
      exact ⟨hid ▸ hb, trivial⟩
  | cons z m ih =>
    cases ts with
    | nil => cases hlen
    | cons t ts =>
      obtain ⟨⟨b, -, hb⟩, h⟩ := List.isChain_cons_cons.mp h
      obtain ⟨rfl, p, hp, hpt⟩ := prev_of_trail_cons ht
      obtain ⟨hprev, hhead, -⟩ := ChainState.applyBlock_eq_some hb
      obtain rfl : b = z.block := B.id_injective _ _ (hhead.symm.trans hy.symm)
      obtain ⟨hid, hcp⟩ := hc.prev hp
      exact ⟨hb, ih h (hid.symm.trans hprev.symm) hcp hpt (Nat.lt_of_succ_lt_succ hlen)⟩

/-- Each block of a branch is one above the state it was applied on. -/
theorem Laid.headBlockNum (h : Laid E s m (ts ++ t :: rest)) (hlen : m.length = ts.length + 1) :
    s.headBlockNum B = t.headBlockNum B + m.length := by
  induction m generalizing s ts with
  | nil => cases hlen
  | cons x m ih =>
    cases ts with
    | nil =>
      obtain rfl := List.length_eq_zero_iff.mp (Nat.succ.inj hlen)
      exact ChainState.headBlockNum_applyBlock h.1
    | cons u ts =>
      rw [ChainState.headBlockNum_applyBlock h.1, ih h.2 (Nat.succ.inj hlen), List.length_cons]
      omega

/-- The irreversible block of the states below is not higher. -/
theorem Laid.lastIrreversible_le (h : Laid E s m (ts ++ t :: rest)) (hlen : m.length = ts.length + 1) :
    t.lastIrreversibleBlockNum ≤ s.lastIrreversibleBlockNum := by
  induction m generalizing s ts with
  | nil => cases hlen
  | cons x m ih =>
    cases ts with
    | nil => exact (ChainState.applyBlock_eq_some h.1).2.2
    | cons u ts => exact (ih h.2 (Nat.succ.inj hlen)).trans (ChainState.applyBlock_eq_some h.1).2.2

/-- The last block of the branch names the state below as its previous one. -/
theorem Laid.ancestor (h : Laid E s (m ++ [c]) (ts ++ t :: rest)) (hlen : m.length = ts.length) :
    t.headBlockId = B.previous c.block := by
  induction m generalizing s ts with
  | nil =>
    obtain rfl := List.length_eq_zero_iff.mp hlen.symm
    exact (ChainState.applyBlock_eq_some h.1).1
  | cons x m ih =>
    cases ts with
    | nil => cases hlen
    | cons u ts => exact ih h.2 (Nat.succ.inj hlen)

end

namespace Node
variable {n n' : Node Block Id ρ} {s t : ChainState Id ρ} {b : Block} {held l m : List (ForkItem Block)}
  {x y h p g : ForkItem Block} {ts rest : List (ChainState Id ρ)} {k : Nat} {id : Id}

/-! ### Popping -/

theorem Sound.setHead (hs : n.Sound E) (hx : x.Chained B) :
    Sound E { n with forkDb := { n.forkDb with head := some x } } :=
  hs.shrink rfl List.prefix_rfl rfl (fun _ hy => hy) fun y hy => by
    obtain rfl := Option.some.inj hy
    exact hx

theorem Sound.pop (hs : n.Sound E) (hu : n.undo = s :: rest) (hx : x.Chained B) :
    Sound E { n with chain := s, undo := rest, forkDb := { n.forkDb with head := some x } } where
  index := hs.index
  head y hy := by
    obtain rfl := Option.some.inj hy
    exact hx
  built := by
    have hb := hs.built
    rw [hu] at hb
    exact (List.isChain_cons_cons.mp hb).2

theorem Sound.popBlock (hs : n.Sound E) :
    (∀ n', n.popBlock B held = .ok n' → n'.Sound E) ∧ ∀ n', n.popBlock B held = .error n' → n'.Sound E :=
  popBlock_keeps hs (fun h _ hh hp => hs.setHead ((hs.head h hh).prev hp).2)
    fun h _ _ _ hh hp hu => hs.pop hu ((hs.head h hh).prev hp).2

/-- With an item to go back to and a state to restore, a block is popped. -/
theorem popBlock_eq_ok (hs : n.Sound E) (hu : n.undo = s :: rest) (hh : n.forkDb.head = some h)
    (hp : h.prev = some p) (hheld : p ∈ held) :
    n.popBlock B held = .ok { n with chain := s, undo := rest, forkDb := { n.forkDb with head := some p } } := by
  have hown : n.forkDb.owned held p = true := by
    unfold ForkDatabase.owned
    simp only [List.any_append, Bool.or_eq_true, List.any_eq_true, decide_eq_true_eq]
    exact .inl (.inl ⟨p, hheld, rfl⟩)
  have hfork : n.forkDb.popBlock held = .ok { n.forkDb with head := some p } := by
    unfold ForkDatabase.popBlock
    simp only [hh, hp, hown, if_true]
  have hfetch : (n.fetchBlockById B n.chain.headBlockId).isSome := by
    have hb := hs.built
    rw [hu] at hb
    obtain ⟨⟨b, hb, ha⟩, -⟩ := List.isChain_cons_cons.mp hb
    unfold fetchBlockById
    cases n.forkDb.find B n.chain.headBlockId with
    | some x => rfl
    | none =>
      refine List.find?_isSome.mpr ⟨b, hb, ?_⟩
      simpa using (ChainState.applyBlock_eq_some ha).2.1.symm
  obtain ⟨c, hc⟩ := Option.isSome_iff_exists.mp hfetch
  unfold Node.popBlock
  simp only [hc, hfork, hu]

theorem popTo_self (hid : n.chain.headBlockId = id) : popTo B held id k n = .ok n := by
  cases k <;> simp [popTo, hid]

/-- The blocks of a branch are popped one after the other, and the head of the fork database goes back as far. -/
theorem popTo_eq_ok (hs : n.Sound E) (hl : Laid E n.chain m n.undo) (hu : n.undo = ts ++ t :: rest)
    (hlen : m.length = ts.length + 1) (hh : n.forkDb.head = some h) (hp : h.trail = l ++ g.trail)
    (hll : l.length = m.length) (hheld : ∀ z ∈ l ++ [g], z ∈ held) (hk : m.length ≤ k) :
    popTo B held t.headBlockId k n =
      .ok { n with chain := t, undo := rest, forkDb := { n.forkDb with head := some g } } := by
  induction ts generalizing n m l h k with
  | nil =>
    obtain ⟨x, rfl⟩ := List.length_eq_one_iff.mp hlen
    obtain ⟨z, rfl⟩ := List.length_eq_one_iff.mp hll
    have hne : n.chain.headBlockId ≠ t.headBlockId := by
      intro heq
      have hnum := (hu ▸ hl).headBlockNum hlen
      simp [ChainState.headBlockNum, heq] at hnum
    obtain ⟨rfl, p, hprev, hpt⟩ := prev_of_trail_cons hp
    obtain rfl := eq_of_trail_eq hpt
    have hpop := popBlock_eq_ok hs hu hh hprev (hheld p (by simp))
    cases k with
    | zero => cases hk
    | succ k =>
      rw [popTo, if_neg hne, hpop]
      exact popTo_self rfl
  | cons s ts ih =>
    cases m with
    | nil => cases hlen
    | cons x m =>
    cases l with
    | nil => cases hll
    | cons z l =>
    have hne : n.chain.headBlockId ≠ t.headBlockId := by
      intro heq
      have hnum := (hu ▸ hl).headBlockNum hlen
      simp [ChainState.headBlockNum, heq] at hnum
    obtain ⟨rfl, p, hprev, hpt⟩ := prev_of_trail_cons hp
    have hpheld : p ∈ held := by
      cases l with
      | nil => exact hheld p (by simp [eq_of_trail_eq hpt])
      | cons w l =>
        obtain ⟨rfl, -⟩ := prev_of_trail_cons hpt
        exact hheld w (by simp)
    have hpop := popBlock_eq_ok hs hu hh hprev hpheld
    have hs' := hs.popBlock.1 _ hpop
    rw [hu] at hl
    cases k with
    | zero => cases hk
    | succ k =>
      rw [popTo, if_neg hne, hpop]
      exact ih hs' hl.2 rfl (Nat.succ.inj hlen) rfl hpt (Nat.succ.inj hll)
        (fun z hz => hheld z (List.mem_cons_of_mem _ hz)) (Nat.le_of_succ_le_succ hk)

/-! ### Applying the blocks of a branch -/

theorem extendAll_append : extendAll E (l ++ m) n = match extendAll E l n with
    | .ok n => extendAll E m n
    | .error (n, r) => .error (n, r ++ m) := by
  induction l generalizing n with
  | nil => rfl
  | cons x l ih =>
    rw [List.cons_append, extendAll, extendAll]
    cases n.extend E x.block with
    | ok n' => exact ih
    | error n' => rfl

/-- What applying blocks on the states has done to a node. -/
structure Grows (E : Processing B ρ) (n : Node Block Id ρ) (states : List (ChainState Id ρ)) (s : ChainState Id ρ)
    (n' : Node Block Id ρ) : Prop where
  chain : n'.chain = s
  head : n'.forkDb.head = n.forkDb.head
  sound : n.Sound E → n'.Sound E
  index : ∀ y, y ∈ n'.forkDb.index ↔ y ∈ n.forkDb.index ∧ ∀ u ∈ states, ∀ h ∈ n.forkDb.head,
    B.blockNum h.block ≤ B.blockNum y.block + sizeOn B u

theorem Grows.refl : Grows E n [] n.chain n where
  chain := rfl
  head := rfl
  sound h := h
  index y := by simp

theorem Grows.trans {l₁ l₂ : List (ChainState Id ρ)} {n₁ n₂ : Node Block Id ρ} (h₁ : Grows E n l₁ s n₁)
    (h₂ : Grows E n₁ l₂ t n₂) : Grows E n (l₁ ++ l₂) t n₂ where
  chain := h₂.chain
  head := h₂.head.trans h₁.head
  sound h := h₂.sound (h₁.sound h)
  index y := by
    rw [h₂.index, h₁.index, h₁.head, and_assoc]
    simp only [List.mem_append, or_imp, forall_and]

theorem extend_grows (h : n.chain.applyBlock E b = some s) :
    ∃ n', n.extend E b = .ok n' ∧ Grows E n [n.chain] s n' := by
  obtain ⟨t, ht⟩ := extend_of_some h
  refine ⟨_, ht, ⟨rfl, ForkDatabase.setMaxSize_head, fun hs => hs.grown h, fun y => ?_⟩⟩
  rw [Node.grown, ForkDatabase.mem_setMaxSize]
  simp

/-- A branch that was popped applies again, on the states that it was applied on before. -/
theorem extendAll_laid (hl : Laid E s m (ts ++ t :: rest)) (hlen : m.length = ts.length + 1) (hn : n.chain = t) :
    ∃ n', extendAll E m.reverse n = .ok n' ∧ Grows E n (t :: ts.reverse) s n' := by
  induction m generalizing s ts with
  | nil => cases hlen
  | cons x m ih =>
    cases ts with
    | nil =>
      obtain rfl := List.length_eq_zero_iff.mp (Nat.succ.inj hlen)
      obtain ⟨n', hn', hg⟩ := extend_grows (hn ▸ hl.1 : n.chain.applyBlock E x.block = some s)
      refine ⟨n', ?_, hn ▸ hg⟩
      simp only [List.reverse_cons, List.reverse_nil, List.nil_append, extendAll, hn']
    | cons u ts =>
      obtain ⟨n₁, hn₁, hg₁⟩ := ih hl.2 (Nat.succ.inj hlen)
      obtain ⟨n₂, hn₂, hg₂⟩ := extend_grows (hg₁.chain ▸ hl.1 : n₁.chain.applyBlock E x.block = some s)
      refine ⟨n₂, ?_, ?_⟩
      · rw [List.reverse_cons, extendAll_append, hn₁]
        simp only [extendAll, hn₂]
      · have hg := hg₁.trans hg₂
        rwa [hg₁.chain, List.cons_append, ← List.reverse_cons] at hg

/-- A branch all of whose blocks apply. -/
theorem extendAll_of_applyAll (h : n.chain.applyAll E (l.map (·.block)) = some s) :
    ∃ n' states, extendAll E l n = .ok n' ∧ Grows E n states s n' := by
  induction l generalizing n with
  | nil =>
    obtain rfl := Option.some.inj h
    exact ⟨n, [], rfl, .refl⟩
  | cons x l ih =>
    rw [List.map_cons, ChainState.applyAll, List.foldlM_cons] at h
    obtain ⟨u, hu, h⟩ := Option.bind_eq_some_iff.mp h
    obtain ⟨n₁, hn₁, hg₁⟩ := extend_grows hu
    obtain ⟨n₂, states, hn₂, hg₂⟩ := ih (n := n₁) (by rw [hg₁.chain]; exact h)
    exact ⟨n₂, _, by rw [extendAll, hn₁]; exact hn₂, hg₁.trans hg₂⟩

/-! ### The switch -/

theorem switchBack_eq_ok {invalid : List (ForkItem Block)} (hid : n.chain.headBlockId = id)
    (hall : extendAll E m.reverse { n with
      forkDb := { invalid.foldl (fun f x => f.remove B (B.id x.block)) n.forkDb with head := m.head? } } = .ok n') :
    switchBack E n m held invalid id = .ok n' := by
  unfold switchBack
  dsimp only
  rw [popTo_self (by exact hid), ok_bind, hall]

theorem switchTo_eq_ok {n₁ : Node Block Id ρ} (hpop : popTo B (l ++ m) id n.undo.length n = .ok n₁)
    (hall : extendAll E l.reverse n₁ = .ok n') : switchTo E n l m id = .ok n' := by
  unfold switchTo
  simp only [hpop, hall]

theorem switchTo_eq_error {n₁ n₂ : Node Block Id ρ} {invalid : List (ForkItem Block)}
    (hpop : popTo B (l ++ m) id n.undo.length n = .ok n₁) (hall : extendAll E l.reverse n₁ = .error (n₂, invalid))
    (hback : switchBack E n₂ m (l ++ m) invalid id = .ok n') :
    switchTo E n l m id = .error ⟨n', invalid.head?.map (·.block)⟩ := by
  unfold switchTo
  simp only [hpop, hall, hback]

/-- Where a switch starts: the fork database has a new head above that of the chain, and the undo states reach the common
    ancestor `t` of the two branches. -/
structure Starts (E : Processing B ρ) (n : Node Block Id ρ) (h y a c : ForkItem Block) (l m : List (ForkItem Block))
    (t : ChainState Id ρ) (ts rest : List (ChainState Id ρ)) : Prop where
  sound : n.Sound E
  head : n.forkDb.head = some h
  first : h.trail = l ++ a.trail
  second : y.trail = m ++ c.trail
  siblings : B.previous a.block = B.previous c.block
  chained : y.Chained B
  onChain : B.id y.block = n.chain.headBlockId
  above : B.blockNum y.block < B.blockNum h.block
  undo : n.undo = ts ++ t :: rest
  length : ts.length = m.length

namespace Starts
variable {a c : ForkItem Block}

theorem laid (w : Starts E n h y a c l m t ts rest) : Laid E n.chain (m ++ [c]) (ts ++ t :: rest) := by
  have hlen : m.length < n.undo.length := by
    rw [w.undo, List.length_append, w.length, List.length_cons]
    omega
  have hl := laid_of_built w.sound.built w.onChain w.chained w.second hlen
  rwa [w.undo] at hl

theorem length_branch (w : Starts E n h y a c l m t ts rest) : (m ++ [c]).length = ts.length + 1 := by
  rw [List.length_append, w.length, List.length_singleton]

theorem ancestor (w : Starts E n h y a c l m t ts rest) : t.headBlockId = B.previous c.block :=
  w.laid.ancestor w.length.symm

/-- The new branch is the longer one. -/
theorem longer (w : Starts E n h y a c l m t ts rest) : m.length < l.length := by
  have hh := (w.sound.head h w.head).blockNum_trail w.first
  have hy := w.chained.blockNum_trail w.second
  have hac : B.blockNum a.block = B.blockNum c.block := by
    unfold Blocks.blockNum
    rw [w.siblings]
  have habove := w.above
  omega

/-- The old branch is popped, and the head of the fork database goes back by as many items. -/
theorem popTo (w : Starts E n h y a c l m t ts rest) :
    ∃ g ∈ l ++ [a], h.trail = (l ++ [a]).take (m.length + 1) ++ g.trail ∧
      Node.popTo B ((l ++ [a]) ++ (m ++ [c])) (B.previous c.block) n.undo.length n =
        .ok { n with chain := t, undo := rest, forkDb := { n.forkDb with head := some g } } := by
  obtain ⟨g, hg, ht, hmem⟩ := trail_split w.first (k := m.length + 1) w.longer
  have hlen : (l.take (m.length + 1)).length = m.length + 1 := List.length_take_of_le w.longer
  have htake : (l ++ [a]).take (m.length + 1) = l.take (m.length + 1) := List.take_append_of_le_length w.longer
  refine ⟨g, hg, htake ▸ ht, ?_⟩
  rw [← w.ancestor]
  refine popTo_eq_ok w.sound (m := m ++ [c]) (w.undo ▸ w.laid) w.undo w.length_branch w.head ht ?_ ?_ ?_
  · rw [hlen, w.length_branch, w.length]
  · intro z hz
    rcases List.mem_append.mp hz with hz | hz
    · exact List.mem_append_left _ (hmem z hz)
    · exact List.mem_append_left _ (List.mem_singleton.mp hz ▸ hg)
  · rw [w.length_branch, w.undo]
    simp

/-- After the old branch is popped. -/
theorem popped_sound (w : Starts E n h y a c l m t ts rest) (hg : g ∈ h.trail) :
    Sound E { n with chain := t, undo := rest, forkDb := { n.forkDb with head := some g } } where
  index := w.sound.index
  head x hx := by
    obtain rfl := Option.some.inj hx
    exact (w.sound.head h w.head).of_mem hg
  built := by
    have hb := w.sound.built
    rw [w.undo, ← List.cons_append] at hb
    exact hb.right_of_append

/-- All blocks of the new branch apply. -/
theorem switchTo_of_applyAll (w : Starts E n h y a c l m t ts rest)
    (ha : t.applyAll E ((l ++ [a]).reverse.map (·.block)) = some s) :
    ∃ n', switchTo E n (l ++ [a]) (m ++ [c]) (B.previous c.block) = .ok n' ∧ n'.chain = s ∧ n'.Sound E ∧
      (∃ g ∈ l ++ [a], n'.forkDb.head = some g) ∧ ∀ x ∈ n'.forkDb.index, x ∈ n.forkDb.index := by
  obtain ⟨g, hg, ht, hpop⟩ := w.popTo
  have hs := w.popped_sound (ht ▸ List.mem_append_right _ (mem_trail_self g))
  obtain ⟨n', states, hn', hgrow⟩ := extendAll_of_applyAll
    (n := { n with chain := t, undo := rest, forkDb := { n.forkDb with head := some g } }) ha
  exact ⟨n', switchTo_eq_ok hpop hn', hgrow.chain, hgrow.sound hs, ⟨g, hg, hgrow.head⟩,
    fun x hx => ((hgrow.index x).mp hx).1⟩

/-- The new branch ends with its head. -/
theorem headBlockId_of_applyAll (w : Starts E n h y a c l m t ts rest)
    (ha : t.applyAll E ((l ++ [a]).reverse.map (·.block)) = some s) : s.headBlockId = B.id h.block := by
  obtain ⟨k, hk⟩ := List.head?_eq_some_iff.mp (head?_of_trail w.first)
  rw [hk, List.reverse_cons, List.map_append] at ha
  exact ChainState.applyAll_head ha

/-- What a switch leaves whose first new block does not apply. -/
structure SwitchedBack (E : Processing B ρ) (n : Node Block Id ρ) (h y : ForkItem Block) (first : List (ForkItem Block))
    (t : ChainState Id ρ) (ts : List (ChainState Id ρ)) (n' : Node Block Id ρ) : Prop where
  chain : n'.chain = n.chain
  head : n'.forkDb.head = some y
  sound : n'.Sound E
  index : ∀ x ∈ n'.forkDb.index, x ∈ n.forkDb.index ∧ ∀ z ∈ first, B.id x.block ≠ B.id z.block
  kept : ∀ x ∈ n.forkDb.index, (∀ z ∈ first, B.id x.block ≠ B.id z.block) →
    B.blockNum h.block ≤ B.blockNum x.block + sizeOn B t + (ts.length + 1) →
    (∀ u ∈ t :: ts, B.blockNum y.block ≤ B.blockNum x.block + sizeOn B u) → x ∈ n'.forkDb.index

/-- The first block of the new branch does not apply: the old branch is put back. -/
theorem switchTo_of_first_invalid (w : Starts E n h y a c l m t ts rest)
    (ha : t.applyBlock E a.block = none) :
    ∃ n', switchTo E n (l ++ [a]) (m ++ [c]) (B.previous c.block) = .error ⟨n', some a.block⟩ ∧
      SwitchedBack E n h y (l ++ [a]) t ts n' := by
  obtain ⟨g, hg, ht, hpop⟩ := w.popTo
  let n₁ : Node Block Id ρ := { n with chain := t, undo := rest, forkDb := { n.forkDb with head := some g } }
  have hs₁ : n₁.Sound E := w.popped_sound (ht ▸ List.mem_append_right _ (mem_trail_self g))
  obtain ⟨n₂, hn₂, hr⟩ := extend_of_none (n := n₁) ha
  -- The items of the new branch leave the index before the head is set.
  let n₃ : Node Block Id ρ :=
    { n₂ with forkDb := { (l ++ [a]).reverse.foldl (fun f x => f.remove B (B.id x.block)) n₂.forkDb with head := some y } }
  have hi₃ : ∀ x, x ∈ n₃.forkDb.index ↔ x ∈ n₂.forkDb.index ∧ ∀ z ∈ l ++ [a], B.id x.block ≠ B.id z.block := by
    intro x
    show x ∈ ((l ++ [a]).reverse.foldl (fun f x => f.remove B (B.id x.block)) n₂.forkDb).index ↔ _
    rw [ForkDatabase.mem_foldl_remove]
    simp only [List.mem_reverse]
  have hs₃ : n₃.Sound E := by
    refine (hs₁.refused hr).shrink rfl List.prefix_rfl rfl (fun x hx => ((hi₃ x).mp hx).1) fun x hx => ?_
    obtain rfl := Option.some.inj hx
    exact w.chained
  have hc₃ : n₃.chain = t := hr.chain
  obtain ⟨n₄, hn₄, hgrow⟩ := extendAll_laid w.laid w.length_branch hc₃
  have hback : switchBack E n₂ (m ++ [c]) ((l ++ [a]) ++ (m ++ [c])) (l ++ [a]).reverse (B.previous c.block) =
      .ok n₄ := by
    refine switchBack_eq_ok (by rw [hr.chain]; exact w.ancestor) ?_
    rw [head?_of_trail w.second]
    exact hn₄
  refine ⟨n₄, ?_, ⟨hgrow.chain, hgrow.head, hgrow.sound hs₃, fun x hx => ?_, fun x hx hz hn hu => ?_⟩⟩
  · have hall : extendAll E (l ++ [a]).reverse n₁ = .error (n₂, (l ++ [a]).reverse) := by
      rw [List.reverse_append, List.reverse_singleton, List.singleton_append, extendAll, hn₂]
    have hswitch := switchTo_eq_error hpop hall hback
    rwa [List.head?_reverse, List.getLast?_concat] at hswitch
  · obtain ⟨hx₂, hz⟩ := (hi₃ x).mp ((hgrow.index x).mp hx).1
    exact ⟨hr.index hx₂, hz⟩
  · refine (hgrow.index x).mpr ⟨(hi₃ x).mpr ⟨?_, hz⟩, fun u hu' h' hh' => ?_⟩
    · rcases hr.sizes with ⟨-, -, hf⟩ | ⟨u, -, -, hf⟩
      · rw [hf]
        exact hx
      · rw [hf]
        refine ForkDatabase.mem_setMaxSize.mpr ⟨hx, fun h' hh' => ?_⟩
        obtain rfl := Option.some.inj hh'
        have hnum := (w.sound.head h w.head).blockNum_trail ht
        have hlen : ((l ++ [a]).take (m.length + 1)).length = m.length + 1 := by
          have hlong := w.longer
          rw [List.length_take, List.length_append]
          omega
        have hml := w.length
        show B.blockNum g.block ≤ B.blockNum x.block + sizeOn B t
        omega
    · obtain rfl := Option.some.inj hh'
      refine hu u ?_
      rcases List.mem_cons.mp hu' with rfl | hu'
      · exact List.mem_cons_self
      · exact List.mem_cons_of_mem _ (List.mem_reverse.mp hu')

end Starts

end Node

end Khc.Fork
