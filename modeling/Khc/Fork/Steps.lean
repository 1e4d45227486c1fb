import Khc.Fork.Branches
import Khc.Fork.Node

/-! What the steps of a push do to the chain and its undo states: applying a block, popping one, and going back along a
    branch. -/

namespace Khc.Fork

open Lib ForkItem

variable {Block Id ρ σ : Type} [DecidableEq Id] {B : Blocks Block Id} {E : Processing B ρ}

/-! ### Sessions -/

theorem isPrefix_opened (size depth : Nat) (l : List σ) : opened size depth l <+: l := by
  unfold opened
  split
  · exact List.prefix_rfl
  · exact List.take_prefix _ _

theorem opened_zero (size : Nat) (l : List σ) : opened size 0 l = l := rfl

theorem length_opened (size depth : Nat) (l : List σ) :
    (opened size depth l).length = if depth = 0 then l.length else min (size + 1 - depth) l.length := by
  unfold opened
  split
  · rfl
  · exact List.length_take

theorem isPrefix_tail {l m : List σ} {a : σ} (h : l <+: a :: m) : l.tail <+: m := by
  cases l with
  | nil => exact List.nil_prefix
  | cons b l => exact (List.cons_prefix_cons.mp h).2

/-! ### `apply_block` -/

namespace ChainState
variable {s t : ChainState Id ρ} {b c : Block}

theorem begin_eq_some (h : s.begin E b = some t) :
    s.headBlockId = B.previous b ∧ t.headBlockId = B.id b ∧
      t.lastIrreversibleBlockNum = s.lastIrreversibleBlockNum := by
  unfold begin at h
  split at h
  next hprev =>
    obtain ⟨r, -, h⟩ := Option.bind_eq_some_iff.mp h
    dsimp only at h
    split at h
    · obtain rfl := Option.some.inj h
      exact ⟨hprev, rfl, rfl⟩
    · cases h
  next => cases h

omit [DecidableEq Id] in
theorem conclude_eq_some (h : s.conclude E b = some t) :
    t.headBlockId = s.headBlockId ∧ s.lastIrreversibleBlockNum ≤ t.lastIrreversibleBlockNum := by
  obtain ⟨r, -, h⟩ := Option.bind_eq_some_iff.mp h
  obtain rfl := Option.some.inj h
  exact ⟨rfl, Nat.le_max_left _ _⟩

theorem applyBlock_eq_some (h : s.applyBlock E b = some t) :
    s.headBlockId = B.previous b ∧ t.headBlockId = B.id b ∧
      s.lastIrreversibleBlockNum ≤ t.lastIrreversibleBlockNum := by
  obtain ⟨u, hu, ht⟩ := Option.bind_eq_some_iff.mp h
  obtain ⟨hprev, hid, hlib⟩ := begin_eq_some hu
  obtain ⟨hid', hle⟩ := conclude_eq_some ht
  exact ⟨hprev, hid'.trans hid, hlib ▸ hle⟩

/-- The head goes one block up. -/
theorem headBlockNum_applyBlock (h : s.applyBlock E b = some t) : t.headBlockNum B = s.headBlockNum B + 1 := by
  obtain ⟨hprev, hid, -⟩ := applyBlock_eq_some h
  unfold headBlockNum
  rw [hid, B.numFromId_id, hprev]

end ChainState

namespace Node
variable {n n' : Node Block Id ρ} {s : ChainState Id ρ} {b : Block} {held l m : List (ForkItem Block)}
  {x y g : ForkItem Block}

/-! ### `extend` -/

/-- The size that both databases get when the block is applied on this state. -/
def sizeOn (B : Blocks Block Id) (s : ChainState Id ρ) : Nat := s.headBlockNum B + 1 - s.lastIrreversibleBlockNum + 1

/-- The undo states while the block is processed, that of its own session first. -/
def session (E : Processing B ρ) (n : Node Block Id ρ) (b : Block) : List (ChainState Id ρ) :=
  opened n.undoMaxSize (E.proposed n.chain b) (n.chain :: opened n.undoMaxSize 1 n.undo)

omit [DecidableEq Id] in
theorem isPrefix_session : n.session E b <+: n.chain :: n.undo :=
  (isPrefix_opened _ _ _).trans (List.cons_prefix_cons.mpr ⟨rfl, isPrefix_opened _ _ _⟩)

omit [DecidableEq Id] in
theorem retained_begin {t : ChainState Id ρ} (hid : t.headBlockId = B.id b) (hprev : s.headBlockId = B.previous b)
    (hlib : t.lastIrreversibleBlockNum = s.lastIrreversibleBlockNum) : t.retained B = sizeOn B s := by
  unfold ChainState.retained sizeOn ChainState.headBlockNum
  rw [hid, B.numFromId_id, hlib, hprev]

/-- The node after a block that applies, where `t` is the state in which the sizes are set. -/
def grown (E : Processing B ρ) (n : Node Block Id ρ) (b : Block) (t s : ChainState Id ρ) : Node Block Id ρ where
  chain := s
  undo := opened (sizeOn B n.chain) (E.expired t b) (n.session E b)
  undoMaxSize := sizeOn B n.chain
  forkDb := n.forkDb.setMaxSize B (sizeOn B n.chain)
  blockIdToBlock := b :: n.blockIdToBlock

theorem extend_of_some (h : n.chain.applyBlock E b = some s) : ∃ t, n.extend E b = .ok (n.grown E b t s) := by
  obtain ⟨t, ht, hs⟩ := Option.bind_eq_some_iff.mp h
  obtain ⟨hprev, hid, hlib⟩ := ChainState.begin_eq_some ht
  refine ⟨t, ?_⟩
  unfold extend
  simp only [ht, hs, retained_begin hid hprev hlib]
  rfl

/-- What a block that does not apply leaves. -/
structure Refused (E : Processing B ρ) (n : Node Block Id ρ) (b : Block) (n' : Node Block Id ρ) : Prop where
  chain : n'.chain = n.chain
  log : n'.blockIdToBlock = n.blockIdToBlock
  sizes : (n'.undo = (n.session E b).tail ∧ n'.undoMaxSize = n.undoMaxSize ∧ n'.forkDb = n.forkDb) ∨
    ∃ t, n'.undo = (opened (sizeOn B n.chain) (E.expired t b) (n.session E b)).tail ∧
      n'.undoMaxSize = sizeOn B n.chain ∧ n'.forkDb = n.forkDb.setMaxSize B (sizeOn B n.chain)

theorem extend_of_none (h : n.chain.applyBlock E b = none) : ∃ n', n.extend E b = .error n' ∧ Refused E n b n' := by
  unfold extend
  cases ht : n.chain.begin E b with
  | none => exact ⟨_, rfl, rfl, rfl, .inl ⟨rfl, rfl, rfl⟩⟩
  | some t =>
    obtain ⟨hprev, hid, hlib⟩ := ChainState.begin_eq_some ht
    have hs : t.conclude E b = none := by
      unfold ChainState.applyBlock at h
      rwa [ht] at h
    simp only [hs, retained_begin hid hprev hlib]
    exact ⟨_, rfl, rfl, rfl, .inr ⟨t, rfl, rfl, rfl⟩⟩

omit [DecidableEq Id] in
theorem Refused.isPrefix_undo (h : Refused E n b n') : n'.undo <+: n.undo := by
  rcases h.sizes with ⟨hu, -, -⟩ | ⟨t, hu, -, -⟩
  · rw [hu]
    exact isPrefix_tail isPrefix_session
  · rw [hu]
    exact isPrefix_tail ((isPrefix_opened _ _ _).trans isPrefix_session)

omit [DecidableEq Id] in
theorem Refused.head (h : Refused E n b n') : n'.forkDb.head = n.forkDb.head := by
  rcases h.sizes with ⟨-, -, hf⟩ | ⟨t, -, -, hf⟩
  · rw [hf]
  · rw [hf, ForkDatabase.setMaxSize_head]

omit [DecidableEq Id] in
theorem Refused.index (h : Refused E n b n') (hy : y ∈ n'.forkDb.index) : y ∈ n.forkDb.index := by
  rcases h.sizes with ⟨-, -, hf⟩ | ⟨t, -, -, hf⟩
  · rwa [hf] at hy
  · rw [hf] at hy
    exact (ForkDatabase.mem_setMaxSize.mp hy).1

/-- The two outcomes of applying a block. -/
theorem extend_cases (n : Node Block Id ρ) (b : Block) :
    (∃ s t, n.chain.applyBlock E b = some s ∧ n.extend E b = .ok (n.grown E b t s)) ∨
      ∃ n', n.chain.applyBlock E b = none ∧ n.extend E b = .error n' ∧ Refused E n b n' := by
  cases h : n.chain.applyBlock E b with
  | some s =>
    obtain ⟨t, ht⟩ := extend_of_some h
    exact .inl ⟨s, t, rfl, ht⟩
  | none =>
    obtain ⟨n', hn, hr⟩ := extend_of_none h
    exact .inr ⟨n', rfl, hn, hr⟩

/-! ### Soundness of a node -/

/-- What every push keeps: the items of the fork database are chained, and each undo state is the one that a stored block
    was applied on. -/
structure Sound (E : Processing B ρ) (n : Node Block Id ρ) : Prop where
  index : ∀ x ∈ n.forkDb.index, x.Chained B
  head : ∀ x ∈ n.forkDb.head, x.Chained B
  built : (n.chain :: n.undo).IsChain fun s t => ∃ b ∈ n.blockIdToBlock, t.applyBlock E b = some s

theorem isChain_of_isPrefix {r : σ → σ → Prop} {l m : List σ} (h : m.IsChain r) (hp : l <+: m) : l.IsChain r := by
  obtain ⟨k, rfl⟩ := hp
  exact h.left_of_append

/-- A fork database with fewer items or another head, and fewer undo states. -/
theorem Sound.shrink (h : n.Sound E) (hc : n'.chain = n.chain) (hu : n'.undo <+: n.undo)
    (hl : n'.blockIdToBlock = n.blockIdToBlock) (hi : ∀ x ∈ n'.forkDb.index, x ∈ n.forkDb.index)
    (hh : ∀ x ∈ n'.forkDb.head, x.Chained B) : n'.Sound E where
  index x hx := h.index x (hi x hx)
  head := hh
  built := by
    rw [hc, hl]
    exact isChain_of_isPrefix h.built (List.cons_prefix_cons.mpr ⟨rfl, hu⟩)

theorem Sound.refused (h : n.Sound E) (hr : Refused E n b n') : n'.Sound E :=
  h.shrink hr.chain hr.isPrefix_undo hr.log (fun _ => hr.index) fun x hx => h.head x (hr.head ▸ hx)

omit [DecidableEq Id] in
theorem isPrefix_grown {t : ChainState Id ρ} : (n.grown E b t s).undo <+: n.chain :: n.undo :=
  (isPrefix_opened _ _ _).trans isPrefix_session

theorem Sound.grown {t : ChainState Id ρ} (h : n.Sound E) (ha : n.chain.applyBlock E b = some s) :
    (n.grown E b t s).Sound E where
  index x hx := h.index x (ForkDatabase.mem_setMaxSize.mp hx).1
  head x hx := h.head x (by simpa [Node.grown] using hx)
  built := by
    have hold : (n.chain :: n.undo).IsChain fun s t => ∃ c ∈ b :: n.blockIdToBlock, t.applyBlock E c = some s :=
      h.built.imp fun s t ⟨c, hc, ht⟩ => ⟨c, List.mem_cons_of_mem _ hc, ht⟩
    refine isChain_of_isPrefix (m := s :: n.chain :: n.undo) ?_ (List.cons_prefix_cons.mpr ⟨rfl, isPrefix_grown⟩)
    exact List.isChain_cons_cons.mpr ⟨⟨b, List.mem_cons_self, ha⟩, hold⟩

/-! ### `pop_block` -/

/-- What `pop_block` can leave. -/
theorem popBlock_cases (B : Blocks Block Id) (n : Node Block Id ρ) (held : List (ForkItem Block)) :
    n.popBlock B held = .error n ∨
      ∃ h p, n.forkDb.head = some h ∧ h.prev = some p ∧
        (n.undo = [] ∧ n.popBlock B held = .error { n with forkDb := { n.forkDb with head := some p } } ∨
          ∃ s undo, n.undo = s :: undo ∧
            n.popBlock B held = .ok { n with chain := s, undo, forkDb := { n.forkDb with head := some p } }) := by
  unfold popBlock
  cases n.fetchBlockById B n.chain.headBlockId with
  | none => exact .inl rfl
  | some _ =>
    unfold ForkDatabase.popBlock
    cases hh : n.forkDb.head with
    | none => exact .inl rfl
    | some h =>
      cases hp : h.prev with
      | none => exact .inl (by simp [hp])
      | some p =>
        simp only [hp]
        split
        next e he =>
          split at he
          · cases he
          · exact .inl rfl
        next f hf =>
          split at hf
          next =>
            obtain rfl := Except.ok.inj hf
            refine .inr ⟨h, p, rfl, hp, ?_⟩
            cases hu : n.undo with
            | nil => exact .inl ⟨rfl, rfl⟩
            | cons s undo => exact .inr ⟨s, undo, rfl, rfl⟩
          next => cases hf

/-- Every kind of invariant of a node that a block may be popped from. -/
theorem popBlock_keeps {I : Node Block Id ρ → Prop} (h : I n)
    (hhead : ∀ h p, n.forkDb.head = some h → h.prev = some p → I { n with forkDb := { n.forkDb with head := some p } })
    (hpop : ∀ h p s undo, n.forkDb.head = some h → h.prev = some p → n.undo = s :: undo →
      I { n with chain := s, undo, forkDb := { n.forkDb with head := some p } }) :
    (∀ n', n.popBlock B held = .ok n' → I n') ∧ ∀ n', n.popBlock B held = .error n' → I n' := by
  rcases popBlock_cases B n held with he | ⟨h, p, hh, hp, ⟨-, he⟩ | ⟨s, undo, hu, he⟩⟩
  · refine ⟨fun n' hn => ?_, fun n' hn => ?_⟩
    · rw [he] at hn
      cases hn
    · rw [he] at hn
      obtain rfl := Except.error.inj hn
      assumption
  · refine ⟨fun n' hn => ?_, fun n' hn => ?_⟩
    · rw [he] at hn
      cases hn
    · rw [he] at hn
      obtain rfl := Except.error.inj hn
      exact hhead h p hh hp
  · refine ⟨fun n' hn => ?_, fun n' hn => ?_⟩
    · rw [he] at hn
      obtain rfl := Except.ok.inj hn
      exact hpop h p s undo hh hp hu
    · rw [he] at hn
      cases hn

end Node

end Khc.Fork
