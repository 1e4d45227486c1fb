import Khc.Fork.Run

/-! The fork that is chosen: when the head of the fork database is that of the chain, no linked block is higher, and the
    chain is what its blocks make of the state it started with. -/

namespace Khc.Fork.Node

open Lib ForkItem ForkDatabase

variable {Block Id ρ : Type} [DecidableEq Id] {B : Blocks Block Id} {E : Processing B ρ} {start n t : Node Block Id ρ}

/-- The switch can start, and its first new block does not apply. -/
def SwitchFails (E : Processing B ρ) (n : Node Block Id ρ) (f : ForkDatabase Block) (h : ForkItem Block) : Prop :=
  ∃ first second ancestor, f.fetchBranchFrom B (B.id h.block) n.chain.headBlockId = .ok (first, second) ∧
    n.undo[second.length - 1]? = some ancestor ∧ ∃ a ∈ first.getLast?, ancestor.applyBlock E a.block = none

/-- Where a push keeps the two heads together: the fork database rejects the block, or the block applies on the chain, or
    the database has a head already and the block stays on a branch that is not longer or starts a switch that fails with
    its first block. -/
def PushesTogether (E : Processing B ρ) (n : Node Block Id ρ) (p : Push Block) : Prop :=
  ∀ f h, n.forkDb.pushBlock B p.block = .ok (f, h) →
    (B.previous h.block = n.chain.headBlockId → (n.chain.applyBlock E p.block).isSome) ∧
    (B.previous h.block ≠ n.chain.headBlockId → n.forkDb.head.isSome ∧
      (n.chain.headBlockNum B < B.blockNum h.block → SwitchFails E n f h))

/-- The chain that leads to the head of the node was applied to the state at the start. -/
def BuiltOn (E : Processing B ρ) (start n : Node Block Id ρ) : Prop :=
  ∃ blocks : List Block, blocks.IsChain (fun b c => B.previous c = B.id b) ∧
    (∀ b ∈ blocks.getLast?, B.id b = n.chain.headBlockId) ∧ start.chain.applyAll E blocks = some n.chain

/-- The head of the fork database is that of the chain, and the highest block that is linked. -/
structure Agrees (E : Processing B ρ) (start n : Node Block Id ρ) : Prop where
  head : ∃ h, n.forkDb.head = some h ∧ B.id h.block = n.chain.headBlockId
  highest : ∀ b, n.forkDb.Linked b → B.blockNum b ≤ n.chain.headBlockNum B
  built : BuiltOn E start n

/-- What the pushes keep. Before the first one, the fork database may have no head. -/
structure Together (E : Processing B ρ) (start n : Node Block Id ρ) : Prop where
  settled : n.Settled E
  head : ∀ h ∈ n.forkDb.head, B.id h.block = n.chain.headBlockId
  built : BuiltOn E start n

theorem Together.agrees (hn : Together E start n) {h : ForkItem Block} (hh : n.forkDb.head = some h) :
    Agrees E start n where
  head := ⟨h, hh, hn.head h hh⟩
  highest := by
    rintro b ⟨x, hx, rfl⟩
    exact hn.settled.index x hx
  built := hn.built

theorem Fresh.together (hn : n.Fresh B) : Together E n n where
  settled := hn.settled
  head h hh := by
    rcases hn.forkDb with hf | ⟨b, hb, hf⟩
    · rw [hf] at hh
      cases hh
    · rw [hf] at hh
      obtain rfl := Option.some.inj hh
      exact hb
  built := ⟨[], .nil, by simp, rfl⟩

theorem ChainState.applyAll_snoc {s t u : ChainState Id ρ} {l : List Block} {b : Block}
    (hl : s.applyAll E l = some t) (hb : t.applyBlock E b = some u) : s.applyAll E (l ++ [b]) = some u := by
  unfold ChainState.applyAll at hl ⊢
  rw [List.foldlM_append, hl]
  show (t.applyBlock E b >>= fun s => some s) = some u
  rw [hb]
  rfl

/-- One more block. -/
theorem BuiltOn.snoc {s : ChainState Id ρ} {b : Block} (h : BuiltOn E start n) (hb : n.chain.applyBlock E b = some s)
    {n' : Node Block Id ρ} (hn' : n'.chain = s) : BuiltOn E start n' := by
  obtain ⟨blocks, hchain, hlast, hall⟩ := h
  obtain ⟨hprev, hid, -⟩ := ChainState.applyBlock_eq_some hb
  refine ⟨blocks ++ [b], ?_, ?_, hn' ▸ ChainState.applyAll_snoc hall hb⟩
  · refine List.isChain_append.mpr ⟨hchain, List.isChain_singleton b, fun c hc d hd => ?_⟩
    obtain rfl : b = d := by simpa using hd
    rw [hlast c hc, hprev]
  · intro c hc
    obtain rfl : b = c := by simpa using hc
    rw [hn', hid]

/-- A push under the condition. -/
theorem Together.pushBlock {p : Push Block} (hn : Together E start n) (hc : PushesTogether E n p) :
    (∃ n' k h, pushBlock E n p.block = .ok (n', k) ∧ Together E start n' ∧ n'.forkDb.head = some h) ∨
      ∃ e, pushBlock E n p.block = .error e ∧ Together E start e.node := by
  cases hf : n.forkDb.pushBlock B p.block with
  | error e => exact .inr ⟨_, pushBlock_rejected hf, hn⟩
  | ok r =>
    obtain ⟨f, h⟩ := r
    obtain ⟨happly, hswitch⟩ := hc f h hf
    by_cases hp : B.previous h.block = n.chain.headBlockId
    · obtain ⟨s, hs⟩ := Option.isSome_iff_exists.mp (happly hp)
      obtain ⟨t, ht⟩ := pushBlock_extends hf hp hs
      obtain ⟨hsettled, hhead, hb⟩ := hn.settled.grown hf hp hs t
      refine .inl ⟨_, _, h, ht, ⟨hsettled, fun x hx => ?_, hn.built.snoc hs rfl⟩, hhead⟩
      obtain rfl := Option.some.inj (hhead.symm.trans hx)
      rw [hb]
      exact (ChainState.applyBlock_eq_some hs).2.1.symm
    obtain ⟨hsome, hfails⟩ := hswitch hp
    obtain ⟨h₀, hh₀⟩ := Option.isSome_iff_exists.mp hsome
    by_cases hlt : n.chain.headBlockNum B < B.blockNum h.block
    · obtain ⟨first, second, ancestor, hb, hu, a', ha', hinvalid⟩ := hfails hlt
      obtain ⟨y, a, c, l, m, ts, rest, rfl, rfl, hy, w⟩ := hn.settled.starts hf hlt hb hu
      obtain rfl : a = a' := by simpa using ha'
      obtain ⟨n', hn', hback⟩ := w.switchTo_of_first_invalid hinvalid
      obtain ⟨hsettled, -⟩ := hn.settled.switchedBack hf w.onChain (List.mem_of_mem_head? (head?_of_trail w.first))
        ((hn.settled.takes hf).2.2.2 hlt).1 hback
      refine .inr ⟨⟨n', some a.block⟩, ?_, hsettled, fun x hx => ?_, ?_⟩
      · rw [pushBlock_switches hf hp hlt hb, hn']
        rfl
      · obtain rfl := Option.some.inj (hback.head.symm.trans hx)
        rw [hback.chain]
        exact w.onChain
      · obtain ⟨blocks, hchain, hlast, hall⟩ := hn.built
        exact ⟨blocks, hchain, hback.chain ▸ hlast, hback.chain ▸ hall⟩
    · -- The head of the fork database does not move.
      have hle := Nat.le_of_not_lt hlt
      have hhead : n.forkDb.head = some h := by
        obtain ⟨x, hx, rfl, hg⟩ := pushBlock_eq_ok hf
        rcases link_head (B := B) (f := n.forkDb) (x := x) with ⟨hl, habove⟩ | ⟨z, hz, hl, -⟩
        · obtain rfl := Option.some.inj (hl.symm.trans hg)
          have hnum := habove h₀ hh₀
          rw [blockNum_eq h₀.block, hn.head h₀ hh₀] at hnum
          exact absurd hle (Nat.not_le_of_lt hnum)
        · obtain rfl := Option.some.inj (hl.symm.trans hg)
          exact hz
      have hhead' := (hn.settled.takes hf).2.1
      refine .inl ⟨_, _, h, pushBlock_stays hf hp hle, ⟨hn.settled.stays hf hle, fun x hx => ?_, hn.built⟩, hhead'⟩
      obtain rfl := Option.some.inj (hhead'.symm.trans hx)
      exact hn.head _ hhead

theorem Together.step {p : Push Block} (hn : Together E start n) (hc : PushesTogether E n p) :
    Together E start (n.step E p) := by
  unfold Node.step
  rcases hn.pushBlock hc with ⟨n', k, h, hp, hs, -⟩ | ⟨e, hp, hs⟩
  · rw [hp]
    exact ⟨hs.settled.pending _, hs.head, hs.built⟩
  · rw [hp]
    exact ⟨hs.settled.pending _, hs.head, hs.built⟩

/-- In a run of pushes that meet the condition, each push that returns leaves the heads of the fork database and of the
    chain the same, with nothing linked above them, and the chain is what its blocks make of the state at the start. -/
theorem heads_agree {pushes : List (Push Block)} {p : Push Block} {n' : Node Block Id ρ} {switched : Bool}
    (hn : n.Fresh B) (h : Along (step E) (PushesTogether E) n pushes) (hat : At (step E) n pushes t p)
    (hp : Node.pushBlock E t p.block = .ok (n', switched)) : Agrees E n n' := by
  obtain ⟨before, hbefore, rfl⟩ := h.before hat
  have hs : Together E n (run (step E) n before) := run_invariant (fun _ _ => Together.step) hbefore hn.together
  rcases hs.pushBlock (h.at hat) with ⟨n₁, k, h₁, hp₁, hs₁, hh₁⟩ | ⟨e, he, -⟩
  · obtain ⟨rfl, -⟩ := Prod.mk.inj (Except.ok.inj (hp₁.symm.trans hp))
    exact hs₁.agrees hh₁
  · cases he.symm.trans hp

/-- A second block on the side of the first two, and a third one on the chain. -/
theorem sideBlock_together :
    Along (step (processing false)) (PushesTogether (processing false)) genesis
      [⟨⟨1, []⟩, 0⟩, ⟨⟨2, [1]⟩, 1⟩, ⟨⟨3, [1]⟩, 2⟩, ⟨⟨4, [2, 1]⟩, 0⟩] := by
  refine ⟨fun f h hf => ?_, fun f h hf => ?_, fun f h hf => ?_, fun f h hf => ?_, trivial⟩
  all_goals obtain ⟨rfl, rfl⟩ := Prod.mk.inj (Except.ok.inj (show Except.ok _ = _ from hf))
  · exact ⟨by decide, fun hp => absurd (by decide) hp⟩
  · exact ⟨by decide, fun hp => absurd (by decide) hp⟩
  · exact ⟨by decide, fun _ => ⟨by decide, fun hlt => absurd hlt (by decide)⟩⟩
  · exact ⟨by decide, fun hp => absurd (by decide) hp⟩

theorem sideBlock_agrees : ∃ t n' switched,
    At (step (processing false)) genesis [⟨⟨1, []⟩, 0⟩, ⟨⟨2, [1]⟩, 1⟩, ⟨⟨3, [1]⟩, 2⟩, ⟨⟨4, [2, 1]⟩, 0⟩] t
      ⟨⟨4, [2, 1]⟩, 0⟩ ∧
    Node.pushBlock (processing false) t ⟨4, [2, 1]⟩ = .ok (n', switched) ∧ Agrees (processing false) genesis n' :=
  ⟨_, _, _, ⟨[⟨⟨1, []⟩, 0⟩, ⟨⟨2, [1]⟩, 1⟩, ⟨⟨3, [1]⟩, 2⟩], [], rfl, rfl⟩, rfl,
    heads_agree genesis_fresh sideBlock_together ⟨[⟨⟨1, []⟩, 0⟩, ⟨⟨2, [1]⟩, 1⟩, ⟨⟨3, [1]⟩, 2⟩], [], rfl, rfl⟩ rfl⟩

/-- After a switch, the head of the fork database is as far behind as blocks were popped. -/
theorem switch_disagrees : ¬ ∀ t n' switched,
    At (step (processing false)) genesis [⟨⟨1, []⟩, 0⟩, ⟨⟨2, [1]⟩, 0⟩, ⟨⟨3, [1]⟩, 0⟩, ⟨⟨4, [3, 1]⟩, 0⟩] t
      ⟨⟨4, [3, 1]⟩, 0⟩ →
    Node.pushBlock (processing false) t ⟨4, [3, 1]⟩ = .ok (n', switched) → Agrees (processing false) genesis n' := by
  intro h
  obtain ⟨x, hx, hid⟩ := (h _ _ _ ⟨[⟨⟨1, []⟩, 0⟩, ⟨⟨2, [1]⟩, 0⟩, ⟨⟨3, [1]⟩, 0⟩], [], rfl, rfl⟩ rfl).head
  obtain rfl := Option.some.inj (show some _ = _ from hx)
  exact absurd hid (by decide)

end Khc.Fork.Node
