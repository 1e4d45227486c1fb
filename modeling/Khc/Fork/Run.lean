import Khc.Fork.Switching
import Khc.Lib.Run

/-! Runs of pushes from a node that was opened, and what a push does in each of its cases. -/

namespace Khc.Fork

open Lib ForkItem ForkDatabase

variable {Block Id ρ : Type} [DecidableEq Id] {B : Blocks Block Id} {E : Processing B ρ}

/-- A call of `push_block`, and how deep the sessions of pending transactions are nested from the end of the call, which
    puts them back, to the next one. -/
structure Push (Block : Type) where
  block : Block
  pending : Nat

namespace Node
variable {n n' : Node Block Id ρ} {b : Block} {f : ForkDatabase Block} {h y : ForkItem Block}
  {s t : ChainState Id ρ} {first second : List (ForkItem Block)}

/-- The call, whether it returns or throws, and the pending transactions after it. -/
def step (E : Processing B ρ) (n : Node Block Id ρ) (p : Push Block) : Node Block Id ρ :=
  let n := match pushBlock E n p.block with
    | .ok (n, _) => n
    | .error t => t.node
  { n with undo := opened n.undoMaxSize p.pending n.undo }

/-- A node as `database::open` leaves it. The fork database starts with the head block where blocks are replayed. -/
structure Fresh (B : Blocks Block Id) (n : Node Block Id ρ) : Prop where
  undo : n.undo = []
  undoMaxSize : n.undoMaxSize = 10
  forkDb : n.forkDb = {} ∨ ∃ b, B.id b = n.chain.headBlockId ∧ n.forkDb = startBlock {} b

/-! ### The cases of a push -/

theorem pushBlock_rejected {e : ForkError} (hf : n.forkDb.pushBlock B b = .error e) :
    pushBlock E n b = .error { node := n } := by
  unfold Node.pushBlock
  rw [hf]

theorem pushBlock_extends (hf : n.forkDb.pushBlock B b = .ok (f, h)) (hp : B.previous h.block = n.chain.headBlockId)
    (ha : n.chain.applyBlock E b = some s) :
    ∃ t, pushBlock E n b = .ok (grown E { n with forkDb := f } b t s, false) := by
  obtain ⟨t, ht⟩ := extend_of_some (n := { n with forkDb := f }) ha
  refine ⟨t, ?_⟩
  unfold Node.pushBlock
  rw [hf]
  simp only [hp, ne_eq, not_true_eq_false, if_false, ht]

theorem pushBlock_fails (hf : n.forkDb.pushBlock B b = .ok (f, h)) (hp : B.previous h.block = n.chain.headBlockId)
    (ha : n.chain.applyBlock E b = none) :
    ∃ n', Refused E { n with forkDb := f } b n' ∧
      pushBlock E n b = .error ⟨{ n' with forkDb := n'.forkDb.remove B (B.id b) }, some b⟩ := by
  obtain ⟨n', hn', hr⟩ := extend_of_none (n := { n with forkDb := f }) ha
  refine ⟨n', hr, ?_⟩
  unfold Node.pushBlock
  rw [hf]
  simp only [hp, ne_eq, not_true_eq_false, if_false, hn']

theorem pushBlock_stays (hf : n.forkDb.pushBlock B b = .ok (f, h)) (hp : B.previous h.block ≠ n.chain.headBlockId)
    (hn : B.blockNum h.block ≤ n.chain.headBlockNum B) : pushBlock E n b = .ok ({ n with forkDb := f }, false) := by
  unfold Node.pushBlock
  rw [hf]
  simp only [hp, ne_eq, not_false_eq_true, if_true, Nat.not_lt_of_le hn, if_false]

theorem pushBlock_unfetched {e : ForkError} (hf : n.forkDb.pushBlock B b = .ok (f, h))
    (hp : B.previous h.block ≠ n.chain.headBlockId) (hn : n.chain.headBlockNum B < B.blockNum h.block)
    (hb : f.fetchBranchFrom B (B.id h.block) n.chain.headBlockId = .error e) :
    pushBlock E n b = .error { node := { n with forkDb := f } } := by
  unfold Node.pushBlock
  rw [hf]
  simp only [hp, ne_eq, not_false_eq_true, if_true, hn, hb]

theorem pushBlock_switches {m : List (ForkItem Block)} {c : ForkItem Block} (hf : n.forkDb.pushBlock B b = .ok (f, h))
    (hp : B.previous h.block ≠ n.chain.headBlockId) (hn : n.chain.headBlockNum B < B.blockNum h.block)
    (hb : f.fetchBranchFrom B (B.id h.block) n.chain.headBlockId = .ok (first, m ++ [c])) :
    pushBlock E n b = (switchTo E { n with forkDb := f } first (m ++ [c]) (B.previous c.block)).map (·, true) := by
  unfold Node.pushBlock
  rw [hf]
  simp only [hp, ne_eq, not_false_eq_true, if_true, hn, hb, List.getLast?_concat]
  cases switchTo E { n with forkDb := f } first (m ++ [c]) (B.previous c.block) <;> rfl

/-! ### A fork database that is not ahead of the chain -/

/-- A sound node whose fork database links nothing above the head of the chain. -/
structure Settled (E : Processing B ρ) (n : Node Block Id ρ) : Prop where
  sound : n.Sound E
  index : ∀ x ∈ n.forkDb.index, B.blockNum x.block ≤ n.chain.headBlockNum B
  head : ∀ x ∈ n.forkDb.head, B.blockNum x.block ≤ n.chain.headBlockNum B
  empty : n.forkDb.head = none → n.forkDb.index = []

omit [DecidableEq Id] in
theorem blockNum_eq (b : Block) : B.blockNum b = B.numFromId (B.id b) := (B.numFromId_id b).symm

theorem Fresh.settled (hn : n.Fresh B) : n.Settled E := by
  have hbuilt : (n.chain :: n.undo).IsChain fun s t => ∃ b ∈ n.blockIdToBlock, t.applyBlock E b = some s := by
    rw [hn.undo]
    exact List.isChain_singleton _
  rcases hn.forkDb with hf | ⟨b, hb, hf⟩
  · exact ⟨⟨by simp [hf], by simp [hf], hbuilt⟩, by simp [hf], by simp [hf], fun _ => by rw [hf]⟩
  · have hnum : B.blockNum b = n.chain.headBlockNum B := by
      rw [blockNum_eq, hb]
      rfl
    refine ⟨⟨?_, ?_, hbuilt⟩, ?_, ?_, fun hnone => ?_⟩
    · intro x hx
      obtain rfl : x = .root b 0 := by simpa [hf, startBlock] using hx
      trivial
    · intro x hx
      obtain rfl : .root b 0 = x := by simpa [hf, startBlock] using hx
      trivial
    · intro x hx
      obtain rfl : x = .root b 0 := by simpa [hf, startBlock] using hx
      exact hnum.le
    · intro x hx
      obtain rfl : .root b 0 = x := by simpa [hf, startBlock] using hx
      exact hnum.le
    · rw [hf] at hnone
      cases hnone

/-- The fork database takes a block: its items stay chained. -/
theorem Sound.takes (hs : n.Sound E) (hf : n.forkDb.pushBlock B b = .ok (f, h)) :
    Sound E { n with forkDb := f } := by
  obtain ⟨x, hx, rfl, hh⟩ := pushBlock_eq_ok hf
  have hxc := hx.chained hs.index
  refine ⟨fun y hy => ?_, fun y hy => ?_, hs.built⟩
  · rcases mem_link hy with hy | rfl
    · exact hs.index y hy
    · exact hxc
  · rcases link_head (B := B) (f := n.forkDb) (x := x) with ⟨hl, -⟩ | ⟨z, hz, hl, -⟩
    · obtain rfl := Option.some.inj (hl.symm.trans hy)
      exact hxc
    · obtain rfl := Option.some.inj (hl.symm.trans hy)
      exact hs.head z hz

/-- What a push into the fork database of a settled node can be: either the new item is above everything that is linked and
    is the new head, or the head stays where it is and the item is not above it. -/
theorem Settled.takes (hn : n.Settled E) (hf : n.forkDb.pushBlock B b = .ok (f, h)) :
    (∀ y ∈ f.index, y ∈ n.forkDb.index ∨ y.block = b) ∧ f.head = some h ∧
      (h.block = b ∨ n.forkDb.head = some h ∧ B.blockNum b ≤ B.blockNum h.block) ∧
      (n.chain.headBlockNum B < B.blockNum h.block → h.block = b ∧ Takes B n.forkDb b h ∧ f = n.forkDb.link B h) := by
  obtain ⟨x, hx, rfl, hh⟩ := pushBlock_eq_ok hf
  refine ⟨fun y hy => ?_, hh, ?_, fun hlt => ?_⟩
  · rcases mem_link hy with hy | rfl
    · exact .inl hy
    · exact .inr hx.block
  · rcases link_head (B := B) (f := n.forkDb) (x := x) with ⟨hl, -⟩ | ⟨z, hz, hl, hle⟩
    · obtain rfl := Option.some.inj (hl.symm.trans hh)
      exact .inl hx.block
    · obtain rfl := Option.some.inj (hl.symm.trans hh)
      exact .inr ⟨hz, hx.block ▸ hle⟩
  · rcases link_head (B := B) (f := n.forkDb) (x := x) with ⟨hl, -⟩ | ⟨z, hz, hl, -⟩
    · obtain rfl := Option.some.inj (hl.symm.trans hh)
      exact ⟨hx.block, hx, rfl⟩
    · obtain rfl := Option.some.inj (hl.symm.trans hh)
      exact absurd (hn.head z hz) (Nat.not_le_of_lt hlt)

/-- A new head above the chain is one block above it. -/
theorem Settled.blockNum_new (hn : n.Settled E) (hx : Takes B n.forkDb b h)
    (hlt : n.chain.headBlockNum B < B.blockNum b) (hy : y ∈ n.forkDb.index) :
    B.blockNum b = n.chain.headBlockNum B + 1 := by
  rcases hx.prev with ⟨-, hnone | hz⟩ | ⟨p, hp, -, hid⟩
  · rw [hn.empty hnone] at hy
    cases hy
  · have hb : B.blockNum b = 1 := by
      unfold Blocks.blockNum
      rw [hz, B.numFromId_zero]
    omega
  · have hpn := hn.index p hp
    have hb : B.blockNum b = B.blockNum p.block + 1 := by
      rw [blockNum_eq p.block, ← hid]
      rfl
    omega

/-- Where a settled node switches, with undo states down to the common ancestor. -/
theorem Settled.starts (hn : n.Settled E) (hf : n.forkDb.pushBlock B b = .ok (f, h))
    (hlt : n.chain.headBlockNum B < B.blockNum h.block)
    (hb : f.fetchBranchFrom B (B.id h.block) n.chain.headBlockId = .ok (first, second))
    (ht : n.undo[second.length - 1]? = some t) :
    ∃ y a c l m ts rest, first = l ++ [a] ∧ second = m ++ [c] ∧ y ∈ n.forkDb.index ∧
      Starts E { n with forkDb := f } h y a c l m t ts rest := by
  obtain ⟨hindex, hhead, -, hnew⟩ := hn.takes hf
  obtain ⟨hhb, hx, hlink⟩ := hnew hlt
  obtain ⟨x, y, hfx, hfy, hbr⟩ := fetchBranchFrom_eq_ok hb
  obtain ⟨l, a, m, c, rfl, rfl, hxt, hyt, hac, -, -, -⟩ := hbr.ends
  obtain ⟨hxm, hxid⟩ := find_eq_some hfx
  obtain ⟨hym, hyid⟩ := find_eq_some hfy
  have hynum : B.blockNum y.block = n.chain.headBlockNum B := by
    rw [blockNum_eq, hyid]
    rfl
  have hxb : x.block = h.block := B.id_injective _ _ hxid
  have hxh : x = h := by
    rcases mem_link (hlink ▸ hxm) with hxm | rfl
    · have hle := hn.index x hxm
      rw [hxb] at hle
      omega
    · rfl
  have hyold : y ∈ n.forkDb.index := by
    rcases hindex y hym with hy | hy
    · exact hy
    · rw [hhb] at hlt
      rw [hy] at hynum
      omega
  have hsound := hn.sound.takes hf
  have hundo : n.undo = n.undo.take m.length ++ t :: n.undo.drop (m.length + 1) := by
    rw [List.length_append, List.length_singleton, Nat.add_sub_cancel] at ht
    obtain ⟨hlen, hget⟩ := List.getElem?_eq_some_iff.mp ht
    rw [← hget, ← List.drop_eq_getElem_cons hlen, List.take_append_drop]
  refine ⟨y, a, c, l, m, n.undo.take m.length, n.undo.drop (m.length + 1), rfl, rfl, hyold, ?_⟩
  constructor
  case sound => exact hsound
  case head => exact hhead
  case first => exact hxh ▸ hxt
  case second => exact hyt
  case siblings => exact hac
  case chained => exact hsound.index y hym
  case onChain => exact hyid
  case above => exact hynum ▸ hlt
  case undo => exact hundo
  case length =>
    rw [List.length_append, List.length_singleton, Nat.add_sub_cancel] at ht
    obtain ⟨hlen, -⟩ := List.getElem?_eq_some_iff.mp ht
    rw [List.length_take]
    omega

/-- A block is put on the chain and is the head of the fork database. -/
theorem Settled.grown (hn : n.Settled E) (hf : n.forkDb.pushBlock B b = .ok (f, h))
    (hp : B.previous h.block = n.chain.headBlockId) (hs : n.chain.applyBlock E b = some s) (t : ChainState Id ρ) :
    Settled E (Node.grown E { n with forkDb := f } b t s) ∧
      (Node.grown E { n with forkDb := f } b t s).forkDb.head = some h ∧ h.block = b := by
  obtain ⟨hindex, hhead, hcase, -⟩ := hn.takes hf
  have hnum : s.headBlockNum B = n.chain.headBlockNum B + 1 := ChainState.headBlockNum_applyBlock hs
  have hb : B.blockNum b = n.chain.headBlockNum B + 1 := by
    unfold Blocks.blockNum
    rw [← (ChainState.applyBlock_eq_some hs).1]
    rfl
  have hh : B.blockNum h.block = n.chain.headBlockNum B + 1 := by
    unfold Blocks.blockNum
    rw [hp]
    rfl
  have hhead' : (Node.grown E { n with forkDb := f } b t s).forkDb.head = some h := setMaxSize_head.trans hhead
  refine ⟨⟨(hn.sound.takes hf).grown hs, ?_, ?_, ?_⟩, hhead', ?_⟩
  · intro x hx
    show _ ≤ s.headBlockNum B
    rcases hindex x (mem_setMaxSize.mp hx).1 with hx | hx
    · have hle := hn.index x hx
      omega
    · rw [hx]
      omega
  · intro x hx
    show _ ≤ s.headBlockNum B
    obtain rfl := Option.some.inj (hhead'.symm.trans hx)
    omega
  · intro hnone
    cases hhead'.symm.trans hnone
  · rcases hcase with hcase | ⟨hold, -⟩
    · exact hcase
    · have hle := hn.head h hold
      omega

/-- A block stays on a branch that is not longer. -/
theorem Settled.stays (hn : n.Settled E) (hf : n.forkDb.pushBlock B b = .ok (f, h))
    (hle : B.blockNum h.block ≤ n.chain.headBlockNum B) : Settled E { n with forkDb := f } := by
  obtain ⟨hindex, hhead, hcase, -⟩ := hn.takes hf
  refine ⟨hn.sound.takes hf, ?_, ?_, ?_⟩
  · intro x hx
    rcases hindex x hx with hx | hx
    · exact hn.index x hx
    · rw [hx]
      rcases hcase with hcase | ⟨-, hcase⟩
      · exact hcase ▸ hle
      · exact hcase.trans hle
  · intro x hx
    obtain rfl := Option.some.inj (hhead.symm.trans hx)
    exact hle
  · intro hnone
    cases hhead.symm.trans hnone

/-- A switch fails with its first block: what is linked was linked before, and the heads are those of the chain. -/
theorem Settled.switchedBack {first : List (ForkItem Block)} {ts : List (ChainState Id ρ)} (hn : n.Settled E)
    (hf : n.forkDb.pushBlock B b = .ok (f, h)) (hy : B.id y.block = n.chain.headBlockId) (hh : h ∈ first)
    (hb : h.block = b) (hback : Starts.SwitchedBack E { n with forkDb := f } h y first t ts n') :
    n'.Settled E ∧ ∀ x ∈ n'.forkDb.index, x ∈ n.forkDb.index := by
  have hynum : B.blockNum y.block = n.chain.headBlockNum B := by
    rw [blockNum_eq, hy]
    rfl
  have hold : ∀ x ∈ n'.forkDb.index, x ∈ n.forkDb.index := by
    intro x hx
    obtain ⟨hx, hz⟩ := hback.index x hx
    rcases (hn.takes hf).1 x hx with hx | hx
    · exact hx
    · exact absurd (congrArg B.id (hx.trans hb.symm)) (hz h hh)
  refine ⟨⟨hback.sound, ?_, ?_, ?_⟩, hold⟩
  · intro x hx
    rw [hback.chain]
    exact hn.index x (hold x hx)
  · intro x hx
    obtain rfl := Option.some.inj (hback.head.symm.trans hx)
    rw [hback.chain]
    exact hynum.le
  · intro hnone
    cases hback.head.symm.trans hnone

/-- Pending transactions leave everything but undo states. -/
theorem Settled.pending (hn : n.Settled E) (k : Nat) :
    Settled E { n with undo := opened n.undoMaxSize k n.undo } where
  sound := hn.sound.shrink rfl (isPrefix_opened _ _ _) rfl (fun _ hx => hx) hn.sound.head
  index := hn.index
  head := hn.head
  empty := hn.empty

end Node

/-! ### An instance -/

/-- Blocks that are told apart by a name, and whose ids list the names back to the first one. -/
structure NamedBlock where
  name : Nat
  previous : List Nat
  deriving DecidableEq, Repr

/-- The ids are as long as the number of the block is great. -/
def named : Blocks NamedBlock (List Nat) where
  id b := b.name :: b.previous
  previous := NamedBlock.previous
  zero := []
  numFromId := List.length
  numFromId_zero := rfl
  numFromId_id _ := rfl
  id_injective := by
    rintro ⟨a, as⟩ ⟨b, bs⟩ h
    obtain ⟨rfl, rfl⟩ := List.cons.inj h
    rfl

/-- Blocks named 10 and above are invalid. Where there is a single witness, it confirms each block it makes. -/
def processing (single : Bool) : Processing named Unit where
  transact _ b := if b.name < 10 then some () else none
  confirmed _ b := if single then named.blockNum b else 0
  confirmed_le _ b := by split <;> omega
  finish _ _ := some ()
  proposed _ _ := 0
  expired _ _ := 0

/-- A node without blocks. -/
def genesis : Node NamedBlock (List Nat) Unit where
  chain := ⟨[], 0, ()⟩
  forkDb := {}
  blockIdToBlock := []

theorem genesis_fresh : genesis.Fresh named := ⟨rfl, rfl, .inl rfl⟩

end Khc.Fork
