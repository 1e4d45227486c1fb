import Khc.Fork.ForkDatabase

/-! Pushing blocks (`push_block`, `_push_block`, `pop_block` of `db_block.cpp`, `update_global_dynamic_data` and
    `update_last_irreversible_block` of `db_update.cpp`), with `skip_nothing`. -/

namespace Khc.Fork

open Lib

/-- The objects of the chain database without those of pending transactions. -/
structure ChainState (Id ρ : Type) where
  /-- `dynamic_global_property_object::head_block_id`; `head_block_number` is its number. -/
  headBlockId : Id
  /-- `dynamic_global_property_object::last_irreversible_block_num` -/
  lastIrreversibleBlockNum : Nat
  rest : ρ
  deriving DecidableEq, Repr

/-- The parts of block processing that are not about the head and the irreversible block. -/
structure Processing {Block Id : Type} (B : Blocks Block Id) (ρ : Type) where
  /-- The checks of `_apply_block` but that of `previous`, its transactions, and the changes that
      `update_global_dynamic_data` makes to other objects. -/
  transact : ChainState Id ρ → Block → Option ρ
  /-- The `last_confirmed_block_num` that `update_last_irreversible_block` takes after `update_signing_witness`. -/
  confirmed : ChainState Id ρ → Block → Nat
  confirmed_le : ∀ s b, confirmed s b ≤ B.blockNum b
  /-- `update_signing_witness` and everything from `perform_chain_maintenance` on. -/
  finish : ChainState Id ρ → Block → Option ρ
  /-- How deep the transactions of the block nest the sessions of proposals they execute. -/
  proposed : ChainState Id ρ → Block → Nat
  /-- The same for `clear_expired_proposals`. -/
  expired : ChainState Id ρ → Block → Nat

/-- `GRAPHENE_MAX_UNDO_HISTORY` -/
def maxUndoHistory : Nat := 10000

/-- What is left of the undo states after `start_undo_session`, `depth` times one inside the other, without the states
    of these sessions. The newest state comes first. -/
def opened {σ : Type} (maxSize depth : Nat) (undo : List σ) : List σ :=
  if depth = 0 then undo else undo.take (maxSize + 1 - depth)

variable {Block Id ρ : Type} [DecidableEq Id] {B : Blocks Block Id} (E : Processing B ρ)

namespace ChainState
variable (s : ChainState Id ρ)

/-- `dynamic_global_property_object::head_block_number` -/
def headBlockNum (B : Blocks Block Id) : Nat := B.numFromId s.headBlockId

/-- What `update_global_dynamic_data` passes to both `set_max_size`. -/
def retained (B : Blocks Block Id) : Nat := s.headBlockNum B - s.lastIrreversibleBlockNum + 1

/-- `_apply_block` until `update_global_dynamic_data` sets the sizes. -/
def begin (b : Block) : Option (ChainState Id ρ) :=
  if s.headBlockId = B.previous b then do
    let r ← E.transact s b
    let s := { s with headBlockId := B.id b, rest := r }
    if s.headBlockNum B - s.lastIrreversibleBlockNum < maxUndoHistory then some s else none
  else none

/-- `_apply_block` from `update_signing_witness` on. -/
def conclude (b : Block) : Option (ChainState Id ρ) := do
  let s := { s with lastIrreversibleBlockNum := max s.lastIrreversibleBlockNum (E.confirmed s b) }
  let r ← E.finish s b
  return { s with rest := r }

/-- `apply_block` -/
def applyBlock (b : Block) : Option (ChainState Id ρ) := do
  let s ← s.begin E b
  s.conclude E b

end ChainState

/-- A node between two calls of `push_block`. -/
structure Node (Block Id ρ : Type) where
  chain : ChainState Id ρ
  /-- `_undo_db`: what its states restore, the newest first. -/
  undo : List (ChainState Id ρ) := []
  /-- `_undo_db._max_size` -/
  undoMaxSize : Nat := 10
  forkDb : ForkDatabase Block
  /-- `_block_id_to_block` -/
  blockIdToBlock : List Block

namespace Node
variable (n : Node Block Id ρ)

/-- `fetch_block_by_id` -/
def fetchBlockById (B : Blocks Block Id) (id : Id) : Option Block :=
  match n.forkDb.find B id with
  | some x => some x.block
  | none => n.blockIdToBlock.find? fun b => B.id b = id

/-- `pop_block`. The node is what it leaves, also where it throws. -/
def popBlock (B : Blocks Block Id) (held : List (ForkItem Block)) : Except (Node Block Id ρ) (Node Block Id ρ) :=
  match n.fetchBlockById B n.chain.headBlockId with
  | none => .error n
  | some _ =>
    match n.forkDb.popBlock held with
    | .error _ => .error n
    | .ok f =>
      match n.undo with
      | [] => .error { n with forkDb := f }
      | s :: undo => .ok { n with chain := s, undo, forkDb := f }

/-- `apply_block` in a session, which is undone where it throws, and `_block_id_to_block.store`. -/
def extend (b : Block) : Except (Node Block Id ρ) (Node Block Id ρ) :=
  let undo := opened n.undoMaxSize (E.proposed n.chain b) (n.chain :: opened n.undoMaxSize 1 n.undo)
  match n.chain.begin E b with
  | none => .error { n with undo := undo.tail }
  | some s =>
    let size := s.retained B
    let undo := opened size (E.expired s b) undo
    let n := { n with undoMaxSize := size, forkDb := n.forkDb.setMaxSize B size }
    match s.conclude E b with
    | none => .error { n with undo := undo.tail }
    | some s => .ok { n with chain := s, undo, blockIdToBlock := b :: n.blockIdToBlock }

/-- `while( head_block_id() != id ) pop_block()`. There is a state to pop for each round that is left. -/
def popTo (B : Blocks Block Id) (held : List (ForkItem Block)) (id : Id) :
    Nat → Node Block Id ρ → Except (Node Block Id ρ) (Node Block Id ρ)
  | 0, n => if n.chain.headBlockId = id then .ok n else n.popBlock B held
  | k + 1, n => if n.chain.headBlockId = id then .ok n else do
    let n ← n.popBlock B held
    popTo B held id k n

/-- The loops over the blocks of a branch. Where one of them throws, it is the first of those that are left. -/
def extendAll :
    List (ForkItem Block) → Node Block Id ρ → Except (Node Block Id ρ × List (ForkItem Block)) (Node Block Id ρ)
  | [], n => .ok n
  | x :: l, n =>
    match n.extend E x.block with
    | .ok n => extendAll l n
    | .error n => .error (n, x :: l)

/-- What `_push_block` does where a block of the new branch has thrown, before it throws again. -/
def switchBack (second : List (ForkItem Block)) (held invalid : List (ForkItem Block)) (ancestor : Id) :
    Except (Node Block Id ρ) (Node Block Id ρ) := do
  let f := invalid.foldl (fun f x => f.remove B (B.id x.block)) n.forkDb
  let n := { n with forkDb := { f with head := second.head? } }
  let n ← popTo B held ancestor n.undo.length n
  match extendAll E second.reverse n with
  | .ok n => .ok n
  | .error (n, _) => .error n

/-- What a call that throws leaves, with the block that `apply_block` has thrown on. -/
structure Thrown (Block Id ρ : Type) where
  node : Node Block Id ρ
  invalid : Option Block := none

/-- The switch to the new branch. Both branches are listed from their heads. -/
def switchTo (first second : List (ForkItem Block)) (ancestor : Id) :
    Except (Thrown Block Id ρ) (Node Block Id ρ) :=
  match popTo B (first ++ second) ancestor n.undo.length n with
  | .error n => .error { node := n }
  | .ok n =>
    match extendAll E first.reverse n with
    | .ok n => .ok n
    | .error (n, invalid) =>
      match switchBack E n second (first ++ second) invalid ancestor with
      | .ok n | .error n => .error { node := n, invalid := invalid.head?.map (·.block) }

/-- `_push_block` -/
def pushBlock (b : Block) : Except (Thrown Block Id ρ) (Node Block Id ρ × Bool) :=
  match n.forkDb.pushBlock B b with
  | .error _ => .error { node := n }
  | .ok (f, newHead) =>
    let n := { n with forkDb := f }
    if B.previous newHead.block ≠ n.chain.headBlockId then
      if n.chain.headBlockNum B < B.blockNum newHead.block then
        match f.fetchBranchFrom B (B.id newHead.block) n.chain.headBlockId with
        | .error _ => .error { node := n }
        | .ok (first, second) =>
          match second.getLast? with
          | none => .error { node := n }
          | some x => do
            let n ← switchTo E n first second (B.previous x.block)
            return (n, true)
      else .ok (n, false)
    else
      match n.extend E b with
      | .ok n => .ok (n, false)
      | .error n => .error { node := { n with forkDb := n.forkDb.remove B (B.id b) }, invalid := some b }

end Node

end Khc.Fork
