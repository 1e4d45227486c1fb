import Khc.Lib.Except
import Mathlib.Data.List.Chain

/-! The fork database (`fork_database.hpp`, `fork_database.cpp`). Nothing ever gets into `_unlinked_index`: a block that
    does not link is thrown out before it would be inserted. -/

namespace Khc.Fork

open Lib

/-- Blocks, as far as they are linked. The number of a block is a part of its id. -/
structure Blocks (Block Id : Type) where
  id : Block → Id
  previous : Block → Id
  /-- `block_id_type()` -/
  zero : Id
  /-- `block_header::num_from_id` -/
  numFromId : Id → Nat
  numFromId_zero : numFromId zero = 0
  numFromId_id : ∀ b, numFromId (id b) = numFromId (previous b) + 1
  id_injective : ∀ a b, id a = id b → a = b

/-- `block_header::block_num` -/
def Blocks.blockNum {Block Id : Type} (B : Blocks Block Id) (b : Block) : Nat := B.numFromId (B.previous b) + 1

/-- `fork_item`. The weak pointer `prev` is set once, so that it is kept as the item it points to; whether it still locks
    is up to the owners of that item. Two items made of the same block have different serials. -/
inductive ForkItem (Block : Type)
  | root (block : Block) (serial : Nat)
  | child (block : Block) (serial : Nat) (prev : ForkItem Block)
  deriving DecidableEq, Repr

namespace ForkItem
variable {Block : Type}

def block : ForkItem Block → Block
  | .root b _ => b
  | .child b _ _ => b

def serial : ForkItem Block → Nat
  | .root _ s => s
  | .child _ s _ => s

def prev : ForkItem Block → Option (ForkItem Block)
  | .root _ _ => none
  | .child _ _ p => some p

/-- The item, the item before it, and so on. -/
def trail : ForkItem Block → List (ForkItem Block)
  | x@(.root _ _) => [x]
  | x@(.child _ _ p) => x :: p.trail

@[simp] theorem block_root (b : Block) (s : Nat) : (root b s).block = b := rfl
@[simp] theorem block_child (b : Block) (s : Nat) (p : ForkItem Block) : (child b s p).block = b := rfl
@[simp] theorem prev_child (b : Block) (s : Nat) (p : ForkItem Block) : (child b s p).prev = some p := rfl

theorem trail_eq (x : ForkItem Block) : x.trail = x :: (x.prev.map trail).getD [] := by
  cases x <;> rfl

theorem trail_of_prev {x p : ForkItem Block} (h : x.prev = some p) : x.trail = x :: p.trail := by
  rw [trail_eq, h]
  rfl

theorem mem_trail_self (x : ForkItem Block) : x ∈ x.trail := by
  rw [trail_eq]
  exact List.mem_cons_self

theorem trail_suffix {x y : ForkItem Block} (h : y ∈ x.trail) : y.trail <:+ x.trail := by
  induction x with
  | root b s =>
    obtain rfl := List.mem_singleton.mp h
    exact List.suffix_rfl
  | child b s p ih =>
    rcases List.mem_cons.mp h with rfl | h
    · exact List.suffix_rfl
    · exact (ih h).trans (List.suffix_cons _ _)

end ForkItem

/-- What the functions of the fork database throw. -/
inductive ForkError
  /-- "attempting to push a block that is too old" -/
  | tooOld
  /-- `unlinkable_block_exception`: "block does not link to known chain" -/
  | unlinkable
  /-- "no blocks to pop" -/
  | noHead
  /-- "poping block would leave head block null" -/
  | noPrev
  /-- One of the assertions of `fetch_branch_from`. -/
  | noBranch
  deriving DecidableEq, Repr

structure ForkDatabase (Block : Type) where
  /-- `_max_size` -/
  maxSize : Nat := 1024
  /-- `_index` -/
  index : List (ForkItem Block) := []
  /-- `_head` -/
  head : Option (ForkItem Block) := none
  /-- The serial of the next item. -/
  next : Nat := 0

namespace ForkDatabase
variable {Block Id : Type} [DecidableEq Id] (B : Blocks Block Id) (f : ForkDatabase Block)

/-- `start_block` -/
def startBlock (b : Block) : ForkDatabase Block :=
  { f with index := f.index ++ [.root b f.next], head := some (.root b f.next), next := f.next + 1 }

/-- `_index.get<block_id>().find(id)` -/
def find (id : Id) : Option (ForkItem Block) := f.index.find? fun x => B.id x.block = id

/-- `_index.insert(item)`: there is one item for each id. -/
def insert (x : ForkItem Block) : ForkDatabase Block :=
  if (f.find B (B.id x.block)).isSome then f else { f with index := f.index ++ [x] }

/-- The items with smaller numbers are erased from the index. -/
def eraseBelow (n : Nat) : ForkDatabase Block :=
  { f with index := f.index.filter fun x => n ≤ B.blockNum x.block }

/-- `_push_block` after the item has got its `prev`. -/
def link (x : ForkItem Block) : ForkDatabase Block :=
  let g := { f.insert B x with next := f.next + 1 }
  match f.head with
  | none => { g with head := some x }
  | some h =>
    if B.blockNum h.block < B.blockNum x.block then
      { g with head := some x }.eraseBelow B (B.blockNum x.block - min f.maxSize (B.blockNum x.block))
    else g

/-- `push_block`, with the new head. -/
def pushBlock (b : Block) : Except ForkError (ForkDatabase Block × ForkItem Block) :=
  match f.head with
  | none => .ok (f.link B (.root b f.next), .root b f.next)
  | some h =>
    if B.blockNum b ≤ B.blockNum h.block - f.maxSize then .error .tooOld
    else if B.previous b = B.zero then
      let g := f.link B (.root b f.next)
      .ok (g, g.head.getD h)
    else match f.find B (B.previous b) with
      | none => .error .unlinkable
      | some p =>
        let g := f.link B (.child b f.next p)
        .ok (g, g.head.getD h)

/-- A shared pointer to the item is left, in the database or among those that are held. -/
def owned (held : List (ForkItem Block)) (x : ForkItem Block) : Bool :=
  (held ++ f.index ++ f.head.toList).any fun y => y.serial = x.serial

/-- `pop_block` -/
def popBlock (held : List (ForkItem Block)) : Except ForkError (ForkDatabase Block) :=
  match f.head with
  | none => .error .noHead
  | some h =>
    match h.prev with
    | none => .error .noPrev
    | some p => if f.owned held p then .ok { f with head := some p } else .error .noPrev

/-- `set_head` -/
def setHead (x : ForkItem Block) : ForkDatabase Block := { f with head := some x }

/-- `remove` -/
def remove (id : Id) : ForkDatabase Block := { f with index := f.index.filter fun x => B.id x.block ≠ id }

/-- `set_max_size` -/
def setMaxSize (size : Nat) : ForkDatabase Block :=
  match f.head with
  | none => { f with maxSize := size }
  | some h => { f with maxSize := size }.eraseBelow B (B.blockNum h.block - size)

/-- A loop of `fetch_branch_from`: back from the item while its number is greater, with the items it leaves. -/
def descend (owned : ForkItem Block → Bool) (n : Nat) :
    ForkItem Block → Except ForkError (List (ForkItem Block) × ForkItem Block)
  | x@(.root b _) => if B.blockNum b ≤ n then .ok ([], x) else .error .noBranch
  | x@(.child b _ p) =>
    if B.blockNum b ≤ n then .ok ([], x)
    else if owned p then do
      let (l, y) ← descend owned n p
      return (x :: l, y)
    else .error .noBranch

/-- The last loop of `fetch_branch_from`: back from both items until they have the same previous block. -/
def converge (owned : ForkItem Block → Bool) :
    ForkItem Block → ForkItem Block → Except ForkError (List (ForkItem Block) × List (ForkItem Block))
  | x@(.child b _ p), y@(.child c _ q) =>
    if B.previous b = B.previous c then .ok ([x], [y])
    else if owned p && owned q then do
      let (l, m) ← converge owned p q
      return (x :: l, y :: m)
    else .error .noBranch
  | x, y => if B.previous x.block = B.previous y.block then .ok ([x], [y]) else .error .noBranch

/-- `fetch_branch_from` -/
def fetchBranchFrom (first second : Id) : Except ForkError (List (ForkItem Block) × List (ForkItem Block)) :=
  match f.find B first, f.find B second with
  | some x, some y => do
    let (first, x) ← descend B (f.owned []) (B.blockNum y.block) x
    let (second, y) ← descend B (f.owned []) (B.blockNum x.block) y
    let (l, m) ← converge B (f.owned []) x y
    return (first ++ l, second ++ m)
  | _, _ => .error .noBranch

/-- The block is among those the database links. -/
def Linked (b : Block) : Prop := ∃ x ∈ f.index, x.block = b

end ForkDatabase

end Khc.Fork
