import Khc.Lib.Except
import Mathlib.Algebra.Group.Nat.Defs

/-! The Merkle root of the transactions of a block (`signed_block::calculate_merkle_root`), whose levels are computed in one array. -/

namespace Khc.Block

open Lib

/-- The digests of transactions, of pairs of digests, and of the last digest that is left -/
structure Digests (T D C : Type) where
  merkleDigest : T → D
  hashPair : D → D → D
  checksum : D → C
  /-- `digest_type()` -/
  zero : D
  /-- `checksum_type()` -/
  noTransactions : C

inductive MerkleError
  | outOfFuel
  | outOfBounds
  deriving DecidableEq, Repr

abbrev MerkleEval := Except MerkleError

/-- What `++` and the like make of a number of 32 bits -/
def toUInt32 (n : Nat) : Nat := n % 2 ^ 32

variable {T D C : Type} (H : Digests T D C)

def getId {α : Type} (ids : List α) (i : Nat) : MerkleEval α := (ids[i]?).elim (.error .outOfBounds) .ok

/-- The loop over the transactions -/
def fill (txs : List T) : Nat → (i : Nat) → List D → MerkleEval (List D)
  | 0, _, _ => .error .outOfFuel
  | fuel + 1, i, ids =>
    if i < txs.length then do
      let tx ← getId txs i
      fill txs fuel (toUInt32 (i + 1)) (ids.set i (H.merkleDigest tx))
    else return ids

/-- The array while a level is computed, and what has been read of the level, with the places -/
structure Level (D : Type) where
  ids : List D
  k : Nat := 0
  reads : List (D × Nat) := []

def pairLoop (iMax : Nat) : Nat → (i : Nat) → Level D → MerkleEval (Level D)
  | 0, _, _ => .error .outOfFuel
  | fuel + 1, i, l =>
    if i < iMax then do
      let x ← getId l.ids i
      let y ← getId l.ids (toUInt32 (i + 1))
      pairLoop iMax fuel (toUInt32 (i + 2))
        ⟨l.ids.set l.k (H.hashPair x y), toUInt32 (l.k + 1), l.reads ++ [(x, i), (y, toUInt32 (i + 1))]⟩
    else return l

/-- One round of the outer loop -/
def level (fuel currentNumberOfHashes : Nat) (ids : List D) : MerkleEval (Level D) := do
  let iMax := toUInt32 (currentNumberOfHashes - currentNumberOfHashes % 2)
  let l ← pairLoop H iMax fuel 0 { ids }
  if currentNumberOfHashes % 2 = 1 then
    let x ← getId l.ids iMax
    return ⟨l.ids.set l.k x, toUInt32 (l.k + 1), l.reads ++ [(x, iMax)]⟩
  else return l

def reduce : Nat → (currentNumberOfHashes : Nat) → List D → MerkleEval (List D)
  | 0, _, _ => .error .outOfFuel
  | fuel + 1, currentNumberOfHashes, ids =>
    if currentNumberOfHashes > 1 then do
      let l ← level H fuel currentNumberOfHashes ids
      reduce fuel l.k l.ids
    else return ids

end Khc.Block
