import Khc.Fork.ForkDatabase
import Khc.Lib.Run
import Mathlib.Data.List.DropRight

/-! The store of the irreversible blocks (`block_database.cpp`): one file with the packed blocks, one after the other, and
    one with index entries of a fixed size, at the place of the number of the block. A file that is written to past its end
    is filled up with zeros, so that the entries between are as `index_entry()`. -/

namespace Khc.Block

open Lib
open Fork (Blocks)

variable {Block Id : Type} [DecidableEq Block] [DecidableEq Id]

/-- How blocks are packed (`fc::raw`): what is packed is unpacked again, nothing is unpacked from no bytes, and the size fits
    into `uint32_t`. -/
structure Codec (Block : Type) where
  pack : Block → List UInt8
  /-- None if it throws -/
  unpack : List UInt8 → Option Block
  unpack_pack : ∀ b, unpack (pack b) = some b
  unpack_nil : unpack [] = none
  length_pack : ∀ b, (pack b).length < 2 ^ 32

structure IndexEntry (Id : Type) where
  blockPos : Nat
  blockSize : Nat
  blockId : Id
  deriving DecidableEq, Repr

/-- What a caller of the store may get instead of a result -/
inductive StoreError
  /-- "Block ${id} not contained in block database", "Block number ${block_num} not contained in block database" -/
  | keyNotFound
  /-- "Empty block_id in block_database (maybe corrupt on disk?)" -/
  | emptyBlockId
  /-- `assert( block_num != 0 )` -/
  | assertion
  deriving DecidableEq, Repr

/-- The two files -/
structure BlockDatabase (Id : Type) where
  blocks : List UInt8
  blockNumToPos : List (IndexEntry Id)
  deriving DecidableEq, Repr

namespace BlockDatabase
variable (B : Blocks Block Id) (C : Codec Block) (d : BlockDatabase Id)

/-- `index_entry()` -/
def emptyEntry : IndexEntry Id := ⟨0, 0, B.zero⟩

/-- A `write` of an entry after a `seekp` -/
def writeEntry (num : Nat) (e : IndexEntry Id) : BlockDatabase Id :=
  { d with blockNumToPos :=
      (d.blockNumToPos ++ List.replicate (num + 1 - d.blockNumToPos.length) (emptyEntry B)).set num e }

/-- A `read` of the bytes of a block; none if it fails, which throws -/
def readBlock (e : IndexEntry Id) : Option Block := do
  if e.blockPos + e.blockSize ≤ d.blocks.length then C.unpack ((d.blocks.drop e.blockPos).take e.blockSize) else none

def store (id : Id) (b : Block) : BlockDatabase Id :=
  let id := if id = B.zero then B.id b else id
  let d' : BlockDatabase Id := { d with blocks := d.blocks ++ C.pack b }
  d'.writeEntry B (B.numFromId id) ⟨d.blocks.length, (C.pack b).length % 2 ^ 32, id⟩

def remove (id : Id) : Except StoreError (BlockDatabase Id) :=
  match d.blockNumToPos[B.numFromId id]? with
  | none => .error .keyNotFound
  | some e => .ok (if e.blockId = id then d.writeEntry B (B.numFromId id) { e with blockSize := 0 } else d)

def contains (id : Id) : Bool :=
  if id = B.zero then false
  else match d.blockNumToPos[B.numFromId id]? with
    | none => false
    | some e => e.blockId = id ∧ e.blockSize > 0

def fetchBlockId (blockNum : Nat) : Except StoreError Id := do
  ensure (blockNum ≠ 0) .assertion
  match d.blockNumToPos[blockNum]? with
  | none => throw .keyNotFound
  | some e =>
    ensure (e.blockId ≠ B.zero) .emptyBlockId
    return e.blockId

def fetchOptional (id : Id) : Option Block := do
  let e ← d.blockNumToPos[B.numFromId id]?
  if e.blockId ≠ id then none
  let result ← d.readBlock C e
  if B.id result = e.blockId then some result else none

def fetchByNumber (blockNum : Nat) : Option Block := do
  let e ← d.blockNumToPos[blockNum]?
  let result ← d.readBlock C e
  if B.id result = e.blockId then some result else none

/-- Whether the last entry is good: otherwise it is cut off. -/
def good (e : IndexEntry Id) : Bool :=
  e.blockSize > 0 ∧ ∃ b ∈ d.readBlock C e, B.id b = e.blockId

/-- `last_index_entry`; it resizes the index. -/
def lastIndexEntry : Option (IndexEntry Id) × BlockDatabase Id :=
  let entries := d.blockNumToPos.rdropWhile fun e => !d.good B C e
  (entries.getLast?, { d with blockNumToPos := entries })

def last : Option Block × BlockDatabase Id :=
  let (entry, d) := d.lastIndexEntry B C
  (entry.bind fun e => d.fetchByNumber B C (B.numFromId e.blockId), d)

def lastId : Option Id × BlockDatabase Id :=
  let (entry, d) := d.lastIndexEntry B C
  (entry.map (·.blockId), d)

/-- `open` when there are no files yet -/
def create : BlockDatabase Id := ⟨[], []⟩

end BlockDatabase

/-- What is done with the store. Closing it and opening it again flushes the files and leaves them as they are. -/
inductive StoreOperation (Block Id : Type)
  | store (id : Id) (b : Block)
  | remove (id : Id)
  | reopen

/-- A store after an operation. One that throws leaves it as it was. -/
def BlockDatabase.apply (B : Blocks Block Id) (C : Codec Block) (d : BlockDatabase Id) :
    StoreOperation Block Id → BlockDatabase Id
  | .store id b => d.store B C id b
  | .remove id => (d.remove B id).toOption.getD d
  | .reopen => d

end Khc.Block
