import Khc.Lib.Run
import Mathlib.Data.List.Basic

/-! Transactions in blocks (`db_block.cpp`, `clear_expired_transactions` of `db_update.cpp`), with all checks enabled.
    What the evaluation of operations and the rest of block processing do to the other objects is a parameter: they
    leave the index of transactions alone. -/

namespace Khc.Block

open Lib

/-- What the index of transactions looks at. The id of a transaction determines its fields. -/
structure Transactions (Tx Id : Type) where
  id : Tx → Id
  expiration : Tx → Nat
  expiration_eq : ∀ a b, id a = id b → expiration a = expiration b

/-- `signed_block`, as far as it is read here. -/
structure SignedBlock (Tx : Type) where
  timestamp : Nat
  transactions : List Tx

/-- The chain database: `dynamic_global_property_object`, the index of transactions in the order of `by_expiration`, and
    the other objects. -/
structure Database (Tx σ : Type) where
  headBlockNum : Nat
  headBlockTime : Nat
  transactionIndex : List Tx
  rest : σ

/-- The part of block processing that is not about the index. -/
structure Processing (Tx σ : Type) where
  /-- `validate`, `verify_authority` and, after the first block, the TaPoS check. -/
  verify : Database Tx σ → Tx → Bool
  /-- The operations of the transaction. -/
  operate : Database Tx σ → Tx → Option σ
  maximumTimeUntilExpiration : σ → Nat
  /-- The Merkle root and `validate_block_header` but for the time. -/
  validateBlockHeader : Database Tx σ → SignedBlock Tx → Bool
  /-- From `update_global_dynamic_data` to `create_block_summary`. -/
  maintain : Database Tx σ → SignedBlock Tx → Option σ
  /-- From `clear_expired_proposals` on. -/
  finish : Database Tx σ → SignedBlock Tx → Option σ

namespace Database
variable {Tx Id σ : Type} [DecidableEq Id] (T : Transactions Tx Id) (E : Processing Tx σ) (d : Database Tx σ)

/-- `database::is_known_transaction` -/
def isKnownTransaction (id : Id) : Bool := d.transactionIndex.any fun trx => T.id trx = id

/-- `create<transaction_object>`: equal keys of `by_expiration` stay in the order of insertion. -/
def createTransaction (trx : Tx) : Database Tx σ :=
  { d with
    transactionIndex := d.transactionIndex.takeWhile (fun t => T.expiration t ≤ T.expiration trx) ++
      trx :: d.transactionIndex.dropWhile fun t => T.expiration t ≤ T.expiration trx }

/-- The checks of the expiration. On the first block they are skipped. -/
def checkExpiration (trx : Tx) : Bool :=
  d.headBlockNum = 0 ∨
    T.expiration trx ≤ (d.headBlockTime + E.maximumTimeUntilExpiration d.rest) % 2 ^ 32 ∧
      d.headBlockTime ≤ T.expiration trx

/-- `database::_apply_transaction` -/
def applyTransaction (trx : Tx) : Option (Database Tx σ) := do
  guard (E.verify d trx)
  guard (d.isKnownTransaction T (T.id trx) = false)
  guard (d.checkExpiration T E trx)
  let d := d.createTransaction T trx
  let rest ← E.operate d trx
  return { d with rest := rest }

/-- `database::clear_expired_transactions` -/
def clearExpiredTransactions : Database Tx σ :=
  { d with transactionIndex := d.transactionIndex.dropWhile fun trx => d.headBlockTime > T.expiration trx }

/-- `database::_apply_block` -/
def applyBlock (b : SignedBlock Tx) : Option (Database Tx σ) := do
  guard (E.validateBlockHeader d b)
  guard (d.headBlockTime < b.timestamp)
  let d ← b.transactions.foldlM (applyTransaction T E) d
  let d := { d with headBlockNum := d.headBlockNum + 1, headBlockTime := b.timestamp }
  let rest ← E.maintain d b
  let d := ({ d with rest := rest } : Database Tx σ).clearExpiredTransactions T
  let rest ← E.finish d b
  return { d with rest := rest }

end Database

/-! ### The current chain -/

/-- The blocks of the current chain, the newest first, each with the database before it, and the database after them. -/
structure Chain (Tx σ : Type) where
  database : Database Tx σ
  blocks : List (SignedBlock Tx × Database Tx σ)

/-- A fork switch pops blocks and pushes others. -/
inductive Action (Tx : Type)
  | push (b : SignedBlock Tx)
  | pop

namespace Chain
variable {Tx Id σ : Type} [DecidableEq Id] (T : Transactions Tx Id) (E : Processing Tx σ) (c : Chain Tx σ)

/-- A block that fails is undone, and so is a popped one. -/
def step : Action Tx → Chain Tx σ
  | .push b =>
    match c.database.applyBlock T E b with
    | some d => ⟨d, (b, c.database) :: c.blocks⟩
    | none => c
  | .pop =>
    match c.blocks with
    | [] => c
    | (_, before) :: rest => ⟨before, rest⟩

def run (actions : List (Action Tx)) : Chain Tx σ := Lib.run (step T E) c actions

/-- The transactions of the chain, those of older blocks first. -/
def included : List Tx := c.blocks.reverse.flatMap fun b => b.1.transactions

end Chain

/-- A chain without blocks. -/
def genesis {Tx σ : Type} (initialTimestamp : Nat) (rest : σ) : Chain Tx σ := ⟨⟨0, initialTimestamp, [], rest⟩, []⟩

end Khc.Block
