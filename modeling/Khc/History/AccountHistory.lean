import Khc.Lib.Ordered
import Mathlib.Algebra.Group.Nat.Defs

/-! The history of the accounts (`account_history_plugin.cpp`): for each operation and each account that it concerns an entry, numbered
    account by account and linked to the one before, of which the oldest ones are removed. Numbers are far below 2³². -/

namespace Khc.History

open Lib

/-- `account_transaction_history_object` -/
structure Entry where
  id : Nat
  account : Nat
  operationId : Nat
  sequence : Nat
  next : Nat
  deriving DecidableEq, Repr

/-- Of `account_statistics_object` -/
structure Statistics where
  mostRecentOp : Nat := 0
  totalOps : Nat := 0
  removedOps : Nat := 0
  deriving DecidableEq, Repr

/-- The options of the plugin -/
structure Options where
  trackedAccounts : List Nat
  partialOperations : Bool
  maxOpsPerAccount : Nat
  nodup : trackedAccounts.Nodup

/-- An operation as it was applied, with the accounts that it concerns (`operation_get_required_authorities` and
    `operation_get_impacted_accounts`), which are a set -/
structure Applied (Op : Type) where
  op : Op
  impacted : List Nat
  nodup : impacted.Nodup

/-- The objects of the plugin; the entries and the operations in the order of their ids -/
structure Database (Op : Type) where
  entries : List Entry
  nextEntry : Nat
  operations : List (Nat × Op)
  nextOperation : Nat
  statistics : Nat → Statistics

variable {Op : Type}

/-- The order of an index by the account and a number -/
def Entry.le (key : Entry → Nat) (e f : Entry) : Bool := e.account < f.account ∨ e.account = f.account ∧ key e ≤ key f

/-- Whether the entry comes before an account and a number -/
def Entry.before (key : Entry → Nat) (account num : Nat) (e : Entry) : Bool := e.account < account ∨ e.account = account ∧ key e < num

namespace Database
variable (d : Database Op)

def orderedBy (key : Entry → Nat) : List Entry := d.entries.mergeSort (Entry.le key)

def bySeq : List Entry := d.orderedBy (·.sequence)

def byOp : List Entry := d.orderedBy (·.operationId)

/-- `operation_id(db)`; none if it throws -/
def operation (id : Nat) : Option Op := (d.operations.find? fun x => x.1 = id).map (·.2)

/-- `create<operation_history_object>` -/
def createOperation (op : Op) : Database Op :=
  { d with operations := d.operations ++ [(d.nextOperation, op)], nextOperation := d.nextOperation + 1 }

/-- `skip_oho_id`, either way -/
def skipOperation : Database Op := { d with nextOperation := d.nextOperation + 1 }

/-- The first lines of `add_account_history` -/
def addEntry (account opId : Nat) : Database Op :=
  let stats := d.statistics account
  { d with
    entries := d.entries ++ [⟨d.nextEntry, account, opId, stats.totalOps + 1, stats.mostRecentOp⟩]
    nextEntry := d.nextEntry + 1
    statistics := Function.update d.statistics account { stats with mostRecentOp := d.nextEntry, totalOps := stats.totalOps + 1 } }

/-- The earliest entry is removed, and the one after it becomes the last one of the list. -/
def removeEntry (account : Nat) (itr : Entry) (rest : List Entry) : Database Op :=
  let stats := d.statistics account
  let kept := d.entries.filter (·.id ≠ itr.id)
  { d with
    entries := match rest with
      | e :: _ => if e.account = account then kept.map fun f => if f.id = e.id then { f with next := 0 } else f else kept
      | [] => kept
    statistics := Function.update d.statistics account { stats with removedOps := stats.removedOps + 1 } }

/-- The last lines: an operation without an entry is removed. -/
def removeOperation (id : Nat) : Database Op :=
  if d.entries.any (·.operationId = id) then d else { d with operations := d.operations.filter (·.1 ≠ id) }

def addAccountHistory (o : Options) (account opId : Nat) : Database Op :=
  let d' := d.addEntry account opId
  if o.maxOpsPerAccount < (d'.statistics account).totalOps - (d'.statistics account).removedOps then
    match d'.bySeq.dropWhile (Entry.before (·.sequence) account 0) with
    | [] => d'
    | itr :: rest =>
      if itr.account = account ∧ itr.id ≠ d.nextEntry then
        let d' := d'.removeEntry account itr rest
        if o.partialOperations then d'.removeOperation itr.operationId else d'
      else d'
  else d'

/-- The loop over the accounts; the operation is stored before the first one, unless it is there. -/
def addAll (o : Options) (op : Op) : Option Nat → List Nat → Database Op → Option Nat × Database Op
  | oho, [], d => (oho, d)
  | some id, account :: rest, d => addAll o op (some id) rest (d.addAccountHistory o account id)
  | none, account :: rest, d => addAll o op (some d.nextOperation) rest ((d.createOperation op).addAccountHistory o account d.nextOperation)

/-- The body of the loop of `update_account_histories` -/
def applyOperation (o : Options) (d : Database Op) : Option (Applied Op) → Database Op
  | none => d.skipOperation
  | some a =>
    if o.maxOpsPerAccount = 0 ∧ o.partialOperations then d.skipOperation
    else
      let (oho, d) := if o.partialOperations then (none, d) else (some d.nextOperation, d.createOperation a.op)
      let (oho, d) :=
        if o.trackedAccounts = [] then
          let (oho, d) := if a.impacted ≠ [] ∧ oho = none then (some d.nextOperation, d.createOperation a.op) else (oho, d)
          if 0 < o.maxOpsPerAccount then d.addAll o a.op oho a.impacted else (oho, d)
        else if 0 < o.maxOpsPerAccount then d.addAll o a.op oho (o.trackedAccounts.filter (· ∈ a.impacted)) else (oho, d)
      if o.partialOperations ∧ oho = none then d.skipOperation else d

/-- `update_account_histories` of the blocks, one after the other -/
def updateAccountHistories (o : Options) (d : Database Op) (hist : List (Option (Applied Op))) : Database Op := hist.foldl (applyOperation o) d

/-- The loop of `get_relative_account_history`, which goes back from an entry: as far as the one to stop at, and as far as the limit -/
def walkBack (stop : Option Entry) : Nat → List Entry → Option (List Entry)
  | _, [] => none
  | limit, e :: rest => if some e ≠ stop ∧ 1 < limit then (e :: ·) <$> walkBack stop (limit - 1) rest else some [e]

/-- `get_relative_account_history`; none if it throws -/
def getRelativeAccountHistory (account stop limit start : Nat) : Option (List Op) :=
  let stats := d.statistics account
  let start := if start = 0 then stats.totalOps else min stats.totalOps start
  if 100 < limit then none
  else if stop ≤ start ∧ stats.removedOps < start ∧ 0 < limit then do
    let upTo := d.bySeq.takeWhile (Entry.before (·.sequence) account (start + 1))
    let stop := (d.bySeq.dropWhile (Entry.before (·.sequence) account stop)).head?
    let entries ← walkBack stop limit upTo.reverse
    entries.mapM fun e => d.operation e.operationId
  else some []

/-- The loop of `get_account_history` with what comes after it: from an entry back, over those before it in the index -/
def walkBackOps (account stop start : Nat) : Nat → Entry → List Entry → List Entry
  | limit, itr, [] => if stop = 0 ∧ 0 < limit ∧ itr.account = account then [itr] else []
  | limit, itr, previous :: rest =>
    if itr.account = account ∧ stop < itr.operationId ∧ 0 < limit then
      if itr.operationId ≤ start then itr :: walkBackOps account stop start (limit - 1) previous rest
      else walkBackOps account stop start limit previous rest
    else if stop = 0 ∧ 0 < limit ∧ itr.account = account then [itr] else []

/-- `get_account_history`; none if it throws, or reads what is after the last entry -/
def getAccountHistory (account stop limit start : Nat) : Option (List Op) :=
  if 100 < limit then none
  else match d.entries.find? fun e => e.id = (d.statistics account).mostRecentOp with
    | none => some []
    | some node => do
      let start := if start = 0 ∨ node.operationId < start then node.operationId else start
      let itr ← (d.byOp.dropWhile (Entry.before (·.operationId) account start)).head?
      let before := d.byOp.takeWhile (Entry.before (·.operationId) account start)
      (walkBackOps account stop start limit itr before.reverse).mapM fun e => d.operation e.operationId

end Database

/-- Before the first block -/
def Database.empty : Database Op := ⟨[], 0, [], 0, fun _ => {}⟩

end Khc.History
