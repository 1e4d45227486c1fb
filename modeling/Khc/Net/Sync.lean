import Khc.Block.BlockDatabase
import Khc.Lib.Approach
import Mathlib.Data.Finset.Union

/-! How a node learns from a peer which blocks it lacks: the synopsis of its chain and the ids that a peer has after it
    (`application.cpp`), and the messages about them (`node.cpp`). Numbers of blocks are far below 2³², but for one difference. -/

namespace Khc.Net

open Lib
open Fork (Blocks ForkDatabase ForkError)
open Block (BlockDatabase StoreError Codec)

/-- What the functions of the application throw -/
inductive SyncError
  | store (e : StoreError)
  | fork (e : ForkError)
  /-- An `assert`, or a vector that is accessed out of its range -/
  | assertion
  /-- "Peer is are on a fork I'm unable to switch to" -/
  | blockOlderThanUndoHistory
  /-- "Unable to provide a list of blocks starting at any of the blocks in peer's synopsis" -/
  | peerIsOnAnUnreachableFork
  deriving DecidableEq, Repr

/-- The chain database, as far as it is asked about blocks -/
structure ChainDatabase (Block Id : Type) where
  forkDb : ForkDatabase Block
  /-- `_block_id_to_block` -/
  blockIdToBlock : BlockDatabase Id
  headBlockId : Id
  /-- `_undo_db.size()` -/
  undoSize : Nat

namespace ChainDatabase
variable {Block Id : Type} [DecidableEq Id] (B : Blocks Block Id) (d : ChainDatabase Block Id)

/-! ### Queries of the chain database -/

def headBlockNum : Nat := B.numFromId d.headBlockId

/-- A difference of unsigned numbers: the session of the pending transactions counts among the sizes, too. -/
def lastNonUndoableBlockNum : Nat := (d.headBlockNum B + (2 ^ 32 - d.undoSize % 2 ^ 32)) % 2 ^ 32

def isKnownBlock (id : Id) : Bool := (d.forkDb.find B id).isSome || d.blockIdToBlock.contains B id

def getBlockIdForNum (blockNum : Nat) : Except SyncError Id := (d.blockIdToBlock.fetchBlockId B blockNum).mapError .store

def fetchBlockById (C : Codec Block) (id : Id) : Option Block :=
  match d.forkDb.find B id with
  | some x => some x.block
  | none => d.blockIdToBlock.fetchOptional B C id

/-- `get_block_ids_on_fork`: from the head of the fork to the common ancestor -/
def getBlockIdsOnFork (headOfFork : Id) : Except SyncError (List Id) := do
  let (first, second) ← (d.forkDb.fetchBranchFrom B d.headBlockId headOfFork).mapError .fork
  match first.getLast? with
  | none => throw .assertion
  | some x => return second.map (fun y => B.id y.block) ++ [B.previous x.block]

/-! ### The application -/

/-- `is_included_block` -/
def isIncludedBlock (id : Id) : Except SyncError Bool := do
  let preferred ← d.getBlockIdForNum B (B.numFromId id)
  return id = preferred

/-- `get_block_time`; `time_point_sec::min()` of an unknown block -/
def getBlockTime (C : Codec Block) (timestamp : Block → Nat) (id : Id) : Nat := ((d.fetchBlockById B C id).map timestamp).getD 0

/-- The last block of a synopsis, here given backwards, that is on the chain -/
def lastKnownBlock : List Id → Except SyncError Id
  | [] => throw .peerIsOnAnUnreachableFork
  | id :: rest =>
    if id = B.zero then return id
    else if d.isKnownBlock B id then do
      if ← d.isIncludedBlock B id then return id else lastKnownBlock rest
    else lastKnownBlock rest

/-- `get_block_ids`, with the `remaining_item_count` -/
def getBlockIds (blockchainSynopsis : List Id) (limit : Nat) : Except SyncError (List Id × Nat) := do
  if d.headBlockNum B = 0 then return ([], 0)
  let last ← (if blockchainSynopsis = [] ∨ blockchainSynopsis = [B.zero] then return B.zero
    else d.lastKnownBlock B blockchainSynopsis.reverse)
  -- The loop starts with the number 0 where there is no known block, which it leaves out.
  let first := max (B.numFromId last) 1
  let result ← ((List.range' first (d.headBlockNum B + 1 - first)).take limit).mapM (d.getBlockIdForNum B)
  return (result, match result.getLast? with
    | none => 0
    | some id => d.headBlockNum B - B.numFromId id)

/-- The blocks of the main chain from the number on, and of the fork after it -/
def idAt (nonForkHigh : Nat) (forkHistory : List Id) (num : Nat) : Except SyncError Id :=
  if num ≤ nonForkHigh then d.getBlockIdForNum B num
  else match forkHistory[num - nonForkHigh - 1]? with
    | some id => .ok id
    | none => .error .assertion

/-- The last loop of `get_blockchain_synopsis` -/
def summarize (low nonForkHigh high after : Nat) (forkHistory : List Id) : Except SyncError (List Id) :=
  let low := if low = 0 then 1 else low
  (approachUpTo (high + after) high (high - low) low).mapM (d.idAt B nonForkHigh forkHistory)

/-- `get_blockchain_synopsis`, of the chain that ends with the reference point and of the place for the blocks after it -/
def getBlockchainSynopsis (referencePoint : Id) (after : Nat) : Except SyncError (List Id) := do
  let low := d.lastNonUndoableBlockNum B
  if referencePoint ≠ B.zero then
    if ← d.isIncludedBlock B referencePoint then
      let high := B.numFromId referencePoint
      ensure (0 < high) .assertion
      -- The database may have passed the reference point since the caller has read it.
      d.summarize B (min low high) high high after []
    else
      let forkHistory ← d.getBlockIdsOnFork B referencePoint
      ensure (2 ≤ forkHistory.length ∧ forkHistory.head? = some referencePoint) .assertion
      let lastNonForkBlock := forkHistory.getLast?.getD B.zero
      let forkHistory := forkHistory.dropLast.reverse
      let nonForkHigh := if lastNonForkBlock = B.zero then 0 else B.numFromId lastNonForkBlock
      ensure (low ≤ nonForkHigh) .blockOlderThanUndoHistory
      d.summarize B low nonForkHigh (nonForkHigh + forkHistory.length) after forkHistory
  else
    let high := d.headBlockNum B
    if high = 0 then return []
    d.summarize B low high high after []

end ChainDatabase

/-! ### The node and one of its peers -/

/-- Of `peer_connection` -/
structure Peer (Id : Type) where
  lastBlockDelegateHasSeen : Id
  lastBlockTimeDelegateHasSeen : Nat
  idsOfItemsToGet : List Id
  numberOfUnfetchedItemIds : Nat
  itemIdsRequestedFromPeer : Option (List Id)
  weNeedSyncItemsFromPeer : Bool
  deriving DecidableEq, Repr

/-- `blockchain_item_ids_inventory_message` -/
structure Inventory (Id : Type) where
  totalRemainingItemCount : Nat
  itemHashesAvailable : List Id
  deriving DecidableEq, Repr

/-- Why a peer is disconnected from -/
inductive Disconnect
  /-- "The list of blocks you provided is not sequential" -/
  | notSequential
  /-- "I asked for blocks starting from the beginning of the chain, but you returned a list of blocks starting with ..." -/
  | notFromTheBeginning
  /-- "... which wasn't one of your choices" -/
  | notFromTheSynopsis
  /-- "You offered me a list of more sync blocks than could possibly exist" -/
  | implausibleNumber
  deriving DecidableEq, Repr

/-- What the node does after an inventory -/
inductive Next
  /-- "peer said we're up-to-date, entering normal operation with this peer" -/
  | upToDate
  | fetchSyncItems
  | fetchNextBatchOfItemIds
  deriving DecidableEq, Repr

/-- The default of the parameter of `get_block_ids` -/
def blockIdsLimit : Nat := 2000

/-- `GRAPHENE_NET_MIN_BLOCK_IDS_TO_PREFETCH` -/
def minBlockIdsToPrefetch : Nat := 10000

/-- `GRAPHENE_MIN_BLOCK_INTERVAL` -/
def minBlockInterval : Nat := 1

/-- `GRAPHENE_NET_FUTURE_SYNC_BLOCKS_GRACE_PERIOD_SEC` -/
def futureSyncBlocksGracePeriodSec : Nat := 60 * 60

/-- `original_ids_of_items_to_get[num - first_block_num_in_ids_to_get]` -/
def itemAt {Id : Type} (ids : List Id) (first num : Nat) : Except SyncError Id :=
  match ids[num - first]? with
  | some id => .ok id
  | none => .error .assertion

/-- `start_synchronizing_with_peer`, and `reset_fork_tracking_data_for_peer` -/
def Peer.start {Block Id : Type} (B : Blocks Block Id) : Peer Id := ⟨B.zero, 0, [], 0, none, true⟩

namespace ChainDatabase
variable {Block Id : Type} [DecidableEq Id] (B : Blocks Block Id) (d : ChainDatabase Block Id)

/-- `create_blockchain_synopsis_for_peer` -/
def createBlockchainSynopsisForPeer (p : Peer Id) : Except SyncError (List Id) := do
  let synopsis ← d.getBlockchainSynopsis B p.lastBlockDelegateHasSeen p.idsOfItemsToGet.length
  match p.idsOfItemsToGet with
  | [] => return synopsis
  | id :: rest =>
    let first := B.numFromId id
    let trueHigh := first + rest.length
    let low := (synopsis.head?.map B.numFromId).getD 1
    let more ← ((approachUpTo trueHigh trueHigh (trueHigh - low) low).filter (first ≤ ·)).mapM (itemAt (id :: rest) first)
    ensure ((synopsis ++ more).getLast? = (id :: rest).getLast?) .assertion
    return synopsis ++ more

/-- `on_fetch_blockchain_item_ids_message`: the reply -/
def onFetchBlockchainItemIds (limit : Nat) (blockchainSynopsis : List Id) : Except SyncError (Inventory Id) :=
  match d.getBlockIds B blockchainSynopsis limit with
  | .ok (ids, remaining) => .ok ⟨remaining, ids⟩
  -- "we reply with an empty list as if we had an empty blockchain"
  | .error .peerIsOnAnUnreachableFork => .ok ⟨0, []⟩
  | .error e => .error e

/-- Whether the numbers of the blocks follow each other -/
def Sequential (ids : List Id) : Prop := ids.map B.numFromId = List.range' (B.numFromId (ids.headD B.zero)) ids.length

instance (ids : List Id) : Decidable (Sequential B ids) := inferInstanceAs (Decidable (_ = _))

/-- The checks of an inventory against the request -/
def checkInventory (synopsis ids : List Id) : Except Disconnect Unit :=
  match ids with
  | [] => .ok ()
  | first :: _ => do
    ensure (Sequential B ids) .notSequential
    if synopsis = [] then ensure (B.numFromId first = 1) .notFromTheBeginning
    else ensure (first ∈ synopsis) .notFromTheSynopsis

/-- The ids that are left when those are flushed that the node has the blocks of, and the last of those -/
def flushSeen : List Id → Id → List Id × Id
  | [], seen => ([], seen)
  | id :: rest, seen => if d.isKnownBlock B id then flushSeen rest id else (id :: rest, seen)

/-- The ids of the inventory are put to those that the peer has listed before: "pop items off the back of our existing list until we
    find our first item, then append our list". No other peer lists the first one as its first. -/
def appendItems (C : Codec Block) (timestamp : Block → Nat) (p : Peer Id) (ids : List Id) : Peer Id :=
  match ids with
  | [] => p
  | first :: rest =>
    if p.idsOfItemsToGet = [] then
      let (ids, seen) := d.flushSeen B (first :: rest) p.lastBlockDelegateHasSeen
      if ids = first :: rest then { p with idsOfItemsToGet := ids }
      else
        { p with
          idsOfItemsToGet := ids
          lastBlockDelegateHasSeen := seen
          lastBlockTimeDelegateHasSeen := d.getBlockTime B C timestamp seen }
    else
      let kept := (p.idsOfItemsToGet.reverse.dropWhile (· ≠ first)).reverse
      if kept = [] then
        { p with
          idsOfItemsToGet := rest
          lastBlockDelegateHasSeen := first
          lastBlockTimeDelegateHasSeen := d.getBlockTime B C timestamp first }
      else { p with idsOfItemsToGet := kept.dropLast ++ first :: rest }

/-- `on_blockchain_item_ids_inventory_message`. It is ignored where nothing was requested. -/
def onBlockchainItemIdsInventory (C : Codec Block) (timestamp : Block → Nat) (now : Nat) (p : Peer Id) (m : Inventory Id) :
    Except Disconnect (Peer Id × Option Next) :=
  match p.itemIdsRequestedFromPeer with
  | none => .ok (p, none)
  | some synopsis => do
    checkInventory B synopsis m.itemHashesAvailable
    let p := { p with itemIdsRequestedFromPeer := none }
    if m.totalRemainingItemCount = 0 ∧ (m.itemHashesAvailable = [] ∨ ∃ id ∈ m.itemHashesAvailable.head?,
        m.itemHashesAvailable.length = 1 ∧ d.isKnownBlock B id) ∧ p.idsOfItemsToGet = [] ∧ p.numberOfUnfetchedItemIds = 0 then
      return ({ p with weNeedSyncItemsFromPeer := false }, some .upToDate)
    else
      let p : Peer Id := { d.appendItems B C timestamp p m.itemHashesAvailable with numberOfUnfetchedItemIds := m.totalRemainingItemCount }
      ensure (p.lastBlockTimeDelegateHasSeen + p.numberOfUnfetchedItemIds * minBlockInterval ≤ now + futureSyncBlocksGracePeriodSec)
        .implausibleNumber
      let next := if m.totalRemainingItemCount ≠ 0 then
          if minBlockIdsToPrefetch < p.idsOfItemsToGet.length then Next.fetchSyncItems else .fetchNextBatchOfItemIds
        else if p.idsOfItemsToGet.isEmpty then .fetchNextBatchOfItemIds else .fetchSyncItems
      return (p, some next)

end ChainDatabase

end Khc.Net

/-! From which peers a node fetches the blocks that it lacks (`fetch_sync_items_loop` of `node.cpp`). -/

namespace Khc.Net

variable {Id : Type} [DecidableEq Id]

/-- The rest of `peer_connection`, as far as the blocks are concerned that are fetched -/
structure FetchPeer (Id : Type) extends Peer Id where
  syncItemsRequestedFromPeer : Finset Id
  /-- Whether `items_requested_from_peer` is not empty -/
  itemsRequestedFromPeer : Bool
  inhibitFetchingSyncBlocks : Bool
  peerNeedsSyncItemsFromUs : Bool
  /-- Whether it is among the `_active_connections`. Others are about to be closed. -/
  active : Bool
  deriving DecidableEq

structure FetchNode (Id : Type) where
  connections : List (FetchPeer Id)
  activeSyncRequests : Finset Id
  receivedSyncItems : List Id
  newReceivedSyncItems : List Id
  suspendFetchingSyncBlocks : Bool
  deriving DecidableEq

def FetchPeer.idle (p : FetchPeer Id) : Bool :=
  !p.itemsRequestedFromPeer && p.syncItemsRequestedFromPeer = ∅ && p.itemIdsRequestedFromPeer.isNone

/-- The inner loop of `fetch_sync_items_loop`: the first items of a peer that are neither there already nor requested nor about to be -/
def choose (taken : Id → Bool) (most : Nat) : List Id → List Id → List Id
  | chosen, [] => chosen
  | chosen, id :: rest =>
    if taken id ∨ id ∈ chosen then choose taken most chosen rest
    else if most ≤ (chosen ++ [id]).length then chosen ++ [id]
    else choose taken most (chosen ++ [id]) rest

/-- The loop over the peers, with the `sync_items_to_request` -/
def schedule (taken : Id → Bool) (most : Nat) : Finset Id → List (FetchPeer Id) → List (FetchPeer Id) × Finset Id
  | toRequest, [] => ([], toRequest)
  | toRequest, p :: rest =>
    if p.active ∧ p.weNeedSyncItemsFromPeer ∧ p.idle ∧ ¬p.inhibitFetchingSyncBlocks then
      let items := (choose (fun id => taken id ∨ id ∈ toRequest) most [] p.idsOfItemsToGet).toFinset
      let (peers, all) := schedule taken most (toRequest ∪ items) rest
      ({ p with syncItemsRequestedFromPeer := p.syncItemsRequestedFromPeer ∪ items } :: peers, all)
    else
      let (peers, all) := schedule taken most toRequest rest
      (p :: peers, all)

namespace FetchNode
variable (s : FetchNode Id)

/-- `have_already_received_sync_item` -/
def haveAlreadyReceived (id : Id) : Bool := id ∈ s.receivedSyncItems ∨ id ∈ s.newReceivedSyncItems

/-- One iteration of `fetch_sync_items_loop`, with `request_sync_items_from_peer` -/
def fetchSyncItems (most : Nat) : FetchNode Id :=
  if s.suspendFetchingSyncBlocks then s
  else
    let (peers, all) := schedule (fun id => s.haveAlreadyReceived id ∨ id ∈ s.activeSyncRequests) most ∅ s.connections
    { s with connections := peers, activeSyncRequests := s.activeSyncRequests ∪ all }

end FetchNode

/-- `on_item_not_available_message`, of an item that was requested; the request stays among the `_active_sync_requests`. -/
def FetchPeer.notAvailable (p : FetchPeer Id) (id : Id) : FetchPeer Id :=
  { p with
    syncItemsRequestedFromPeer := p.syncItemsRequestedFromPeer.erase id
    inhibitFetchingSyncBlocks := p.inhibitFetchingSyncBlocks || p.peerNeedsSyncItemsFromUs
    active := p.active && p.peerNeedsSyncItemsFromUs }

/-- The nodes that are reached from one without connections, each with the items that some peer has said not to have after it had been
    asked for them. Whatever else a node does changes nothing but the lists of its peers and what it has received. -/
inductive FetchNode.Run (most : Nat) : Finset Id → FetchNode Id → Prop
  | start : Run most ∅ ⟨[], ∅, [], [], false⟩
  | loop {missing : Finset Id} {s : FetchNode Id} (h : Run most missing s) : Run most missing (s.fetchSyncItems most)
  | connect {missing : Finset Id} {s : FetchNode Id} (h : Run most missing s) (p : FetchPeer Id) (a b : List (FetchPeer Id))
      (hs : s.connections = a ++ b) (hp : p.syncItemsRequestedFromPeer = ∅) : Run most missing { s with connections := a ++ p :: b }
  /-- The lists of a peer and the other requests to it change, or it becomes active or is about to be closed. -/
  | update {missing : Finset Id} {s : FetchNode Id} (h : Run most missing s) (p p' : FetchPeer Id) (a b : List (FetchPeer Id))
      (hs : s.connections = a ++ p :: b) (hp : p'.syncItemsRequestedFromPeer = p.syncItemsRequestedFromPeer) :
      Run most missing { s with connections := a ++ p' :: b }
  /-- `process_block_message` and `process_block_during_sync` -/
  | receive {missing : Finset Id} {s : FetchNode Id} (h : Run most missing s) (p : FetchPeer Id) (id : Id) (a b : List (FetchPeer Id))
      (hs : s.connections = a ++ p :: b) (hid : id ∈ p.syncItemsRequestedFromPeer) :
      Run most missing { s with
        connections := a ++ { p with syncItemsRequestedFromPeer := p.syncItemsRequestedFromPeer.erase id } :: b
        activeSyncRequests := s.activeSyncRequests.erase id
        newReceivedSyncItems := id :: s.newReceivedSyncItems }
  | notAvailable {missing : Finset Id} {s : FetchNode Id} (h : Run most missing s) (p : FetchPeer Id) (id : Id) (a b : List (FetchPeer Id))
      (hs : s.connections = a ++ p :: b) (hid : id ∈ p.syncItemsRequestedFromPeer) :
      Run most (insert id missing) { s with connections := a ++ p.notAvailable id :: b }
  /-- `on_connection_closed` -/
  | close {missing : Finset Id} {s : FetchNode Id} (h : Run most missing s) (p : FetchPeer Id) (a b : List (FetchPeer Id))
      (hs : s.connections = a ++ p :: b) :
      Run most missing { s with connections := a ++ b, activeSyncRequests := s.activeSyncRequests \ p.syncItemsRequestedFromPeer }
  /-- The first lines of the loop of `process_backlog_of_sync_blocks` -/
  | collect {missing : Finset Id} {s : FetchNode Id} (h : Run most missing s) :
      Run most missing { s with receivedSyncItems := s.newReceivedSyncItems.reverse ++ s.receivedSyncItems, newReceivedSyncItems := [] }
  /-- A block is handed to the chain database; the lists that it is removed from are another step. -/
  | handOver {missing : Finset Id} {s : FetchNode Id} (h : Run most missing s) (id : Id) (a b : List Id)
      (hs : s.receivedSyncItems = a ++ id :: b) : Run most missing { s with receivedSyncItems := a ++ b }
  | suspend {missing : Finset Id} {s : FetchNode Id} (h : Run most missing s) (suspended : Bool) :
      Run most missing { s with suspendFetchingSyncBlocks := suspended }

end Khc.Net
