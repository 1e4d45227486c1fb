import Khc.Lib.Flat
import Khc.Lib.OrderStatistic
import Khc.Lib.Run

/-! How blocks become irreversible (`update_global_dynamic_data`, `update_signing_witness` and
    `update_last_irreversible_block` of `db_update.cpp`, in the order of `_apply_block`). -/

namespace Khc.Witness

open Lib

/-- Instances of the object ids `1.6.x` -/
abbrev WitnessId := Nat

/-- `GRAPHENE_100_PERCENT` -/
def graphene100Percent : Nat := 10000

/-- `GRAPHENE_IRREVERSIBLE_THRESHOLD` -/
def grapheneIrreversibleThreshold : Nat := 7000

/-- `GRAPHENE_MAX_UNDO_HISTORY` -/
def grapheneMaxUndoHistory : Nat := 10000

/-- `witness_object` -/
structure WitnessObject where
  lastAslot : Nat
  lastConfirmedBlockNum : Nat
  deriving DecidableEq, Repr

/-- `witness_object()` -/
def WitnessObject.default : WitnessObject := ⟨0, 0⟩

/-- What of the chain decides which blocks are irreversible. Objects are never removed: a witness stands at its instance. -/
structure Chain where
  headBlockNumber : Nat
  lastIrreversibleBlockNum : Nat
  witnesses : List WitnessObject
  activeWitnesses : FlatSet WitnessId
  deriving DecidableEq

/-- A block: its signing witness, the slot it was made in, how many witnesses its transactions create, and the witnesses that
    a maintenance elects -/
structure Block where
  witness : WitnessId
  aslot : Nat
  created : Nat
  elected : Option (List WitnessId)

namespace Chain
variable (c : Chain)

/-- `witness_create_evaluator::do_apply`, some times -/
def createWitnesses (n : Nat) : Chain := { c with witnesses := c.witnesses ++ List.replicate n .default }

def updateGlobalDynamicData : Option Chain :=
  let c := { c with headBlockNumber := c.headBlockNumber + 1 }
  if c.headBlockNumber - c.lastIrreversibleBlockNum < grapheneMaxUndoHistory then some c else none

def updateSigningWitness (signingWitness : WitnessId) (aslot : Nat) : Chain :=
  { c with witnesses := c.witnesses.modify signingWitness fun _ => ⟨aslot, c.headBlockNumber⟩ }

/-- What the active witnesses have confirmed -/
def confirmed : Option (List Nat) :=
  c.activeWitnesses.elems.mapM fun w => (c.witnesses[w]?).map (·.lastConfirmedBlockNum)

/-- "`offset`" -/
def irreversibleOffset (size : Nat) : Nat :=
  (graphene100Percent - grapheneIrreversibleThreshold) * size / graphene100Percent

def updateLastIrreversibleBlock : Option Chain := do
  let witObjs ← c.confirmed
  let newLastIrreversibleBlockNum ← nthElement witObjs (irreversibleOffset witObjs.length)
  if newLastIrreversibleBlockNum > c.lastIrreversibleBlockNum then
    return { c with lastIrreversibleBlockNum := newLastIrreversibleBlockNum }
  else return c

/-- `update_active_witnesses`, of which the witnesses that it elects matter here -/
def updateActiveWitnesses (elected : List WitnessId) : Option Chain :=
  if ∀ w ∈ elected, w < c.witnesses.length then some { c with activeWitnesses := .ofList elected } else none

/-- `_apply_block`; none if it throws, or has no active witness to take the number from -/
def applyBlock (b : Block) : Option Chain := do
  let _ ← c.witnesses[b.witness]?
  let c ← (c.createWitnesses b.created).updateGlobalDynamicData
  let c ← (c.updateSigningWitness b.witness b.aslot).updateLastIrreversibleBlock
  match b.elected with
  | none => return c
  | some elected => c.updateActiveWitnesses elected

end Chain

end Khc.Witness

/-! Slots and who makes their blocks (`db_witness_schedule.cpp`, `update_global_dynamic_data` and `update_maintenance_flag` of
    `db_update.cpp`, `validate_block_header` of `db_block.cpp`, in the order of `_apply_block`). Times are seconds. -/

namespace Khc.Witness

open Lib

/-- What the slots depend on of the `chain_parameters`, whose `validate` wants the interval to be positive -/
structure SlotParameters where
  blockInterval : Nat
  maintenanceSkipSlots : Nat
  interval_pos : 0 < blockInterval
  deriving DecidableEq

/-- `witness_schedule_object`: each witness is scheduled once. -/
structure WitnessSchedule where
  currentShuffledWitnesses : List WitnessId
  nodup : currentShuffledWitnesses.Nodup
  nonempty : currentShuffledWitnesses ≠ []
  deriving DecidableEq

/-- `GRAPHENE_RECENTLY_MISSED_COUNT_INCREMENT` -/
def recentlyMissedCountIncrement : Nat := 4

/-- `GRAPHENE_RECENTLY_MISSED_COUNT_DECREMENT` -/
def recentlyMissedCountDecrement : Nat := 3

/-- The dynamic and the global properties, the schedule, and how many blocks each witness has missed -/
structure SlotState where
  headBlockNumber : Nat
  headBlockId : Nat
  time : Nat
  nextMaintenanceTime : Nat
  recentlyMissedCount : Nat
  currentAslot : Nat
  recentSlotsFilled : BitVec 128
  /-- The bit `maintenance_flag` of the `dynamic_flags` -/
  maintenanceFlag : Bool
  parameters : SlotParameters
  activeWitnesses : FlatSet WitnessId
  schedule : WitnessSchedule
  totalMissed : List Nat
  /-- The number of the last checkpoint -/
  checkpoint : Option Nat
  deriving DecidableEq

/-- What a maintenance leaves -/
structure Maintenance where
  parameters : SlotParameters
  activeWitnesses : FlatSet WitnessId
  nextMaintenanceTime : Nat

/-- A block, as far as its header is checked; what the maintenance makes that it may trigger. Numbers start with 1. -/
structure SignedBlock where
  id : Nat
  previous : Nat
  blockNum : Nat
  timestamp : Nat
  witness : WitnessId
  /-- `validate_signee`, with the signing key of the witness -/
  validSignee : Bool
  maintenance : Maintenance
  blockNum_pos : 0 < blockNum
  timestamp_lt : timestamp < 2 ^ 32

namespace SlotState
variable (d : SlotState)

/-- `get_scheduled_witness` -/
def getScheduledWitness (slotNum : Nat) : Option WitnessId :=
  let currentAslot := (d.currentAslot + slotNum) % 2 ^ 64
  d.schedule.currentShuffledWitnesses[currentAslot % d.schedule.currentShuffledWitnesses.length]?

/-- `get_slot_time` -/
def getSlotTime (slotNum : Nat) : Nat :=
  if slotNum = 0 then 0
  else if d.headBlockNumber = 0 then (d.time + slotNum * d.parameters.blockInterval % 2 ^ 32) % 2 ^ 32
  else
    let headBlockAbsSlot := d.time / d.parameters.blockInterval
    let headSlotTime := headBlockAbsSlot * d.parameters.blockInterval
    let slotNum := if d.maintenanceFlag then (slotNum + d.parameters.maintenanceSkipSlots) % 2 ^ 32 else slotNum
    (headSlotTime + slotNum * d.parameters.blockInterval % 2 ^ 32) % 2 ^ 32

/-- `get_slot_at_time` -/
def getSlotAtTime (t : Nat) : Nat :=
  let firstSlotTime := d.getSlotTime 1
  if t < firstSlotTime then 0 else ((t - firstSlotTime) / d.parameters.blockInterval + 1) % 2 ^ 32

/-! ### The schedule -/

/-- The factor of the xorshift generator -/
def xorshiftFactor : UInt64 := 2685821657736338717

def xorshift (k : UInt64) : UInt64 :=
  let k := k ^^^ (k >>> 12)
  let k := k ^^^ (k <<< 25)
  let k := k ^^^ (k >>> 27)
  k * xorshiftFactor

/-- One step of the shuffle: a witness is swapped with itself or a later one. -/
def shuffleStep (nowHi : UInt64) (ws : Array WitnessId) (i : Nat) : Array WitnessId :=
  let k := xorshift (nowHi + UInt64.ofNat i * xorshiftFactor)
  let jmax := ws.size - i
  ws.swapIfInBounds i (i + k.toNat % jmax)

def shuffle (nowHi : UInt64) (ws : List WitnessId) : List WitnessId :=
  ((List.range ws.length).foldl (shuffleStep nowHi) ws.toArray).toList

theorem shuffleStep_perm (nowHi : UInt64) (ws : Array WitnessId) (i : Nat) : (shuffleStep nowHi ws i).Perm ws := by
  unfold shuffleStep
  rw [Array.swapIfInBounds_def]
  split
  · split
    · exact Array.swap_perm _ _
    · exact .refl _
  · exact .refl _

theorem shuffle_perm (nowHi : UInt64) (ws : List WitnessId) : (shuffle nowHi ws).Perm ws := by
  have hfold : ∀ (is : List Nat) (xs : Array WitnessId), (is.foldl (shuffleStep nowHi) xs).Perm xs := by
    intro is
    induction is with
    | nil => exact fun _ => .refl _
    | cons i is ih => exact fun xs => (ih _).trans (shuffleStep_perm nowHi xs i)
  exact Array.perm_iff_toList_perm.mp (hfold _ ws.toArray)

/-- `update_witness_schedule`; none without active witnesses -/
def updateWitnessSchedule : Option SlotState :=
  if hactive : d.activeWitnesses.elems = [] then none
  else if d.headBlockNumber % d.activeWitnesses.elems.length = 0 then
    let nowHi := UInt64.ofNat d.time <<< 32
    some { d with schedule := {
      currentShuffledWitnesses := shuffle nowHi d.activeWitnesses.elems
      nodup := (shuffle_perm _ _).nodup_iff.mpr (d.activeWitnesses.sorted.imp fun hlt => hlt.ne)
      nonempty := fun hnil => hactive ((hnil ▸ shuffle_perm nowHi _ : List.Perm [] _).symm.eq_nil) } }
  else some d

/-! ### Blocks -/

/-- `validate_block_header`: the signing witness. The flags skip the checks of its signature and of its schedule. -/
def validateBlockHeader (skipWitnessSignature skipWitnessSchedule : Bool) (b : SignedBlock) : Option WitnessId :=
  if d.headBlockId = b.previous ∧ d.time < b.timestamp ∧ b.witness < d.totalMissed.length ∧
      (skipWitnessSignature ∨ b.validSignee) ∧
      (skipWitnessSchedule ∨ (0 < d.getSlotAtTime b.timestamp ∧
        d.getScheduledWitness (d.getSlotAtTime b.timestamp) = some b.witness)) then
    some b.witness
  else none

/-- The blocks that were missed count for their witnesses, but not for the one that makes this block. -/
def missBlocks (b : SignedBlock) (missedBlocks : Nat) : List Nat :=
  (List.range missedBlocks).foldl (fun totalMissed i =>
    match d.getScheduledWitness (i + 1) with
    | some w => if w ≠ b.witness then totalMissed.modify w (· + 1) else totalMissed
    | none => totalMissed) d.totalMissed

def nextMissedCount (b : SignedBlock) (missedBlocks : Nat) : Nat :=
  if b.blockNum = 1 then 0
  else if (d.checkpoint.any fun n => b.blockNum ≤ n) then 0
  else if missedBlocks ≠ 0 then (d.recentlyMissedCount + recentlyMissedCountIncrement * missedBlocks) % 2 ^ 32
  else if recentlyMissedCountIncrement < d.recentlyMissedCount then d.recentlyMissedCount - recentlyMissedCountDecrement
  else d.recentlyMissedCount - 1

/-- `update_global_dynamic_data`, without its assertion about the undo history (`Chain.updateGlobalDynamicData`) -/
def updateGlobalDynamicData (b : SignedBlock) : SlotState :=
  let missedBlocks := (d.getSlotAtTime b.timestamp + (2 ^ 32 - 1)) % 2 ^ 32
  { d with
    totalMissed := d.missBlocks b missedBlocks
    recentlyMissedCount := d.nextMissedCount b missedBlocks
    headBlockNumber := b.blockNum
    headBlockId := b.id
    time := b.timestamp
    recentSlotsFilled := ((d.recentSlotsFilled <<< 1) + 1) <<< missedBlocks
    currentAslot := (d.currentAslot + (missedBlocks + 1) % 2 ^ 32) % 2 ^ 64 }

/-- `maint_needed` -/
def MaintNeeded (b : SignedBlock) : Prop := d.nextMaintenanceTime ≤ b.timestamp

instance (b : SignedBlock) : Decidable (d.MaintNeeded b) := inferInstanceAs (Decidable (_ ≤ _))

/-- `perform_chain_maintenance`, as far as slots depend on it -/
def performChainMaintenance (m : Maintenance) : SlotState :=
  { d with
    parameters := m.parameters
    activeWitnesses := m.activeWitnesses
    nextMaintenanceTime := m.nextMaintenanceTime }

/-- `_apply_block` with all checks; none if it throws -/
def applyBlock (b : SignedBlock) : Option SlotState := do
  let _ ← d.validateBlockHeader false false b
  let maintNeeded := decide (d.MaintNeeded b)
  let d := d.updateGlobalDynamicData b
  let d := if maintNeeded then d.performChainMaintenance b.maintenance else d
  ({ d with maintenanceFlag := maintNeeded }).updateWitnessSchedule

end SlotState

end Khc.Witness
