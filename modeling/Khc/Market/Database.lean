import Khc.Market.MaxDebt
import Khc.Lib.Rows
import Khc.Lib.Except

/-! The part of the chain state that the market uses, the views of its indexes, and the updates of its tables
    (`database.hpp`, `db_balance.cpp`, `account_object.cpp`). -/

namespace Khc.Market

open Lib
open Chain (Asset Price AccountId AssetId AccountObject)

structure Parameters where
  /-- `current_fee_schedule().calculate_fee( op ).amount` -/
  currentFees : Operation → Int
  currentFees_nonneg : ∀ op, 0 ≤ currentFees op
  cashbackVestingThreshold : Int

/-- Accounts, their statistics, assets and the data of assets are found at the place that the id names. -/
structure Database where
  headBlockTime : Nat
  parameters : Parameters
  accounts : List AccountObject
  assets : List AssetObject
  statistics : List AccountStatistics
  balances : List AccountBalance
  dynamicData : List AssetDynamicData
  bitassets : List (Option BitassetData)
  limitOrders : List LimitOrder
  callOrders : List CallOrder
  settlements : List ForceSettlement
  bids : List CollateralBid
  nextLimitOrder : Nat
  nextCallOrder : Nat
  nextSettlement : Nat
  nextBid : Nat
  applied : List VirtualOperation

namespace Database
variable (d : Database)

/-! ### Lookups -/

def lookup {α : Type} (l : List α) (id : Nat) : Eval α :=
  match l[id]? with
  | some x => .ok x
  | none => .error .objectNotFound

def getAccount (id : AccountId) : Eval AccountObject := lookup d.accounts id
def getAsset (id : AssetId) : Eval AssetObject := lookup d.assets id
def getStatistics (id : AccountId) : Eval AccountStatistics := lookup d.statistics id
def getDynamicData (id : AssetId) : Eval AssetDynamicData := lookup d.dynamicData id

/-- The data of an asset that is market issued -/
def bitasset (id : AssetId) : Option BitassetData := d.bitassets[id]?.join

/-- `asset_object::bitasset_data` -/
def getBitasset (id : AssetId) : Eval BitassetData :=
  match d.bitasset id with
  | some b => .ok b
  | none => .error .notMarketIssued

def findLimitOrder (id : Nat) : Option LimitOrder := d.limitOrders.find? (·.id = id)
def findCallOrder (id : Nat) : Option CallOrder := d.callOrders.find? (·.id = id)
def findSettlement (id : Nat) : Option ForceSettlement := d.settlements.find? (·.id = id)

def getLimitOrder (id : Nat) : Eval LimitOrder :=
  match d.findLimitOrder id with
  | some o => .ok o
  | none => .error .objectNotFound

/-- `get_balance` -/
def getBalance (owner : AccountId) (asset : AssetId) : Int :=
  ((d.balances.find? (AccountBalance.isOf owner asset)).map AccountBalance.balance).getD 0

/-! ### Indexes -/

/-- `by_price` of the limit orders -/
def limitsByPrice : List LimitOrder := d.limitOrders.insertionSort fun a b => ¬b.precedes a

/-- The orders from `lower_bound( max )` to `upper_bound( min )` -/
def limitsBetween (max min : Price) : List LimitOrder :=
  d.limitsByPrice.filter fun o => ¬o.sellPrice.gt max ∧ ¬min.gt o.sellPrice

/-- `by_price` of the call orders, from `lower_bound( min )` on -/
def callsFrom (min : Price) : List CallOrder :=
  (d.callOrders.insertionSort fun a b => ¬b.precedes a).filter fun c => ¬c.callPrice.lt min

/-- `by_collateral`, from `lower_bound( min )` on -/
def callsCollateralizedFrom (min : Price) : List CallOrder :=
  (d.callOrders.insertionSort fun a b => ¬b.lessCollateralized a).filter fun c => ¬c.collateralization.lt min

/-- `by_expiration` of the force settlements -/
def settlementsByExpiration : List ForceSettlement := d.settlements.insertionSort fun a b => ¬b.expiresBefore a

/-- `by_price` of the collateral bids on an asset -/
def bidsOn (asset : AssetId) : List CollateralBid :=
  (d.bids.insertionSort fun a b => ¬b.precedes a).filter (·.debtType = asset)

/-! ### Balances -/

/-- `database::adjust_balance` -/
def adjustBalance (account : AccountId) (delta : Asset) : Eval Database :=
  if delta.amount = 0 then .ok d
  else
    match d.balances.find? (AccountBalance.isOf account delta.assetId) with
    | none => do
      fcAssert (delta.amount > 0) .insufficientBalance
      return { d with balances := d.balances ++ [⟨account, delta.assetId, delta.amount⟩] }
    | some b => do
      fcAssert (delta.amount < 0 → b.balance ≥ -delta.amount) .insufficientBalance
      let balance ← safe (b.balance + delta.amount)
      let balances := updateFirst (AccountBalance.isOf account delta.assetId) (fun b => { b with balance }) d.balances
      return { d with balances }

/-! ### Statistics and dynamic data -/

def modifyStatistics (account : AccountId) (f : AccountStatistics → Eval AccountStatistics) : Eval Database := do
  let s ← f (← d.getStatistics account)
  return { d with statistics := d.statistics.set account s }

/-- `account_statistics_object::pay_fee` -/
def payFee (account : AccountId) (coreFee : Int) : Eval Database :=
  d.modifyStatistics account fun s => do
    if coreFee > d.parameters.cashbackVestingThreshold then
      return { s with pendingFees := ← safe (s.pendingFees + coreFee) }
    else return { s with pendingVestedFees := ← safe (s.pendingVestedFees + coreFee) }

/-- `total_core_in_orders += delta`, where the amount is one of the core asset -/
def adjustCoreInOrders (account : AccountId) (delta : Asset) : Eval Database :=
  if delta.assetId = 0 then
    d.modifyStatistics account fun s => do
      return { s with totalCoreInOrders := ← safe (s.totalCoreInOrders + delta.amount) }
  else .ok d

def modifyDynamicData (asset : AssetId) (f : AssetDynamicData → Eval AssetDynamicData) : Eval Database := do
  let x ← f (← d.getDynamicData asset)
  return { d with dynamicData := d.dynamicData.set asset x }

/-- `accumulated_fees += fee` -/
def accumulateFees (fee : Asset) : Eval Database :=
  d.modifyDynamicData fee.assetId fun x => do
    return { x with accumulatedFees := ← safe (x.accumulatedFees + fee.amount) }

/-- `fee_pool += amount` -/
def fundFeePool (asset : AssetId) (amount : Int) : Eval Database :=
  d.modifyDynamicData asset fun x => do return { x with feePool := ← safe (x.feePool + amount) }

/-- `current_supply += delta` -/
def changeSupply (delta : Asset) : Eval Database :=
  d.modifyDynamicData delta.assetId fun x => do
    return { x with currentSupply := ← safe (x.currentSupply + delta.amount) }

/-! ### Bitassets and orders -/

def modifyBitasset (asset : AssetId) (f : BitassetData → BitassetData) : Database :=
  { d with bitassets := d.bitassets.modify asset (Option.map f) }

def removeLimitOrder (id : Nat) : Database := { d with limitOrders := d.limitOrders.eraseP (·.id = id) }

def setLimitOrder (o : LimitOrder) : Database :=
  { d with limitOrders := updateFirst (·.id = o.id) (fun _ => o) d.limitOrders }

def removeCallOrder (id : Nat) : Database := { d with callOrders := d.callOrders.eraseP (·.id = id) }

def setCallOrder (c : CallOrder) : Database :=
  { d with callOrders := updateFirst (·.id = c.id) (fun _ => c) d.callOrders }

/-- `create< call_order_object >`; there is one order for an account and a debt asset. -/
def createCallOrder (c : CallOrder) : Eval Database := do
  fcAssert (∀ c' ∈ d.callOrders, ¬(c'.borrower = c.borrower ∧ c'.debtType = c.debtType)) .notUnique
  return { d with callOrders := d.callOrders ++ [{ c with id := d.nextCallOrder }], nextCallOrder := d.nextCallOrder + 1 }

def removeSettlement (id : Nat) : Database := { d with settlements := d.settlements.eraseP (·.id = id) }

def setSettlement (s : ForceSettlement) : Database :=
  { d with settlements := updateFirst (·.id = s.id) (fun _ => s) d.settlements }

def removeBid (id : Nat) : Database := { d with bids := d.bids.eraseP (·.id = id) }

/-- `create< collateral_bid_object >`; there is one bid for a debt asset and an account. -/
def createBid (bidder : AccountId) (invSwanPrice : Price) : Eval (CollateralBid × Database) := do
  let bid : CollateralBid := ⟨d.nextBid, bidder, invSwanPrice⟩
  fcAssert (∀ b ∈ d.bids, ¬(b.debtType = bid.debtType ∧ b.bidder = bidder)) .notUnique
  return (bid, { d with bids := d.bids ++ [bid], nextBid := d.nextBid + 1 })

def pushAppliedOperation (op : VirtualOperation) : Database := { d with applied := d.applied ++ [op] }

end Database

end Khc.Market
