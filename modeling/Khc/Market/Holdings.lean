import Khc.Market.Fills
import Khc.Market.Rates
import Mathlib.Algebra.Group.Pi.Lemmas
import Mathlib.Tactic.Ring

/-! Where an asset is held in the market and what is owed of it, and the states in which every order can be paid. -/

namespace Khc

/-! ### Amounts of an asset -/

namespace Chain.Asset

/-- How much of the asset the amount is -/
def of (x : Asset) (a : AssetId) : Int := if x.assetId = a then x.amount else 0

variable {a b : AssetId} {m n : Int} {x : Asset}

theorem eq_of {y : Asset} (h : x.amount = y.amount) (h' : x.assetId = y.assetId) : x = y := by
  cases x
  cases y
  simp_all

@[simp] theorem of_zero : of ⟨0, b⟩ a = 0 := by simp [of]

theorem of_eq_zero (h : x.amount = 0) : of x a = 0 := by simp [of, h]

@[simp] theorem of_neg : of x.neg a = -of x a := by
  unfold of neg
  split <;> simp_all

@[simp] theorem neg_of : of x.neg = -of x := funext fun _ => of_neg

theorem of_add : of ⟨m + n, b⟩ a = of ⟨m, b⟩ a + of ⟨n, b⟩ a := by
  unfold of
  split <;> simp

theorem of_sub : of ⟨m - n, b⟩ a = of ⟨m, b⟩ a - of ⟨n, b⟩ a := by
  unfold of
  split <;> simp

theorem of_mk {y : Asset} (h : y.assetId = b) : of ⟨y.amount, b⟩ = y.of := by rw [← h]

/-- The part of it that is of the core asset -/
def core (x : Asset) : Asset := ⟨x.of 0, 0⟩

theorem core_eq_add {y z : Asset} (h : x.of = y.of + z.of) : x.core.of = y.core.of + z.core.of := by
  funext a
  rw [core, h, Pi.add_apply, of_add]
  rfl

@[simp] theorem neg_core : x.neg.core.of = -x.core.of := by
  funext a
  rw [core, of_neg, Pi.neg_apply, core]
  exact of_neg (x := ⟨x.of 0, 0⟩)

theorem of_nonneg (h : 0 ≤ x.amount) : 0 ≤ of x a := by
  unfold of
  split
  · exact h
  · exact le_refl 0

end Chain.Asset

namespace Market

open Lib
open Chain (Asset Price AccountId AssetId)

/-! ### What is held and owed -/

/-- The places where an asset is held, the two counts of what is owed of it, and what the statistics of an account count
    of it beyond what is in the account's orders -/
inductive Quantity
  | total
  | collateral
  | requested
  | bidden
  | funds
  | supply
  | debt
  | uncounted (account : AccountId)
  deriving DecidableEq

/-- What an order holds: what is for sale and the fees that are deferred -/
def LimitOrder.holds (o : LimitOrder) (a : AssetId) : Int :=
  o.amountForSale.of a + Asset.of ⟨o.deferredFee, 0⟩ a + o.deferredPaidFee.of a

/-- What an account has in an order -/
def LimitOrder.commits (account : AccountId) (o : LimitOrder) : Int := if o.seller = account then o.amountForSale.of 0 else 0

def CallOrder.commits (account : AccountId) (c : CallOrder) : Int := if c.borrower = account then c.getCollateral.of 0 else 0

/-- What the settlement fund of an asset holds -/
def fundOf (a : AssetId) (b : Option BitassetData) : Int :=
  b.elim 0 fun b => Asset.of ⟨b.settlementFund, b.options.shortBackingAsset⟩ a

namespace Database
variable (d : Database)

def balancesOf (a : AssetId) : Int := (d.balances.map fun b => Asset.of ⟨b.balance, b.assetType⟩ a).sum

def accumulatedFees (a : AssetId) : Int := (d.dynamicData[a]?.map AssetDynamicData.accumulatedFees).getD 0

def currentSupply (a : AssetId) : Int := (d.dynamicData[a]?.map AssetDynamicData.currentSupply).getD 0

def feePools : Int := (d.dynamicData.map AssetDynamicData.feePool).sum

/-- Core fees that are not yet distributed -/
def pendingFees : Int := (d.statistics.map fun s => s.pendingFees + s.pendingVestedFees).sum

/-- What is held of an asset outside of orders. Fee pools and pending fees are of the core asset. -/
def liquid (a : AssetId) : Int :=
  d.balancesOf a + d.accumulatedFees a + Asset.of ⟨d.feePools + d.pendingFees, 0⟩ a

/-- Balances, amounts for sale, deferred fees, accumulated fees, fee pools and pending fees -/
def total (a : AssetId) : Int := d.liquid a + (d.limitOrders.map (LimitOrder.holds · a)).sum

def collateral (a : AssetId) : Int := (d.callOrders.map (·.getCollateral.of a)).sum

def requested (a : AssetId) : Int := (d.settlements.map (·.balance.of a)).sum

def bidden (a : AssetId) : Int := (d.bids.map (·.invSwanPrice.base.of a)).sum

def funds (a : AssetId) : Int := (d.bitassets.map (fundOf a)).sum

/-- The sum of the debts of the call orders -/
def debt (a : AssetId) : Int := (d.callOrders.map (·.getDebt.of a)).sum

/-- `total_core_in_orders` -/
def totalCoreInOrders (account : AccountId) : Int :=
  (d.statistics[account]?.map AccountStatistics.totalCoreInOrders).getD 0

/-- The core asset in the orders of an account: what is for sale, and collateral -/
def coreInOrders (account : AccountId) : Int :=
  (d.limitOrders.map (LimitOrder.commits account)).sum + (d.callOrders.map (CallOrder.commits account)).sum

def amount : Quantity → AssetId → Int
  | .total => d.total
  | .collateral => d.collateral
  | .requested => d.requested
  | .bidden => d.bidden
  | .funds => d.funds
  | .supply => d.currentSupply
  | .debt => d.debt
  | .uncounted account => Asset.of ⟨d.totalCoreInOrders account - d.coreInOrders account, 0⟩

end Database

/-! ### Changes of quantities -/

/-- How much of each asset each quantity grows by -/
abbrev Shift := Quantity → AssetId → Int

/-- One quantity grows. -/
def put (q : Quantity) (δ : AssetId → Int) : Shift := Pi.single q δ

namespace Shift

/-- What is held, less the supply -/
def worth (F : Shift) (a : AssetId) : Int :=
  F .total a + F .collateral a + F .requested a + F .bidden a + F .funds a - F .supply a

/-- The supply, less the debts -/
def uncovered (F : Shift) (a : AssetId) : Int := F .supply a - F .debt a

end Shift

section
variable {q : Quantity} {δ δ' : AssetId → Int} {a : AssetId} {F G : Shift}

@[simp] theorem put_self : put q δ q a = δ a := by simp [put]

@[simp] theorem put_zero : put q 0 = 0 := Pi.single_zero q

theorem put_neg : put q (-δ) = -put q δ := Pi.single_neg (f := fun _ => AssetId → Int) q δ

theorem put_add : put q (δ + δ') = put q δ + put q δ' := Pi.single_add (f := fun _ => AssetId → Int) q δ δ'

theorem put_sub : put q (δ - δ') = put q δ - put q δ' := Pi.single_sub (f := fun _ => AssetId → Int) q δ δ'

/-- An amount that is only paid when there is one -/
theorem put_ite {x : Asset} (h : 0 ≤ x.amount) : (if x.amount > 0 then put q x.of else 0) = put q x.of := by
  split
  · rfl
  · have hnone : x.of = 0 := funext fun a => Asset.of_eq_zero (by omega)
    rw [hnone, put_zero]

theorem put_ne {q' : Quantity} (h : q' ≠ q) : put q δ q' a = 0 := by simp [put, Pi.single_eq_of_ne h]

@[simp] theorem worth_zero : Shift.worth 0 a = 0 := by simp [Shift.worth]

@[simp] theorem uncovered_zero : Shift.uncovered 0 a = 0 := by simp [Shift.uncovered]

@[simp] theorem worth_add : (F + G).worth a = F.worth a + G.worth a := by
  simp only [Shift.worth, Pi.add_apply]
  ring

@[simp] theorem uncovered_add : (F + G).uncovered a = F.uncovered a + G.uncovered a := by
  simp only [Shift.uncovered, Pi.add_apply]
  ring

@[simp] theorem worth_sub : (F - G).worth a = F.worth a - G.worth a := by
  simp only [Shift.worth, Pi.sub_apply]
  ring

@[simp] theorem uncovered_sub : (F - G).uncovered a = F.uncovered a - G.uncovered a := by
  simp only [Shift.uncovered, Pi.sub_apply]
  ring

@[simp] theorem worth_neg : (-F).worth a = -F.worth a := by
  simp only [Shift.worth, Pi.neg_apply]
  ring

@[simp] theorem uncovered_neg : (-F).uncovered a = -F.uncovered a := by
  simp only [Shift.uncovered, Pi.neg_apply]
  ring

@[simp] theorem worth_put : (put q δ).worth a = match q with
    | .supply => -δ a
    | .debt => 0
    | .uncounted _ => 0
    | _ => δ a := by
  cases q <;> simp [Shift.worth, put]

@[simp] theorem uncovered_put : (put q δ).uncovered a = match q with
    | .supply => δ a
    | .debt => -δ a
    | _ => 0 := by
  cases q <;> simp [Shift.uncovered, put]

/-- What each account's statistics gain on the account's orders -/
def Shift.miscount (F : Shift) (account : AccountId) : Int := F (.uncounted account) 0

@[simp] theorem miscount_zero {account : AccountId} : Shift.miscount 0 account = 0 := rfl

@[simp] theorem miscount_add {account : AccountId} : (F + G).miscount account = F.miscount account + G.miscount account := rfl

@[simp] theorem miscount_sub {account : AccountId} : (F - G).miscount account = F.miscount account - G.miscount account := rfl

@[simp] theorem miscount_neg {account : AccountId} : (-F).miscount account = -F.miscount account := rfl

@[simp] theorem miscount_put {account : AccountId} : (put q δ).miscount account = match q with
    | .uncounted account' => if account' = account then δ 0 else 0
    | _ => 0 := by
  cases q with
  | uncounted account' =>
    by_cases h : account' = account
    · subst h
      simp [Shift.miscount, put]
    · simp [Shift.miscount, put, h, Ne.symm h]
  | _ => simp [Shift.miscount, put]

/-- A change that keeps what all holdings are worth, how far supplies are covered by debts, and what statistics count -/
structure Shift.Fair (F : Shift) : Prop where
  worth : ∀ a, F.worth a = 0
  uncovered : ∀ a, F.uncovered a = 0
  counted : ∀ account, F.miscount account = 0

theorem Shift.Fair.zero : Shift.Fair 0 := ⟨fun _ => worth_zero, fun _ => uncovered_zero, fun _ => miscount_zero⟩

theorem Shift.Fair.add (hF : F.Fair) (hG : G.Fair) : (F + G).Fair where
  worth a := by rw [worth_add, hF.worth, hG.worth, add_zero]
  uncovered a := by rw [uncovered_add, hF.uncovered, hG.uncovered, add_zero]
  counted account := by rw [miscount_add, hF.counted, hG.counted, add_zero]

/-- What is counted of the core part of an amount, account by account -/
theorem put_core {account account' : AccountId} (x : Asset) :
    put (.uncounted account) x.core.of (.uncounted account') a = Asset.of ⟨if account = account' then x.of 0 else 0, 0⟩ a := by
  by_cases h : account = account'
  · subst h
    rw [put_self, if_pos rfl]
    rfl
  · rw [put_ne fun heq => h (by injection heq with heq; exact heq.symm), if_neg h, Asset.of_zero]

/-- Only one quantity changes. -/
theorem Database.amount_put {d d' : Database} (hq : ∀ a, d'.amount q a = d.amount q a + δ a)
    (hne : ∀ q' ≠ q, ∀ a, d'.amount q' a = d.amount q' a) (q' : Quantity) (a : AssetId) :
    d'.amount q' a = d.amount q' a + put q δ q' a := by
  by_cases h : q' = q
  · subst h
    rw [hq, put_self]
  · rw [hne q' h, put_ne h, add_zero]

end

/-! ### Sums over the market -/

namespace Database
variable {d d' : Database} {F : Shift} {a : AssetId} {account : AccountId}

def worth (d : Database) (a : AssetId) : Int := Shift.worth d.amount a

def uncovered (d : Database) (a : AssetId) : Int := Shift.uncovered d.amount a

/-- What the statistics of an account count beyond what it has in orders -/
def miscount (d : Database) (account : AccountId) : Int := Shift.miscount d.amount account

theorem miscount_eq : d.miscount account = d.totalCoreInOrders account - d.coreInOrders account := by
  simp [miscount, Shift.miscount, amount, Asset.of]

/-- The quantities grow by `F`. -/
abbrev Changes (d d' : Database) (F : Shift) : Prop := ∀ q a, d'.amount q a = d.amount q a + F q a

theorem Changes.trans {d'' : Database} {G : Shift} (h : Changes d d' F) (h' : Changes d' d'' G) : Changes d d'' (F + G) :=
  fun q a => by rw [h', h, Pi.add_apply, Pi.add_apply, add_assoc]

theorem worth_of_amounts (h : Changes d d' F) : d'.worth a = d.worth a + F.worth a := by
  simp only [worth, Shift.worth, h]
  ring

theorem uncovered_of_amounts (h : Changes d d' F) :
    d'.uncovered a = d.uncovered a + F.uncovered a := by
  simp only [uncovered, Shift.uncovered, h]
  ring

theorem miscount_of_amounts (h : Changes d d' F) :
    d'.miscount account = d.miscount account + F.miscount account := by
  simp only [miscount, Shift.miscount, h]

/-- What all holdings are worth and what is counted stay the same. -/
structure Keeps (d d' : Database) : Prop where
  worth : ∀ a, d'.worth a = d.worth a
  counted : ∀ account, d'.miscount account = d.miscount account

theorem Keeps.refl : Keeps d d := ⟨fun _ => rfl, fun _ => rfl⟩

theorem Keeps.trans {d'' : Database} (h : Keeps d d') (h' : Keeps d' d'') : Keeps d d'' :=
  ⟨fun a => (h'.worth a).trans (h.worth a), fun account => (h'.counted account).trans (h.counted account)⟩

theorem keeps_of_amounts (h : Changes d d' F) (hworth : ∀ a, F.worth a = 0)
    (hcount : ∀ account, F.miscount account = 0) : Keeps d d' where
  worth a := by rw [worth_of_amounts h, hworth, add_zero]
  counted account := by rw [miscount_of_amounts h, hcount, add_zero]

end Database

/-! ### Sound states -/

/-- An order that receives something at its own price, for everything that it has for sale -/
def LimitOrder.Worthwhile (o : LimitOrder) : Prop := o.sellPrice.base.amount ≤ o.forSale * o.sellPrice.quote.amount

instance (o : LimitOrder) : Decidable o.Worthwhile := inferInstanceAs (Decidable (_ ≤ _))

/-- The current feed is a price of the asset in the one that backs it, or there is none. -/
structure BitassetData.Fed (b : BitassetData) (a : AssetId) : Prop where
  median : b.currentFeed.IsMedianFor a
  quote : ¬b.currentFeed.settlementPrice.isNull → b.currentFeed.settlementPrice.quote.assetId = b.options.shortBackingAsset

namespace Database
variable (d : Database)

/-- A call order that owes something and that is secured by the asset that backs its debt -/
structure Secures (c : CallOrder) : Prop where
  debt : 0 < c.debt
  collateral : 0 < c.collateral
  priced : c.callPrice.InRange
  backing : ∃ b, d.bitasset c.debtType = some b ∧ b.options.shortBackingAsset = c.collateralType

/-- A bid of the asset that backs the debt that it covers -/
structure Bids (b : CollateralBid) : Prop where
  collateral : 0 ≤ b.invSwanPrice.base.amount
  debt : 0 < b.invSwanPrice.quote.amount
  backing : ∃ x, d.bitasset b.debtType = some x ∧ x.options.shortBackingAsset = b.invSwanPrice.base.assetId

/-- No account and no asset owes anything. -/
structure Solvent : Prop where
  balances : ∀ b ∈ d.balances, 0 ≤ b.balance
  fees : ∀ x ∈ d.dynamicData, 0 ≤ x.accumulatedFees

/-- What all operations keep of the tables -/
structure Sound : Prop where
  solvent : d.Solvent
  limits : Numbered LimitOrder.id d.nextLimitOrder d.limitOrders
  forSale : ∀ o ∈ d.limitOrders, 0 < o.forSale
  calls : Numbered CallOrder.id d.nextCallOrder d.callOrders
  secured : ∀ c ∈ d.callOrders, d.Secures c
  requests : Numbered ForceSettlement.id d.nextSettlement d.settlements
  requests_nonneg : ∀ s ∈ d.settlements, 0 ≤ s.balance.amount
  bids : Numbered CollateralBid.id d.nextBid d.bids
  bidden : ∀ b ∈ d.bids, d.Bids b
  feeds : ∀ a b, d.bitasset a = some b → b.Fed a
  core : d.bitasset 0 = none

end Database

end Market

end Khc
