import Khc.Market.Price

/-! The objects of the market (`market_object.hpp`, `asset_object.hpp`, `account_object.hpp`), the order of their
    indexes, and its operations (`protocol/market.hpp`, `protocol/asset_ops.hpp`). -/

namespace Khc.Market

open Chain (Asset Price AccountId AssetId AccountObject AssetOptions BitassetOptions)

/-! ### Limit orders -/

/-- `limit_order_object`. It is made from an operation that `validate` has accepted and from a fee that is not negative;
    its price and its seller never change. -/
structure LimitOrder where
  id : Nat
  expiration : Nat
  seller : AccountId
  forSale : Int
  sellPrice : Price
  deferredFee : Int
  deferredPaidFee : Asset
  valid : sellPrice.Valid
  deferredFee_nonneg : 0 ≤ deferredFee
  deferredPaidFee_nonneg : 0 ≤ deferredPaidFee.amount
  deriving DecidableEq

namespace LimitOrder

def sellAssetId (o : LimitOrder) : AssetId := o.sellPrice.base.assetId
def receiveAssetId (o : LimitOrder) : AssetId := o.sellPrice.quote.assetId
def amountForSale (o : LimitOrder) : Asset := ⟨o.forSale, o.sellAssetId⟩
def amountToReceive (o : LimitOrder) : Eval Asset := mul o.amountForSale o.sellPrice

/-- `by_price`: the greatest price first, then the least id -/
def precedes (a b : LimitOrder) : Prop :=
  a.sellPrice.gt b.sellPrice ∨ (¬b.sellPrice.gt a.sellPrice ∧ a.id < b.id)

instance (a b : LimitOrder) : Decidable (a.precedes b) := inferInstanceAs (Decidable (_ ∨ _))

/-- `by_expiration` -/
def expiresBefore (a b : LimitOrder) : Prop := a.expiration < b.expiration ∨ (a.expiration = b.expiration ∧ a.id < b.id)

instance (a b : LimitOrder) : Decidable (a.expiresBefore b) := inferInstanceAs (Decidable (_ ∨ _))

end LimitOrder

/-! ### Call orders -/

/-- `call_order_object` -/
structure CallOrder where
  id : Nat
  borrower : AccountId
  collateral : Int
  debt : Int
  callPrice : Price
  targetCollateralRatio : Option Nat
  deriving DecidableEq, Repr

namespace CallOrder

def debtType (c : CallOrder) : AssetId := c.callPrice.quote.assetId
def collateralType (c : CallOrder) : AssetId := c.callPrice.base.assetId
def getDebt (c : CallOrder) : Asset := ⟨c.debt, c.debtType⟩
def getCollateral (c : CallOrder) : Asset := ⟨c.collateral, c.collateralType⟩

/-- `collateralization()` -/
def collateralization (c : CallOrder) : Price := ⟨c.getCollateral, c.getDebt⟩

/-- `by_price`: the least call price first, then the least id -/
def precedes (a b : CallOrder) : Prop :=
  a.callPrice.lt b.callPrice ∨ (¬b.callPrice.lt a.callPrice ∧ a.id < b.id)

instance (a b : CallOrder) : Decidable (a.precedes b) := inferInstanceAs (Decidable (_ ∨ _))

/-- `by_collateral` -/
def lessCollateralized (a b : CallOrder) : Prop :=
  a.collateralization.lt b.collateralization ∨ (¬b.collateralization.lt a.collateralization ∧ a.id < b.id)

instance (a b : CallOrder) : Decidable (a.lessCollateralized b) := inferInstanceAs (Decidable (_ ∨ _))

end CallOrder

/-! ### Force settlements and collateral bids -/

/-- `force_settlement_object` -/
structure ForceSettlement where
  id : Nat
  owner : AccountId
  balance : Asset
  settlementDate : Nat
  deriving DecidableEq, Repr

namespace ForceSettlement

def settlementAssetId (s : ForceSettlement) : AssetId := s.balance.assetId

/-- `by_expiration` -/
def expiresBefore (a b : ForceSettlement) : Prop :=
  a.settlementAssetId < b.settlementAssetId ∨ (a.settlementAssetId = b.settlementAssetId ∧
    (a.settlementDate < b.settlementDate ∨ (a.settlementDate = b.settlementDate ∧ a.id < b.id)))

instance (a b : ForceSettlement) : Decidable (a.expiresBefore b) := inferInstanceAs (Decidable (_ ∨ _))

end ForceSettlement

/-- `collateral_bid_object` -/
structure CollateralBid where
  id : Nat
  bidder : AccountId
  invSwanPrice : Price
  deriving DecidableEq, Repr

namespace CollateralBid

def debtType (b : CollateralBid) : AssetId := b.invSwanPrice.quote.assetId

/-- `by_price`: by the asset of the debt, then the greatest price first, then the least id -/
def precedes (a b : CollateralBid) : Prop :=
  a.debtType < b.debtType ∨ (a.debtType = b.debtType ∧
    (a.invSwanPrice.gt b.invSwanPrice ∨ (¬b.invSwanPrice.gt a.invSwanPrice ∧ a.id < b.id)))

instance (a b : CollateralBid) : Decidable (a.precedes b) := inferInstanceAs (Decidable (_ ∨ _))

end CollateralBid

/-! ### Assets and accounts -/

/-- Of `asset_object`; the id of an asset is its place in the index. `asset_options::validate` checks the greatest market
    fee, and the core asset of the genesis allows for all fees. -/
structure AssetObject where
  issuer : AccountId
  options : AssetOptions
  maxMarketFee_nonneg : 0 ≤ options.maxMarketFee

/-- Of `asset_dynamic_data_object` -/
structure AssetDynamicData where
  currentSupply : Int := 0
  accumulatedFees : Int := 0
  feePool : Int := 0
  deriving DecidableEq, Repr

/-- Of `asset_bitasset_data_object`. The current feed is the median of the published ones, as
    `update_median_feeds` computes it. -/
structure BitassetData where
  options : BitassetOptions
  currentFeed : PriceFeed
  isPredictionMarket : Bool
  forceSettledVolume : Int
  settlementPrice : Price
  settlementFund : Int
  deriving DecidableEq, Repr

/-- `has_settlement()` -/
def BitassetData.hasSettlement (b : BitassetData) : Bool := !b.settlementPrice.isNull

/-- `max_force_settlement_volume` -/
def BitassetData.maxForceSettlementVolume (b : BitassetData) (currentSupply : Int) : Int :=
  (currentSupply + b.forceSettledVolume) * b.options.maximumForceSettlementVolume / Chain.graphene100Percent

/-- Of `account_statistics_object` -/
structure AccountStatistics where
  totalCoreInOrders : Int := 0
  pendingFees : Int := 0
  pendingVestedFees : Int := 0
  deriving DecidableEq, Repr

/-- `account_balance_object` -/
structure AccountBalance where
  owner : AccountId
  assetType : AssetId
  balance : Int
  deriving DecidableEq, Repr

/-- `by_account_asset` -/
def AccountBalance.isOf (owner : AccountId) (asset : AssetId) (b : AccountBalance) : Bool :=
  b.owner = owner ∧ b.assetType = asset

/-! ### Operations -/

/-- `limit_order_create_operation` -/
structure LimitOrderCreate where
  fee : Asset
  seller : AccountId
  amountToSell : Asset
  minToReceive : Asset
  expiration : Nat
  fillOrKill : Bool
  deriving DecidableEq, Repr

/-- `limit_order_cancel_operation` -/
structure LimitOrderCancel where
  fee : Asset
  feePayingAccount : AccountId
  order : Nat
  deriving DecidableEq, Repr

/-- `call_order_update_operation` -/
structure CallOrderUpdate where
  fee : Asset
  fundingAccount : AccountId
  deltaCollateral : Asset
  deltaDebt : Asset
  targetCollateralRatio : Option Nat
  deriving DecidableEq, Repr

/-- `bid_collateral_operation` -/
structure BidCollateral where
  fee : Asset
  bidder : AccountId
  additionalCollateral : Asset
  debtCovered : Asset
  deriving DecidableEq, Repr

/-- `asset_settle_operation` -/
structure AssetSettle where
  fee : Asset
  account : AccountId
  amount : Asset
  deriving DecidableEq, Repr

/-- `asset_global_settle_operation` -/
structure AssetGlobalSettle where
  fee : Asset
  issuer : AccountId
  assetToSettle : AssetId
  settlePrice : Price
  deriving DecidableEq, Repr

/-- `asset_claim_fees_operation` -/
structure AssetClaimFees where
  fee : Asset
  issuer : AccountId
  amountToClaim : Asset
  deriving DecidableEq, Repr

/-- `asset_publish_feed_operation`. Its feed is the median that results from the publication. -/
structure AssetPublishFeed where
  fee : Asset
  publisher : AccountId
  assetId : AssetId
  feed : PriceFeed
  deriving DecidableEq, Repr

inductive Operation
  | limitOrderCreate (o : LimitOrderCreate)
  | limitOrderCancel (o : LimitOrderCancel)
  | callOrderUpdate (o : CallOrderUpdate)
  | bidCollateral (o : BidCollateral)
  | assetSettle (o : AssetSettle)
  | assetGlobalSettle (o : AssetGlobalSettle)
  | assetClaimFees (o : AssetClaimFees)
  | assetPublishFeed (o : AssetPublishFeed)
  deriving DecidableEq, Repr

namespace Operation

def fee : Operation → Asset
  | limitOrderCreate o => o.fee
  | limitOrderCancel o => o.fee
  | callOrderUpdate o => o.fee
  | bidCollateral o => o.fee
  | assetSettle o => o.fee
  | assetGlobalSettle o => o.fee
  | assetClaimFees o => o.fee
  | assetPublishFeed o => o.fee

def feePayer : Operation → AccountId
  | limitOrderCreate o => o.seller
  | limitOrderCancel o => o.feePayingAccount
  | callOrderUpdate o => o.fundingAccount
  | bidCollateral o => o.bidder
  | assetSettle o => o.account
  | assetGlobalSettle o => o.issuer
  | assetClaimFees o => o.issuer
  | assetPublishFeed o => o.publisher

end Operation

/-- The orders that a fill names -/
inductive OrderId
  | limit (id : Nat)
  | call (id : Nat)
  | settlement (id : Nat)
  deriving DecidableEq, Repr

/-- What the market adds to the applied operations of a block -/
inductive VirtualOperation
  /-- `fill_order_operation` -/
  | fillOrder (order : OrderId) (account : AccountId) (pays receives fee : Asset) (fillPrice : Price) (isMaker : Bool)
  /-- `limit_order_cancel_operation` -/
  | limitOrderCancel (order : Nat) (feePayingAccount : AccountId) (fee : Asset)
  /-- `asset_settle_cancel_operation` -/
  | assetSettleCancel (settlement : Nat) (account : AccountId) (amount : Asset)
  /-- `bid_collateral_operation` -/
  | bidCollateral (bidder : AccountId) (additionalCollateral debtCovered : Asset)
  /-- `execute_bid_operation` -/
  | executeBid (bidder : AccountId) (debt collateral : Asset)
  deriving DecidableEq, Repr

end Khc.Market
