import Khc.Lib.Flat
import Khc.Lib.OrderStatistic
import Khc.Lib.Except
import Khc.Lib.Run
import Khc.Market.Price

/-! The feeds of a market-issued asset and their median (`asset_object.cpp`, `asset_evaluator.cpp`, `db_update.cpp`). All hard forks
    are active. -/

namespace Khc.Feeds

open Lib
open Chain (Price AccountId AssetId BitassetOptions Flag hasFlag)

/-- `price_feed` -/
structure PriceFeed extends Market.PriceFeed where
  coreExchangeRate : Price
  deriving DecidableEq, Repr

namespace PriceFeed

/-- `price_feed()` -/
def default : PriceFeed := ⟨Market.PriceFeed.none, Price.default⟩

/-- `price_feed::is_for` -/
def isFor (f : PriceFeed) (assetId : AssetId) : Bool :=
  if ¬f.settlementPrice.isNull then f.settlementPrice.base.assetId = assetId
  else if ¬f.coreExchangeRate.isNull then f.coreExchangeRate.base.assetId = assetId
  else true

/-- What `asset_publish_feed_operation::validate` accepts, with `price_feed::validate` -/
structure Accepted (f : PriceFeed) (assetId : AssetId) : Prop where
  settlement : ¬f.settlementPrice.isNull → f.settlementPrice.Valid
  squeeze : Market.minCollateralRatio ≤ f.maximumShortSqueezeRatio ∧ f.maximumShortSqueezeRatio ≤ Market.maxCollateralRatio
  maintenance : Market.minCollateralRatio ≤ f.maintenanceCollateralRatio ∧ f.maintenanceCollateralRatio ≤ Market.maxCollateralRatio
  fits : (f.maxShortSqueezePrice).isOk
  core : ¬f.coreExchangeRate.isNull → f.coreExchangeRate.Valid
  base : ¬f.settlementPrice.isNull → ¬f.coreExchangeRate.isNull → f.settlementPrice.base.assetId = f.coreExchangeRate.base.assetId
  settlement_given : ¬f.settlementPrice.isNull
  core_given : ¬f.coreExchangeRate.isNull
  isFor : f.isFor assetId

end PriceFeed

/-- Of `asset_bitasset_data_object`: a feed stands under its publisher, with the time of its publication in seconds. -/
structure BitassetData where
  options : BitassetOptions
  feeds : FlatMap AccountId (Nat × PriceFeed)
  currentFeed : PriceFeed
  currentFeedPublicationTime : Nat

namespace BitassetData
variable (b : BitassetData)

/-! ### The median -/

/-- "find feeds that were alive at current_time" -/
def aliveAt (currentTime : Nat) : List (Nat × PriceFeed) :=
  (b.feeds.entries.map Prod.snd).filter fun f => (currentTime : Int) - f.1 < b.options.feedLifetimeSec ∧ f.1 ≠ 0

section
variable [NthElement]

/-- `CALCULATE_MEDIAN_VALUE`: the value of the feed in the middle, and the feeds in the order that the selection leaves them in -/
def calculateMedianValue {β : Type} (lt : β → β → Bool) (field : PriceFeed → β) (feeds : List PriceFeed) : Option (β × List PriceFeed) := do
  let feeds := NthElement.run (fun x y => lt (field x) (field y)) feeds (feeds.length / 2)
  let median ← feeds[feeds.length / 2]?
  return (field median, feeds)

/-- `GRAPHENE_PRICE_FEED_FIELDS`, one after the other. Without a feed there is nothing in the middle. -/
def medianFeed (feeds : List PriceFeed) : Option PriceFeed := do
  let (settlementPrice, feeds) ← calculateMedianValue Price.lt (·.settlementPrice) feeds
  let (maintenanceCollateralRatio, feeds) ← calculateMedianValue (· < ·) (·.maintenanceCollateralRatio) feeds
  let (maximumShortSqueezeRatio, feeds) ← calculateMedianValue (· < ·) (·.maximumShortSqueezeRatio) feeds
  let (coreExchangeRate, _) ← calculateMedianValue Price.lt (·.coreExchangeRate) feeds
  return ⟨⟨settlementPrice, maintenanceCollateralRatio, maximumShortSqueezeRatio⟩, coreExchangeRate⟩

/-- `update_median_feeds`; none where the source reads past the end -/
def updateMedianFeeds (currentTime : Nat) : Option BitassetData :=
  let currentFeeds := b.aliveAt currentTime
  let publicationTime := currentFeeds.foldl (fun time f => min time f.1) currentTime
  if currentFeeds.length < b.options.minimumFeeds then
    some { b with currentFeed := .default, currentFeedPublicationTime := currentTime }
  else
    match currentFeeds with
    | [(_, feed)] => some { b with currentFeed := feed, currentFeedPublicationTime := publicationTime }
    | _ => do
      let currentFeed ← medianFeed (currentFeeds.map Prod.snd)
      return { b with currentFeed, currentFeedPublicationTime := publicationTime }

/-! ### What changes the feeds -/

/-- What `asset_publish_feeds_evaluator` does to the feeds -/
def publishFeed (publisher : AccountId) (feed : PriceFeed) (headBlockTime : Nat) : Option BitassetData :=
  { b with feeds := b.feeds.set publisher (headBlockTime, feed) }.updateMedianFeeds headBlockTime

/-- What `asset_update_feed_producers_evaluator` does to the feeds: "remove any old publishers who are no longer publishers", and "add
    any new publishers" -/
def updateFeedProducers (newFeedProducers : FlatSet AccountId) (headBlockTime : Nat) : Option BitassetData :=
  let kept := b.feeds.keep (· ∈ newFeedProducers)
  let feeds := newFeedProducers.elems.foldl (fun m producer =>
    if (m.find? producer).isNone then m.set producer (0, .default) else m) kept
  { b with feeds }.updateMedianFeeds headBlockTime

/-- The feeds after a change of the backing asset: gone, or "modified to nothing" -/
def resetFeeds (flags : Flag) : FlatMap AccountId (Nat × PriceFeed) :=
  if hasFlag flags (Chain.witnessFedAsset ||| Chain.committeeFedAsset) then ∅
  else b.feeds.mapValues fun f => (f.1, { f.2 with settlementPrice := Price.default })

/-- `update_bitasset_object_options`, and whether the feed is another one -/
def updateBitassetObjectOptions (newOptions : BitassetOptions) (flags : Flag) (headBlockTime : Nat) : Option (Bool × BitassetData) :=
  let backingAssetChanged := newOptions.shortBackingAsset ≠ b.options.shortBackingAsset
  let shouldUpdateFeeds := newOptions.minimumFeeds ≠ b.options.minimumFeeds ∨
    newOptions.feedLifetimeSec ≠ b.options.feedLifetimeSec ∨ backingAssetChanged
  let feeds := if backingAssetChanged then b.resetFeeds flags else b.feeds
  let changed : BitassetData := { b with options := newOptions, feeds }
  if shouldUpdateFeeds then do
    let updated ← changed.updateMedianFeeds headBlockTime
    return (!b.currentFeed.same updated.currentFeed.toPriceFeed, updated)
  else some (false, changed)

/-- `feed_expiration_time`, of times in 32 bits -/
def feedExpirationTime : Nat :=
  if 2 ^ 32 - 1 - b.currentFeedPublicationTime ≤ b.options.feedLifetimeSec then 2 ^ 32 - 1
  else b.currentFeedPublicationTime + b.options.feedLifetimeSec

/-- What `update_expired_feeds` does to the feeds of an asset -/
def updateExpiredFeeds (headBlockTime : Nat) : Option BitassetData :=
  if b.feedExpirationTime ≤ headBlockTime then b.updateMedianFeeds headBlockTime else some b

end

end BitassetData

/-! ### Runs -/

inductive Event
  | publishFeed (publisher : AccountId) (feed : PriceFeed)
  | updateFeedProducers (newFeedProducers : FlatSet AccountId)
  | updateBitassetObjectOptions (newOptions : BitassetOptions) (flags : Flag)
  | updateExpiredFeeds

/-- An event, at the time of the head block -/
def step [NthElement] (b : BitassetData) (i : Nat × Event) : Option BitassetData :=
  match i.2 with
  | .publishFeed publisher feed => b.publishFeed publisher feed i.1
  | .updateFeedProducers newFeedProducers => b.updateFeedProducers newFeedProducers i.1
  | .updateBitassetObjectOptions newOptions flags => (b.updateBitassetObjectOptions newOptions flags i.1).map Prod.snd
  | .updateExpiredFeeds => b.updateExpiredFeeds i.1

/-- What `validate` of an operation accepts for some asset -/
def Event.Accepted : Event → Prop
  | .publishFeed _ feed => ∃ assetId, feed.Accepted assetId
  | .updateBitassetObjectOptions newOptions _ => newOptions.validate = .ok ()
  | .updateFeedProducers _ | .updateExpiredFeeds => True

/-- The data of a new asset, with options that `validate` accepts -/
structure BitassetData.Created (b : BitassetData) : Prop where
  options : b.options.validate = .ok ()
  feeds : b.feeds = ∅
  currentFeed : b.currentFeed = .default
  currentFeedPublicationTime : b.currentFeedPublicationTime = 0

end Khc.Feeds
