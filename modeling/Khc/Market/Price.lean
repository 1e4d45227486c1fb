import Khc.Chain.Objects
import Mathlib.Data.Rat.Defs

/-! Amounts and prices of the market (`protocol/asset.hpp`, `protocol/asset.cpp`). The amounts that are multiplied with a
    price are never negative, and two of them fit into 128 bits, so that products are taken of natural numbers. -/

namespace Khc

/-! ### Comparisons of prices -/

namespace Chain.Price

/-- `operator ~` -/
def inv (p : Price) : Price := ⟨p.quote, p.base⟩

/-- `operator <`: first by the assets, then by the products. -/
def lt (a b : Price) : Bool :=
  if a.base.assetId ≠ b.base.assetId then a.base.assetId < b.base.assetId
  else if a.quote.assetId ≠ b.quote.assetId then a.quote.assetId < b.quote.assetId
  else b.quote.amount * a.base.amount < a.quote.amount * b.base.amount

/-- `operator ==` -/
def same (a b : Price) : Bool :=
  a.base.assetId == b.base.assetId && a.quote.assetId == b.quote.assetId &&
    b.quote.amount * a.base.amount == a.quote.amount * b.base.amount

/-- `operator <=` -/
def le (a b : Price) : Bool := a.same b || a.lt b

/-- `operator >` -/
def gt (a b : Price) : Bool := !a.le b

/-- `price::max( base, quote )` -/
def max (base quote : AssetId) : Price := ⟨⟨maxShareSupply, base⟩, ⟨1, quote⟩⟩

/-- `price::min( base, quote )` -/
def min (base quote : AssetId) : Price := ⟨⟨1, base⟩, ⟨maxShareSupply, quote⟩⟩

/-- What `price::validate` accepts. -/
structure Valid (p : Price) : Prop where
  base_pos : 0 < p.base.amount
  quote_pos : 0 < p.quote.amount
  assets : p.base.assetId ≠ p.quote.assetId

instance (p : Price) : Decidable p.Valid :=
  decidable_of_iff (0 < p.base.amount ∧ 0 < p.quote.amount ∧ p.base.assetId ≠ p.quote.assetId)
    ⟨fun ⟨h₁, h₂, h₃⟩ => ⟨h₁, h₂, h₃⟩, fun h => ⟨h.base_pos, h.quote_pos, h.assets⟩⟩

end Chain.Price

namespace Market

open Lib
open Chain (Asset Price AssetId maxShareSupply InInt64)

/-! ### Errors -/

/-- What a check, an operator or a lookup throws. The comments quote the assertion. -/
inductive Error
  /-- A sum or difference of `safe<int64_t>` leaves the range. -/
  | overflow
  /-- "Unable to find Object ${id}" -/
  | objectNotFound
  /-- "Could not create object! Most likely a uniqueness constraint is violated." -/
  | notUnique
  /-- `b.base.amount.value > 0` and the checks of `price::validate` -/
  | priceNotPositive
  /-- `result <= GRAPHENE_MAX_SHARE_SUPPLY` -/
  | productTooLarge
  /-- "invalid asset * price" -/
  | invalidAssetTimesPrice
  /-- `base.asset_id != quote.asset_id` -/
  | priceOfOneAsset
  /-- `boost::bad_rational` -/
  | badRational
  /-- Two amounts, orders or prices that are not of the assets they have to be of. -/
  | assetMismatch
  /-- "Insufficient Balance: ${a}'s balance of ${b} is less than required ${r}", and the same check of an operation -/
  | insufficientBalance
  /-- `usd.for_sale > 0 && core.for_sale > 0` and its counterparts for call and settlement orders -/
  | nothingForSale
  /-- `result != 0` of a match of limit orders -/
  | noOrderFilled
  /-- `order.get_collateral() >= pays` -/
  | notEnoughCollateral
  /-- `to_pay.amount < collateral && to_cover.amount < debt` and the other checks of `get_max_debt_to_cover` -/
  | maxDebtToCover
  /-- A check of `asset::is_market_issued` -/
  | notMarketIssued
  /-- A check of `asset_bitasset_data_object::has_settlement`, in both directions -/
  | settlement
  /-- A check of `is_prediction_market` -/
  | predictionMarket
  /-- `insufficient_feeds` -/
  | noFeed
  /-- "Black swan was detected during a margin update which is not allowed to trigger a blackswan" -/
  | blackSwan
  /-- `bad.settlement_fund == 0`, `remaining_fund == 0` and `to_cover == 0` of the revival of an asset -/
  | fundNotUsedUp
  /-- `settled_amount.amount <= bitasset.settlement_fund` -/
  | fundTooSmall
  /-- "Settle amount is too small to receive anything due to rounding" -/
  | settleAmountTooSmall
  /-- `call_order_update_unfilled_margin_call` and the checks of a call order after its update -/
  | callOrderUpdate
  /-- A check of the data of an operation alone (`validate`) -/
  | invalidOperation
  /-- `fee.amount >= 0`, "Insufficient Fee Paid" and the checks of the fee's asset -/
  | fee
  /-- A market or an asset that the account may not use -/
  | unauthorized
  /-- `op.expiration >= d.head_block_time()` -/
  | expired
  /-- `!op.fill_or_kill || filled` -/
  | fillOrKill
  /-- An operation on an object of another account -/
  | notOwner
  /-- "Attempt to claim more fees than have accumulated" -/
  | claimTooLarge
  /-- "Can't find bid to cancel?!" -/
  | noBid
  /-- Behaviour that the source leaves undefined -/
  | undefinedBehavior
  /-- A loop of the source is still running. -/
  | outOfFuel
  deriving DecidableEq, Repr

/-- A computation that may throw. A thrown error leaves the state as it was. -/
abbrev Eval := Except Error

/-- `FC_ASSERT` -/
def fcAssert (c : Prop) [Decidable c] (e : Error) : Eval Unit := if c then .ok () else .error e

@[simp] theorem fcAssert_eq_ok {c : Prop} [Decidable c] {e : Error} {u : Unit} : fcAssert c e = .ok u ↔ c := by
  unfold fcAssert
  split <;> simp_all

/-- A result of `safe<int64_t>` arithmetic -/
def safe (x : Int) : Eval Int := if InInt64 x then .ok x else .error .overflow

theorem zero_nonneg : (0 : Int) ≤ 0 := Int.le_refl 0

theorem safe_eq_ok {x y : Int} : safe x = .ok y ↔ InInt64 x ∧ y = x := by
  unfold safe
  split
  · simp_all [eq_comm]
  · simp_all

/-! ### Products -/

/-- The amount at a price of `per` for `out`, rounded down with carry 0, and up with carry `per - 1` -/
def convert (a : Asset) (per out : Asset) (carry : Nat) : Eval Asset := do
  fcAssert (per.amount > 0) .priceNotPositive
  let result : Int := ((a.amount.toNat * out.amount.toNat + carry) / per.amount.toNat : Nat)
  fcAssert (result ≤ maxShareSupply) .productTooLarge
  return ⟨result, out.assetId⟩

/-- `operator *` of an asset and a price, which rounds down -/
def mul (a : Asset) (p : Price) : Eval Asset :=
  if a.assetId = p.base.assetId then convert a p.base p.quote 0
  else if a.assetId = p.quote.assetId then convert a p.quote p.base 0
  else throw .invalidAssetTimesPrice

/-- `asset::multiply_and_round_up` -/
def multiplyAndRoundUp (a : Asset) (p : Price) : Eval Asset :=
  if a.assetId = p.base.assetId then convert a p.base p.quote (p.base.amount.toNat - 1)
  else if a.assetId = p.quote.assetId then convert a p.quote p.base (p.quote.amount.toNat - 1)
  else throw .invalidAssetTimesPrice

/-- `operator /` of two assets -/
def mkPrice (base quote : Asset) : Eval Price := do
  fcAssert (base.assetId ≠ quote.assetId) .priceOfOneAsset
  return ⟨base, quote⟩

/-! ### Margin prices -/

/-- `GRAPHENE_COLLATERAL_RATIO_DENOM` -/
def collateralRatioDenom : Nat := 1000

/-- The loops that halve both parts of a `boost::rational<int128_t>` until they are at most
    `GRAPHENE_MAX_SHARE_SUPPLY`. A number of 128 bits takes fewer than 128 rounds. -/
def shrink (half : Int → Int) : Nat → ℚ → Eval ℚ
  | 0, _ => throw .outOfFuel
  | n + 1, cp =>
    if cp.num > maxShareSupply ∨ (cp.den : Int) > maxShareSupply then
      shrink half n (half cp.num / half cp.den)
    else .ok cp

/-- `price::call_price` -/
def callPrice (debt collateral : Asset) (collateralRatio : Nat) : Eval Price := do
  fcAssert (collateral.amount ≠ 0) .badRational
  let cp ← shrink (fun n => n / 2 + 1) 128 (debt.amount / collateral.amount * (collateralRatio / collateralRatioDenom))
  return (← mkPrice ⟨cp.num, debt.assetId⟩ ⟨cp.den, collateral.assetId⟩).inv

/-- The fields of `price_feed` that the market reads -/
structure PriceFeed where
  settlementPrice : Price
  maintenanceCollateralRatio : Nat
  maximumShortSqueezeRatio : Nat
  deriving DecidableEq, Repr

/-- `GRAPHENE_MIN_COLLATERAL_RATIO` and `GRAPHENE_MAX_COLLATERAL_RATIO` -/
def minCollateralRatio : Nat := 1001
def maxCollateralRatio : Nat := 32000

/-- `price_feed()`, with `GRAPHENE_DEFAULT_MAINTENANCE_COLLATERAL_RATIO` and `GRAPHENE_DEFAULT_MAX_SHORT_SQUEEZE_RATIO` -/
def PriceFeed.none : PriceFeed := ⟨Price.default, 1750, 1500⟩

/-- A median of feeds for the asset that `price_feed::validate` accepts, or no median -/
def PriceFeed.IsMedianFor (f : PriceFeed) (asset : AssetId) : Prop :=
  f = .none ∨ (f.settlementPrice.Valid ∧ f.settlementPrice.base.assetId = asset ∧
    minCollateralRatio ≤ f.maintenanceCollateralRatio ∧ f.maintenanceCollateralRatio ≤ maxCollateralRatio ∧
    minCollateralRatio ≤ f.maximumShortSqueezeRatio ∧ f.maximumShortSqueezeRatio ≤ maxCollateralRatio)

instance (f : PriceFeed) (asset : AssetId) : Decidable (f.IsMedianFor asset) := inferInstanceAs (Decidable (_ ∨ _))

/-- `operator ==` of feeds -/
def PriceFeed.same (a b : PriceFeed) : Bool :=
  a.settlementPrice.same b.settlementPrice && a.maintenanceCollateralRatio == b.maintenanceCollateralRatio &&
    a.maximumShortSqueezeRatio == b.maximumShortSqueezeRatio

/-- `price_feed::max_short_squeeze_price` -/
def PriceFeed.maxShortSqueezePrice (f : PriceFeed) : Eval Price := do
  let sp := f.settlementPrice
  fcAssert (sp.quote.amount ≠ 0 ∧ f.maximumShortSqueezeRatio ≠ 0) .badRational
  let cp ← shrink (fun n => n / 2 + n % 2) 128
    (sp.base.amount / sp.quote.amount * (collateralRatioDenom / f.maximumShortSqueezeRatio))
  mkPrice ⟨cp.num, sp.base.assetId⟩ ⟨cp.den, sp.quote.assetId⟩

/-! ### Prices times ratios -/

/-- The loop of `operator *` of a price and a ratio, and whether it has halved -/
def scaleLoop : Nat → Bool → ℚ → Eval (ℚ × Bool)
  | 0, _, _ => throw .outOfFuel
  | n + 1, shrinked, cp =>
    if cp.num > maxShareSupply ∨ (cp.den : Int) > maxShareSupply then
      if cp.num = 1 then .ok (1 / maxShareSupply, shrinked)
      else if cp.den = 1 then .ok (maxShareSupply, shrinked)
      else scaleLoop n true (((cp.num / 2 : Int) : ℚ) / ((cp.den / 2 : Nat) : ℚ))
    else .ok (cp, shrinked)

/-- Whether the first ratio is nearer to the third than the second is. The code takes the differences in 128 bits, which do not hold
    all of them. -/
class RationalDistance where
  nearer : ℚ → ℚ → ℚ → Bool

/-- The exact differences -/
instance : RationalDistance := ⟨fun ncp cp ocp => (if ncp < ocp then ocp - ncp else ncp - ocp) < (if cp < ocp then ocp - cp else cp - ocp)⟩

/-- The choice between the halved ratio and the one with a part 1, by their distances to the exact one -/
def scaleClosest [RationalDistance] (ocp cp : ℚ) : ℚ :=
  let num : Int := if ocp.num > ocp.den then Min.min (ocp.num / ocp.den) maxShareSupply else 1
  let den : Int := if ocp.num > ocp.den then 1 else Min.min (ocp.den / ocp.num) maxShareSupply
  let ncp : ℚ := num / den
  if num = maxShareSupply ∨ den = maxShareSupply then ncp
  else if RationalDistance.nearer ncp cp ocp then ncp
  else cp

/-- `operator *` of a price and a ratio -/
def scale [RationalDistance] (p : Price) (r : ℚ) : Eval Price := do
  fcAssert p.Valid .priceNotPositive
  fcAssert (r.num > 0) .priceNotPositive
  if r.num = r.den then return p
  let ocp : ℚ := p.base.amount / p.quote.amount * r
  let (cp, shrinked) ← scaleLoop 128 false ocp
  let cp := if shrinked then scaleClosest ocp cp else cp
  let np ← mkPrice ⟨cp.num, p.base.assetId⟩ ⟨cp.den, p.quote.assetId⟩
  let np := if (r.num > r.den ∧ np.lt p) ∨ (r.num < r.den ∧ p.lt np) then p else np
  fcAssert np.Valid .priceNotPositive
  return np

end Market

end Khc
