import Khc.Text.Amount
import Mathlib.Data.List.DropRight

/-! The texts of volumes, prices and price changes that the API returns (`app/util.cpp`). -/

namespace Khc.Text.MarketData

open Lib
open Chain (Price maxInt64)

/-- What the functions assert of their arguments -/
inductive Error
  /-- `_price.base.amount >= 0` and its counterparts -/
  | negativeAmount
  /-- `base_precision <= 19` and `quote_precision <= 19` -/
  | precisionTooLarge
  /-- `old_price.base.asset_id == new_price.base.asset_id`, and the same of the quotes -/
  | assetMismatch
  deriving DecidableEq, Repr

abbrev Eval := Except Error

/-- A result of `fc::uint128` arithmetic -/
def uint128 (x : Nat) : Nat := x % 2 ^ 128

/-- `fc::uint128::max_value()` -/
def maxUint128 : Nat := 2 ^ 128 - 1

/-- A result of `u256` arithmetic -/
def uint256 (x : Nat) : Nat := x % 2 ^ 256

/-- `to_capped128`; the two halves of the result are taken apart and put together. -/
def toCapped128 (t : Nat) : Nat :=
  if t ≥ maxUint128 then maxUint128 else t / 2 ^ 64 * 2 ^ 64 + (t - t / 2 ^ 64 * 2 ^ 64)

/-- `s.find_last_not_of( c )` of a text with other characters -/
def findLastNotOf (s : List Char) (c : Char) : Nat := (s.rdropWhile (· = c)).length - 1

/-- `uint128_amount_to_string`. A number of 128 bits has at most 39 digits, so that the lengths fit into `uint8_t`. -/
def uint128AmountToString (amount precision : Nat) : List Char :=
  let s := Nat.toDigits 10 amount
  if precision = 0 ∨ amount = 0 then s
  else
    let pos := findLastNotOf s '0'
    let len := s.length
    if len > precision then
      let leftLen := len - precision
      substr s 0 leftLen ++ if pos ≥ leftLen then '.' :: substr s leftLen (pos - leftLen + 1) else []
    else ['0', '.'] ++ List.replicate (precision - len) '0' ++ substr s 0 (pos + 1)

/-- The amounts of a price, with the greatest one over one for an infinite price -/
def finite (base quote : Int) : Int × Int := if quote = 0 then (maxInt64, 1) else (base, quote)

/-- `price_to_string` -/
def priceToString (price : Price) (basePrecision quotePrecision : Nat) : Eval (List Char) := do
  if price.base.amount = 0 then return ['0']
  ensure (price.base.amount ≥ 0) .negativeAmount
  ensure (price.quote.amount ≥ 0) .negativeAmount
  ensure (basePrecision ≤ 19) .precisionTooLarge
  ensure (quotePrecision ≤ 19) .precisionTooLarge
  let newPrice := finite price.base.amount price.quote.amount
  -- times 10^19 for the accuracy
  let price128 := uint128 (newPrice.1.toNat * 10000000000000000000) / newPrice.2.toNat
  return uint128AmountToString price128 (19 + basePrecision - quotePrecision)

/-- The same, with one over the greatest amount for a price of zero -/
def finitePositive (base quote : Int) : Int × Int := if base = 0 then (1, maxInt64) else finite base quote

/-- The difference in hundredths of a percent of the old price -/
def diffPercent (diff128 old128 : Nat) : Nat :=
  if diff128 ≤ maxUint128 / 10000 then uint128 (diff128 * 10000) / old128
  else toCapped128 (uint256 (diff128 * 10000) / old128)

/-- `price_diff_percent_string` -/
def priceDiffPercentString (oldPrice newPrice : Price) : Eval (List Char) := do
  ensure (oldPrice.base.assetId = newPrice.base.assetId) .assetMismatch
  ensure (oldPrice.quote.assetId = newPrice.quote.assetId) .assetMismatch
  ensure (oldPrice.base.amount ≥ 0) .negativeAmount
  ensure (oldPrice.quote.amount ≥ 0) .negativeAmount
  ensure (newPrice.base.amount ≥ 0) .negativeAmount
  ensure (newPrice.quote.amount ≥ 0) .negativeAmount
  let oldPrice1 := finitePositive oldPrice.base.amount oldPrice.quote.amount
  let newPrice1 := finitePositive newPrice.base.amount newPrice.quote.amount
  let new128 := uint128 (newPrice1.1.toNat * oldPrice1.2.toNat)
  let old128 := uint128 (oldPrice1.1.toNat * newPrice1.2.toNat)
  let diff128 := if new128 ≥ old128 then new128 - old128 else old128 - new128
  let diffStr := uint128AmountToString (diffPercent diff128 old128) 2
  return if new128 ≥ old128 ∨ diffStr = ['0'] then diffStr else '-' :: diffStr

end Khc.Text.MarketData
