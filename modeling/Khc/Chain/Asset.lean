import Khc.Lib.Except
import Mathlib.Algebra.Order.Ring.Int
import Mathlib.Tactic.Linarith

/-! Amounts, assets and prices (`protocol/types.hpp`, `protocol/asset.hpp`, `protocol/asset.cpp`).

A `share_type` is a `safe<int64_t>`: an integer whose sums and differences throw when they leave the signed
64-bit range. A product with a price is taken in unsigned 128-bit arithmetic. -/

namespace Khc.Chain

open Lib

/-- Instances of the object ids `1.2.x` and `1.3.x`. -/
abbrev AccountId := Nat
abbrev AssetId := Nat

/-- What a check, an operator or a lookup throws. The comments quote the assertion. -/
inductive Error
  /-- A sum, difference or negation of `safe<int64_t>` leaves the range. -/
  | overflow
  /-- `fc::uint128_t` division by zero. -/
  | divideByZero
  /-- `fc::uint128_t::to_uint64` of a value above 64 bits. -/
  | to_uint64
  /-- "Unable to find Object ${id}" -/
  | objectNotFound
  /-- "Unable to find asset '${sym}'." -/
  | symbolNotFound
  /-- An access outside a vector, or to an optional without a value: undefined behaviour in the source. -/
  | undefinedBehavior
  /-- `b.base.amount.value > 0` -/
  | priceNotPositive
  /-- `result <= GRAPHENE_MAX_SHARE_SUPPLY` -/
  | productTooLarge
  /-- "invalid asset * price" -/
  | invalidAssetTimesPrice
  /-- `base.asset_id != quote.asset_id` -/
  | priceOfOneAsset
  /-- `fee.amount >= 0` -/
  | feeNegative
  /-- "Account ${acct} '${name}' attempted to pay fee by using asset ${a} '${sym}', which is unauthorized due to
      whitelist / blacklist" -/
  | feeAssetUnauthorized
  /-- `fee_from_pool.asset_id == asset_id_type()` -/
  | feeNotConvertible
  /-- "Fee pool balance of '${b}' is less than the ${r} required to convert ${c}" -/
  | feePoolTooSmall
  /-- "Insufficient Fee Paid" -/
  | insufficientFeePaid
  /-- "Insufficient Balance: ${a}'s balance of ${b} is less than required ${r}" -/
  | insufficientBalance
  /-- `amount.amount > 0` of an operation -/
  | amountNotPositive
  /-- `amount <= GRAPHENE_MAX_SHARE_SUPPLY` of an operation -/
  | amountTooLarge
  /-- An operation that names the same account twice (`from != to`, `issuer != new_issuer`). -/
  | sameAccount
  /-- `is_valid_symbol(symbol)` -/
  | invalidSymbol
  /-- A check of `asset_options::validate`. -/
  | invalidAssetOptions
  /-- A check of `bitasset_options::validate`. -/
  | invalidBitassetOptions
  /-- A check of `project_asset_options::validate`. -/
  | invalidProjectAssetOptions
  /-- A flag or permission of bitassets on an asset that is not one. -/
  | bitassetFlagOnUserIssuedAsset
  /-- "Cannot have a User-Issued Asset implement a prediction market." -/
  | predictionMarketWithoutBitasset
  /-- `dummy.asset_id == asset_id_type(1)` of `asset_create_operation::validate`, and its counterpart in
      `asset_update_operation::validate` -/
  | coreExchangeRateAsset
  /-- `precision <= 12` -/
  | precisionTooLarge
  /-- A whitelist or blacklist longer than `maximum_asset_whitelist_authorities` -/
  | tooManyAuthorities
  /-- `asset_symbol_itr == asset_indx.end()` -/
  | symbolTaken
  /-- "bitasset and projasset cannot be set at the same time." -/
  | bitassetAndProjasset
  /-- "asset KHD must be exist." -/
  | khdMissing
  /-- "Asset ${a} (${id}) is not a market issued asset." -/
  | notMarketIssued
  /-- "please set khd feed price first" -/
  | khdPriceNotSet
  /-- "required power(${required_power}) must less than ${max_supply}" -/
  | requiredPowerTooLarge
  /-- "Power is not enough! power needs at least ${min}, and you only have ${power}" -/
  | powerNotEnough
  /-- "Asset must have a project name." -/
  | projectNameEmpty
  /-- "${prj_name} is already exists!" -/
  | projectNameTaken
  /-- `end_financing_time == start_financing_time + financing_cycle` -/
  | financingTimes
  /-- "The specified height ${sheight} is lower than the current height ${height}" -/
  | startBelowHead
  /-- `end_project_time == start_project_time + project_cycle` -/
  | projectTimes
  /-- "Asset ${s} may only be created by issuer of ${p}, ..." -/
  | parentSymbol
  /-- "Asset ${s} must end with alpha character before hardfork 620" -/
  | symbolMustEndAlpha
  /-- A check of `asset_create` on the backing of a bitasset. -/
  | bitassetBacking
  /-- A check of `asset_create` on a prediction market. -/
  | predictionMarketPrecision
  /-- "Cannot manually issue a market-issued asset." and the other refusals of a market-issued asset -/
  | marketIssued
  /-- An operation of the issuer by another account. -/
  | notIssuer
  /-- "before claim bitasset investment, projecter need issue asset to investors at first." -/
  | notIssuedToInvestors
  /-- An account that is not allowed to hold the asset. -/
  | unauthorized
  /-- `current_supply + amount <= max_supply` -/
  | exceedsMaxSupply
  /-- `(current_supply - amount) >= 0` -/
  | reserveTooLarge
  /-- "Asset ${asset} has transfer_restricted flag enabled" -/
  | transferRestricted
  /-- "Since Hardfork #199, updating issuer requires the use of asset_update_issuer_operation." -/
  | updateIssuerForbidden
  /-- "Not allowed until hardfork 199" -/
  | beforeHardfork199
  /-- "Cannot reinstate previously revoked issuer permissions on an asset." -/
  | permissionReinstated
  /-- "Flag change is forbidden by issuer permissions" -/
  | flagChangeForbidden
  /-- "investment must use ${asset}" -/
  | investmentMustUseKhd
  /-- "can't investment ${asset}" -/
  | cantInvestCore
  /-- "Asset ${a} (${id}) is not a project asset." -/
  | notProjectAsset
  /-- "asset must be a public offering type." -/
  | notPublicOffering
  /-- "financing end,current_financing_amount:${current_financing_amount},..." -/
  | financingEnd
  /-- "current block num(${curr_block_num}) need betweent [${start_block_num},${end_block_num}]" -/
  | outsideFinancingBlocks
  /-- "Financing is not over." -/
  | financingNotOver
  /-- "financing_confidential_supply(...) != financing_current_supply(...)" -/
  | raisedNotCurrent
  /-- "May have already sent tokens to investors." -/
  | alreadySentTokens
  /-- "Financing failed, Calculated value: ${total_to_issue}, total_issue: ${total_issue}." -/
  | calculatedValueTooLarge
  /-- "The total amount of financing is not right...." -/
  | totalInvestmentNotRight
  /-- "asset project is not in failed state." -/
  | notFailed
  /-- "asset financing_current_supply(${current}) have not enough to refund account(${account}) ..." -/
  | notEnoughToRefund
  /-- "account had refund investment in asset(${asset}) already." -/
  | refundedAlready
  /-- "account has no investment to refund in asset(${asset})" -/
  | nothingToRefund
  /-- "project is not financing end." -/
  | projectNotFinancingEnd
  /-- "issuer has claim all asset already." -/
  | claimedAll
  /-- "asset(${asset}) has no investment less." -/
  | noInvestmentLess
  /-- "now_block(${block}),next claim block(${nblock})" -/
  | beforeClaimBlock
  /-- "issuer claim amount(${amount}),but asset(${asset}) financing_current_supply(${csupply}) is not enough" -/
  | claimTooLarge
  /-- "project issuer has not issue token at this time." -/
  | tokenNotIssued
  /-- "${account} have already claim ${a} assets." -/
  | alreadyClaimed
  /-- "${account} is not an investor of ${a} assets." -/
  | notInvestor
  /-- "tokens(${tokens}) exceeds the upper limit investment_current_supply(${s})." -/
  | tokensExceedUnclaimed
  /-- "Account(${account}) Convert Power Refer Asset (${symbol}) is not (${ref_asset})" -/
  | powerReferAsset
  /-- "power_amount:${power_amount} need less than ${max}" and "total total_power_amount:${total} need in [0,${max}] " -/
  | powerOutOfRange
  /-- A key that a unique index holds already. -/
  | notUnique
  /-- `assert` -/
  | assertion
  /-- `a.asset_id == b.asset_id` of a comparison -/
  | assetsDiffer
  /-- A check of `withdraw_permission_create_operation::validate` and its counterparts -/
  | invalidWithdrawPermission
  /-- `period_start_time > head_block_time`, and `>=` of an update -/
  | periodStartsTooEarly
  /-- `withdrawal_period_sec >= block_interval` -/
  | periodTooShort
  /-- `expiration > head_block_time` -/
  | permissionExpired
  /-- A permission of other accounts. -/
  | permissionOfOthers
  /-- `period_start_time <= head_block_time` -/
  | periodNotStarted
  /-- `amount_to_withdraw <= available_this_period( head_block_time )` -/
  | withdrawalLimitExceeded
  deriving DecidableEq, Repr

/-- A computation that may throw. A thrown error leaves the state as it was: `push_transaction` and `push_block`
    undo the session in which it is thrown. -/
abbrev Eval := Except Error

/-- `FC_ASSERT`, and `KHC_WASSERT` and `KHC_EASSERT`, which also log. -/
def fcAssert (c : Prop) [Decidable c] (e : Error) : Eval Unit := if c then .ok () else .error e

@[simp] theorem fcAssert_eq_ok {c : Prop} [Decidable c] {e : Error} {u : Unit} : fcAssert c e = .ok u ↔ c := by
  unfold fcAssert
  split <;> simp_all

theorem fcAssert_eq_error {c : Prop} [Decidable c] {e e' : Error} : fcAssert c e = .error e' ↔ ¬c ∧ e = e' := by
  unfold fcAssert
  split <;> simp_all

/-! ### Amounts -/

/-- `GRAPHENE_MAX_SHARE_SUPPLY` -/
def maxShareSupply : Int := 1000000000000000000

/-- The range of `int64_t`. -/
def InInt64 (x : Int) : Prop := -9223372036854775808 ≤ x ∧ x ≤ 9223372036854775807

instance (x : Int) : Decidable (InInt64 x) := inferInstanceAs (Decidable (_ ∧ _))

/-- A result of `safe<int64_t>` arithmetic. -/
def safe (x : Int) : Eval Int := if InInt64 x then .ok x else .error .overflow

theorem safe_eq_ok {x y : Int} : safe x = .ok y ↔ InInt64 x ∧ y = x := by
  unfold safe
  split
  · simp_all [eq_comm]
  · simp_all

theorem safe_eq_error {x : Int} {e : Error} (h : safe x = .error e) : e = .overflow := by
  unfold safe at h
  split at h
  · cases h
  · exact (Except.error.inj h).symm

/-- The value of a 64-bit number as an unsigned 128-bit one. -/
def toU128 (x : Int) : Int := x % 2 ^ 128

theorem toU128_of_nonneg {x : Int} (h : 0 ≤ x) (hx : InInt64 x) : toU128 x = x :=
  Int.emod_eq_of_lt h (by have := hx.2; omega)

/-- `(fc::uint128_t(a) * b / c).to_uint64()`, read back as an `int64_t`. -/
def uint128MulDiv (a b c : Int) : Eval Int := do
  if c = 0 then throw .divideByZero
  let q := toU128 (toU128 a * toU128 b) / toU128 c
  if q ≥ 2 ^ 64 then throw .to_uint64
  return if q ≥ 2 ^ 63 then q - 2 ^ 64 else q

theorem uint128MulDiv_eq_error {a b c : Int} {e : Error} (h : uint128MulDiv a b c = .error e) :
    e = .divideByZero ∨ e = .to_uint64 := by
  unfold uint128MulDiv at h
  split at h
  · exact .inl (throw_eq_error.mp h).symm
  · simp only at h
    split at h
    · exact .inr (throw_eq_error.mp h).symm
    · exact absurd h pure_eq_error.mp

/-- The largest amount. -/
def maxInt64 : Int := 9223372036854775807

/-- A part of an amount is taken without loss. -/
theorem uint128MulDiv_part {a b c : Int} (ha : 0 ≤ a) (ha' : a ≤ maxInt64) (hb : 0 ≤ b) (hbc : b ≤ c) (hc : 0 < c) (hc' : c ≤ maxInt64) :
    uint128MulDiv a b c = .ok (a * b / c) := by
  unfold maxInt64 at ha' hc'
  have hle : a * b ≤ 9223372036854775807 * 9223372036854775807 := mul_le_mul ha' (hbc.trans hc') hb (by norm_num)
  have hpart : a * b / c ≤ a := by
    refine Int.ediv_le_of_le_mul hc ?_
    exact mul_le_mul_of_nonneg_left hbc ha
  have hnum : toU128 (toU128 a * toU128 b) = a * b := by
    rw [toU128_of_nonneg ha ⟨by omega, ha'⟩, toU128_of_nonneg hb ⟨by omega, by omega⟩]
    exact Int.emod_eq_of_lt (mul_nonneg ha hb) (by omega)
  have hden : toU128 c = c := toU128_of_nonneg hc.le ⟨by omega, hc'⟩
  have hnot : ¬a * b / c ≥ 2 ^ 64 := by omega
  have hnot' : ¬a * b / c ≥ 2 ^ 63 := by omega
  rw [uint128MulDiv, if_neg hc.ne', hnum, hden]
  simp only [if_neg hnot, if_neg hnot']
  rfl

/-! ### Assets and prices -/

structure Asset where
  amount : Int
  assetId : AssetId
  deriving DecidableEq, Repr

/-- `operator -` of an asset -/
def Asset.neg (a : Asset) : Asset := ⟨-a.amount, a.assetId⟩

structure Price where
  base : Asset
  quote : Asset
  deriving DecidableEq, Repr

/-- `price()` -/
def Price.default : Price := ⟨⟨0, 0⟩, ⟨0, 0⟩⟩

/-- `operator ==` of prices compares the products in unsigned 128-bit arithmetic. -/
def Price.eq (a b : Price) : Bool :=
  a.base.assetId == b.base.assetId && a.quote.assetId == b.quote.assetId &&
    toU128 (toU128 b.quote.amount * a.base.amount) == toU128 (toU128 a.quote.amount * b.base.amount)

def Price.isNull (p : Price) : Bool := p.eq Price.default

def Price.validate (p : Price) : Eval Unit := do
  fcAssert (p.base.amount > 0) .priceNotPositive
  fcAssert (p.quote.amount > 0) .priceNotPositive
  fcAssert (p.base.assetId ≠ p.quote.assetId) .priceOfOneAsset

/-- `operator *` of an asset and a price -/
def Asset.mul (a : Asset) (b : Price) : Eval Asset :=
  if a.assetId = b.base.assetId then do
    fcAssert (b.base.amount > 0) .priceNotPositive
    let result := toU128 (toU128 a.amount * b.quote.amount) / b.base.amount
    fcAssert (result ≤ maxShareSupply) .productTooLarge
    return ⟨result, b.quote.assetId⟩
  else if a.assetId = b.quote.assetId then do
    fcAssert (b.quote.amount > 0) .priceNotPositive
    let result := toU128 (toU128 a.amount * b.base.amount) / b.quote.amount
    fcAssert (result ≤ maxShareSupply) .productTooLarge
    return ⟨result, b.base.assetId⟩
  else throw .invalidAssetTimesPrice

/-- A product with a price is an amount between 0 and `GRAPHENE_MAX_SHARE_SUPPLY`. -/
theorem Asset.mul_bounds {a r : Asset} {b : Price} (h : a.mul b = .ok r) : 0 ≤ r.amount ∧ r.amount ≤ maxShareSupply := by
  unfold Asset.mul at h
  split at h
  · simp only [bind_eq_ok, fcAssert_eq_ok, pure_eq_ok] at h
    obtain ⟨-, hpos, -, hle, rfl⟩ := h
    exact ⟨Int.ediv_nonneg (Int.emod_nonneg _ (by norm_num)) (le_of_lt hpos), hle⟩
  · split at h
    · simp only [bind_eq_ok, fcAssert_eq_ok, pure_eq_ok] at h
      obtain ⟨-, hpos, -, hle, rfl⟩ := h
      exact ⟨Int.ediv_nonneg (Int.emod_nonneg _ (by norm_num)) (le_of_lt hpos), hle⟩
    · simp [throw_ne_ok] at h

/-- A product of an amount of the quote asset, which 128 bits hold -/
theorem Asset.mul_quote_eq_ok {a : Int} {b : Price} {r : Asset} (ha : 0 ≤ a) (ha' : a ≤ maxInt64) (hb : 0 ≤ b.base.amount)
    (hb' : b.base.amount ≤ maxInt64) (hq : 0 < b.quote.amount) (hne : b.base.assetId ≠ b.quote.assetId) :
    (Asset.mk a b.quote.assetId).mul b = .ok r ↔
      a * b.base.amount / b.quote.amount ≤ maxShareSupply ∧ r = ⟨a * b.base.amount / b.quote.amount, b.base.assetId⟩ := by
  unfold maxInt64 at ha' hb'
  have hle : a * b.base.amount ≤ 9223372036854775807 * 9223372036854775807 := mul_le_mul ha' hb' hb (by norm_num)
  have hnum : toU128 (toU128 a * b.base.amount) = a * b.base.amount := by
    rw [toU128_of_nonneg ha ⟨by omega, ha'⟩]
    exact Int.emod_eq_of_lt (mul_nonneg ha hb) (hle.trans_lt (by norm_num))
  unfold Asset.mul
  rw [if_neg hne.symm, if_pos rfl]
  simp only [bind_eq_ok, fcAssert_eq_ok, pure_eq_ok, hnum]
  constructor
  · rintro ⟨-, -, -, hmax, rfl⟩
    exact ⟨hmax, rfl⟩
  · rintro ⟨hmax, rfl⟩
    exact ⟨(), hq, (), hmax, rfl⟩

/-- `asset::scaled_precision`, a power of ten -/
def Asset.scaledPrecision (precision : Nat) : Eval Int := do
  fcAssert (precision < 19) .precisionTooLarge
  return 10 ^ precision

end Khc.Chain
