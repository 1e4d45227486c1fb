import Khc.Chain.Database

/-! # Fees by the schedule, and the scaling of the fee for registering accounts -/

/-! Fees in any asset (`fee_schedule::calculate_fee` of `protocol/fee_schedule.cpp`). What an operation costs by the parameters
    of its type, which `calc_fee_visitor` looks up, is the base value here. -/

namespace Khc.Chain

open Lib

/-- `price::unit_price` -/
def Price.unitPrice (a : AssetId) : Price := ⟨⟨1, a⟩, ⟨1, a⟩⟩

/-- `operator <` of assets -/
def Asset.less (a b : Asset) : Eval Bool := do
  fcAssert (a.assetId = b.assetId) .assetsDiffer
  return decide (a.amount < b.amount)

namespace FeeSchedule

/-- "`scaled`", in units of a hundredth of a percent -/
def scaledFee (baseValue scale : Nat) : Int := baseValue * scale / 10000

/-- The loop of `calculate_fee`, for a number of rounds: the result is incremented while it converts to less than the fee. -/
def raise (coreExchangeRate : Price) (scaled : Asset) : Nat → Asset → Option (Eval Asset)
  | 0, _ => none
  | fuel + 1, result =>
    match result.mul coreExchangeRate >>= fun converted => converted.less scaled with
    | .error e => some (.error e)
    | .ok false => some (.ok result)
    | .ok true =>
      match safe (result.amount + 1) with
      | .error e => some (.error e)
      | .ok amount => raise coreExchangeRate scaled fuel { result with amount }

/-- `calculate_fee`, with a number of rounds for its loop; none if they run out. -/
def calculateFee (baseValue scale : Nat) (coreExchangeRate : Price) (fuel : Nat) : Option (Eval Asset) :=
  let scaled := scaledFee baseValue scale
  if scaled ≤ maxShareSupply then
    match (Asset.mk scaled 0).mul coreExchangeRate with
    | .error e => some (.error e)
    | .ok result => (raise coreExchangeRate ⟨scaled, 0⟩ fuel result).map fun r => do
      let result ← r
      fcAssert (result.amount ≤ maxShareSupply) .productTooLarge
      return result
  else some (.error .productTooLarge)

/-- `generic_evaluator::calculate_fee_for_operation` -/
def calculateFeeForOperation (baseValue scale : Nat) (fuel : Nat) : Option (Eval Int) :=
  (calculateFee baseValue scale (.unitPrice 0) fuel).map fun r => r.map (·.amount)

end FeeSchedule

end Khc.Chain

/-! The fee for registering accounts is scaled as more of them register (`account_create_evaluator::do_apply`), until the next
    maintenance removes the scaling (`database::perform_chain_maintenance`). Shifts by the width of a number or more, and
    remainders by zero, are undefined. -/

namespace Khc.Fees

open Lib Chain

/-- `chain_parameters`: what `validate` checks, and what scales the fee -/
structure ChainParameters where
  blockInterval : UInt8 := 5
  maintenanceInterval : UInt32 := 60
  committeeProposalReviewPeriod : UInt32 := 1209600
  maximumTransactionSize : UInt32 := 2048
  maximumBlockSize : UInt32 := 2000000
  maximumTimeUntilExpiration : UInt32 := 600
  maximumProposalLifetime : UInt32 := 2419200
  reservePercentOfFee : UInt16 := 2000
  networkPercentOfFee : UInt16 := 2000
  lifetimeReferrerPercentOfFee : UInt16 := 3000
  accountsPerFeeScale : UInt16 := 1000
  accountFeeScaleBitshifts : UInt8 := 4

namespace ChainParameters
variable (P : ChainParameters)

/-- `chain_parameters::validate`; the `validate` of the fees checks nothing. -/
def Valid : Prop :=
  P.reservePercentOfFee ≤ 10000 ∧ P.networkPercentOfFee ≤ 10000 ∧ P.lifetimeReferrerPercentOfFee ≤ 10000 ∧
  P.networkPercentOfFee.toNat + P.lifetimeReferrerPercentOfFee.toNat ≤ 10000 ∧
  1 ≤ P.blockInterval ∧ P.blockInterval ≤ 30 ∧ 0 < P.blockInterval ∧
  P.blockInterval.toUInt32 < P.maintenanceInterval ∧ P.maintenanceInterval % P.blockInterval.toUInt32 = 0 ∧
  1024 ≤ P.maximumTransactionSize ∧ 5120 ≤ P.maximumBlockSize ∧
  P.blockInterval.toUInt32 < P.maximumTimeUntilExpiration ∧
  P.blockInterval.toUInt32 < P.maximumProposalLifetime - P.committeeProposalReviewPeriod

instance : Decidable P.Valid := by
  unfold Valid
  infer_instance

end ChainParameters

/-- `basic_fee` of `account_create_operation`, and `accounts_registered_this_interval` -/
structure AccountFee where
  basicFee : UInt64
  accountsRegistered : UInt32
  deriving DecidableEq

/-- `<<=` -/
def shiftLeft (x : UInt64) (n : Nat) : Eval UInt64 := if n < 64 then .ok (x <<< UInt64.ofNat n) else .error .undefinedBehavior

/-- `>>=` -/
def shiftRight (x : UInt64) (n : Nat) : Eval UInt64 := if n < 64 then .ok (x >>> UInt64.ofNat n) else .error .undefinedBehavior

namespace AccountFee
variable (P : ChainParameters) (s : AccountFee)

/-- `account_create_evaluator::do_apply`, where it counts the account -/
def registerAccount : Eval AccountFee := do
  let accountsRegistered := s.accountsRegistered + 1
  if P.accountsPerFeeScale = 0 then throw .undefinedBehavior
  if accountsRegistered % P.accountsPerFeeScale.toUInt32 = 0 then do
    let basicFee ← shiftLeft s.basicFee P.accountFeeScaleBitshifts.toNat
    return { basicFee, accountsRegistered }
  else return { s with accountsRegistered }

/-- So many accounts register. -/
def registerAccounts (s : AccountFee) : Nat → Eval AccountFee
  | 0 => return s
  | n + 1 => do (← registerAccounts s n).registerAccount P

/-- `perform_chain_maintenance`, where it removes the scaling and starts an interval -/
def removeScaling : Eval AccountFee := do
  if P.accountsPerFeeScale = 0 then throw .undefinedBehavior
  let bits := P.accountFeeScaleBitshifts.toUInt32 * (s.accountsRegistered / P.accountsPerFeeScale.toUInt32)
  let basicFee ← shiftRight s.basicFee bits.toNat
  return { basicFee, accountsRegistered := 0 }

end AccountFee

end Khc.Fees
