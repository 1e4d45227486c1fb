import Khc.Fees.FeeSchedule
import Khc.Chain.Inversion

/-! A fee in another asset: `calculate_fee` returns the least amount that converts back to the core fee, where the amount that
    it converts back to is within the range of `operator *`. -/

namespace Khc.Chain.FeeSchedule

open Lib

/-- A core exchange rate, written either way round -/
structure ExchangeRate where
  core : Int
  fee : Int
  feeAsset : AssetId
  coreIsBase : Bool
  core_pos : 0 < core
  core_le : core ≤ maxShareSupply
  fee_pos : 0 < fee
  fee_le : fee ≤ maxShareSupply
  notCore : feeAsset ≠ 0

namespace ExchangeRate
variable (R : ExchangeRate) {x y s : Int} {fuel : Nat}

def price : Price := if R.coreIsBase then ⟨⟨R.core, 0⟩, ⟨R.fee, R.feeAsset⟩⟩ else ⟨⟨R.fee, R.feeAsset⟩, ⟨R.core, 0⟩⟩

/-- What an amount of the fee asset converts to -/
def toCore (x : Int) : Int := x * R.core / R.fee

/-- The least amount that converts to the core fee -/
def leastFee (s : Int) : Int := (s * R.fee + R.core - 1) / R.core

/-- An amount, if `operator *` may return it -/
def inRange (a : Asset) : Eval Asset := if a.amount ≤ maxShareSupply then .ok a else .error .productTooLarge

end ExchangeRate

theorem scaledFee_nonneg (baseValue scale : Nat) : 0 ≤ scaledFee baseValue scale :=
  Int.ediv_nonneg (Int.mul_nonneg (Int.natCast_nonneg _) (Int.natCast_nonneg _)) (by norm_num)

/-- What `operator *` returns, where 128 bits hold the product -/
theorem mul_base {p : Price} {x : Int} (hx : 0 ≤ x) (hx' : x ≤ maxInt64) (hb : 0 < p.base.amount)
    (hq : 0 ≤ p.quote.amount) (hq' : p.quote.amount ≤ maxInt64) :
    (Asset.mk x p.base.assetId).mul p =
      ExchangeRate.inRange ⟨x * p.quote.amount / p.base.amount, p.quote.assetId⟩ := by
  unfold maxInt64 at hx' hq'
  have hle : x * p.quote.amount ≤ 9223372036854775807 * 9223372036854775807 := mul_le_mul hx' hq' hq (by norm_num)
  have hnum : toU128 (toU128 x * p.quote.amount) = x * p.quote.amount := by
    rw [toU128_of_nonneg hx ⟨by omega, hx'⟩]
    exact Int.emod_eq_of_lt (mul_nonneg hx hq) (hle.trans_lt (by norm_num))
  unfold Asset.mul ExchangeRate.inRange fcAssert
  rw [if_pos rfl, if_pos hb, hnum]
  dsimp only
  split <;> rfl

theorem mul_quote {p : Price} {x : Int} (hne : p.base.assetId ≠ p.quote.assetId) (hx : 0 ≤ x) (hx' : x ≤ maxInt64)
    (hq : 0 < p.quote.amount) (hb : 0 ≤ p.base.amount) (hb' : p.base.amount ≤ maxInt64) :
    (Asset.mk x p.quote.assetId).mul p =
      ExchangeRate.inRange ⟨x * p.base.amount / p.quote.amount, p.base.assetId⟩ := by
  rw [← mul_base (p := ⟨p.quote, p.base⟩) hx hx' hq hb hb']
  unfold Asset.mul
  rw [if_neg hne.symm, if_pos rfl, if_pos rfl]

namespace ExchangeRate
variable {R : ExchangeRate} {x y s : Int} {fuel : Nat}

theorem mul_core (hs : 0 ≤ s) (hs' : s ≤ maxShareSupply) :
    (Asset.mk s 0).mul R.price = inRange ⟨s * R.fee / R.core, R.feeAsset⟩ := by
  have hfee := R.fee_le
  have hle : maxShareSupply ≤ maxInt64 := by decide
  unfold price
  split
  · exact mul_base (p := ⟨⟨R.core, 0⟩, ⟨R.fee, R.feeAsset⟩⟩) hs (hs'.trans hle) R.core_pos R.fee_pos.le (hfee.trans hle)
  · exact mul_quote (p := ⟨⟨R.fee, R.feeAsset⟩, ⟨R.core, 0⟩⟩) R.notCore hs (hs'.trans hle) R.core_pos R.fee_pos.le
      (hfee.trans hle)

theorem mul_fee (hx : 0 ≤ x) (hx' : x ≤ maxInt64) : (Asset.mk x R.feeAsset).mul R.price = inRange ⟨R.toCore x, 0⟩ := by
  have hcore := R.core_le
  have hle : maxShareSupply ≤ maxInt64 := by decide
  unfold price
  split
  · exact mul_quote (p := ⟨⟨R.core, 0⟩, ⟨R.fee, R.feeAsset⟩⟩) R.notCore.symm hx hx' R.fee_pos R.core_pos.le
      (hcore.trans hle)
  · exact mul_base (p := ⟨⟨R.fee, R.feeAsset⟩, ⟨R.core, 0⟩⟩) hx hx' R.fee_pos R.core_pos.le (hcore.trans hle)

/-- The least fee is the least amount that covers the core fee. -/
theorem leastFee_le_iff : R.leastFee s ≤ x ↔ s ≤ R.toCore x := by
  unfold leastFee toCore
  rw [Int.le_ediv_iff_mul_le R.fee_pos, ← Int.lt_add_one_iff, Int.ediv_lt_iff_lt_mul R.core_pos, add_mul, one_mul]
  constructor <;> intro h <;> omega

theorem leastFee_nonneg (hs : 0 ≤ s) : 0 ≤ R.leastFee s := by
  have hmul := Int.mul_nonneg hs R.fee_pos.le
  have hcore := R.core_pos
  exact Int.ediv_nonneg (by omega) hcore.le

/-- Rounding up adds one at most. -/
theorem leastFee_cases : R.leastFee s = s * R.fee / R.core ∨ R.leastFee s = s * R.fee / R.core + 1 := by
  have hcore := R.core_pos
  have hle : s * R.fee / R.core ≤ R.leastFee s := Int.ediv_le_ediv hcore (by omega)
  have hge : R.leastFee s ≤ s * R.fee / R.core + 1 := by
    have hadd := Int.add_mul_ediv_right (s * R.fee) 1 hcore.ne'
    rw [one_mul] at hadd
    rw [← hadd]
    exact Int.ediv_le_ediv hcore (by omega)
  omega

/-- What is rounded down converts to no more than the fee. -/
theorem toCore_rounded_le : R.toCore (s * R.fee / R.core) ≤ s := by
  have hmul := Int.ediv_mul_le (s * R.fee) R.core_pos.ne'
  exact (Int.ediv_le_ediv R.fee_pos hmul).trans_eq (Int.mul_ediv_cancel s R.fee_pos.ne')

theorem toCore_mono (h : x ≤ y) : R.toCore x ≤ R.toCore y :=
  Int.ediv_le_ediv R.fee_pos (mul_le_mul_of_nonneg_right h R.core_pos.le)

theorem less_of_inRange (hy : y ≤ maxShareSupply) :
    (inRange ⟨y, 0⟩ >>= fun converted => converted.less ⟨s, 0⟩) = .ok (decide (y < s)) := by
  have hin : inRange ⟨y, 0⟩ = .ok ⟨y, 0⟩ := if_pos hy
  rw [hin]
  exact bind_eq_ok.mpr ⟨⟨y, 0⟩, rfl, bind_eq_ok.mpr ⟨(), if_pos rfl, rfl⟩⟩

/-- The amount covers the fee: the loop stops, or its condition throws. -/
theorem raise_covered (hx : 0 ≤ x) (hx' : x ≤ maxInt64) (hcovers : s ≤ R.toCore x) :
    raise R.price ⟨s, 0⟩ (fuel + 1) ⟨x, R.feeAsset⟩ =
      some (if R.toCore x ≤ maxShareSupply then .ok ⟨x, R.feeAsset⟩ else .error .productTooLarge) := by
  rw [raise, mul_fee hx hx']
  by_cases hmax : R.toCore x ≤ maxShareSupply
  · rw [less_of_inRange hmax, if_pos hmax, decide_eq_false (not_lt.mpr hcovers)]
  · unfold inRange
    rw [if_neg hmax, if_neg hmax]
    rfl

/-- The amount does not cover the fee: the next one is tried. -/
theorem raise_short (hx : 0 ≤ x) (hx' : x ≤ maxShareSupply) (hshort : R.toCore x < s) (hs : s ≤ maxShareSupply) :
    raise R.price ⟨s, 0⟩ (fuel + 1) ⟨x, R.feeAsset⟩ = raise R.price ⟨s, 0⟩ fuel ⟨x + 1, R.feeAsset⟩ := by
  have hle : maxShareSupply ≤ maxInt64 := by decide
  have hsafe : safe (x + 1) = .ok (x + 1) := by
    unfold maxShareSupply at hx'
    exact safe_eq_ok.mpr ⟨⟨by omega, by omega⟩, rfl⟩
  rw [raise, mul_fee hx (hx'.trans hle), less_of_inRange (hshort.le.trans hs), decide_eq_true hshort]
  dsimp only
  rw [hsafe]

/-- `calculate_fee` ends after two rounds, with the least fee if that and what it converts to are in the range. -/
theorem calculateFee_eq {baseValue scale : Nat} (hs : scaledFee baseValue scale ≤ maxShareSupply) :
    calculateFee baseValue scale R.price (fuel + 2) = some
      (if R.leastFee (scaledFee baseValue scale) ≤ maxShareSupply ∧
          R.toCore (R.leastFee (scaledFee baseValue scale)) ≤ maxShareSupply then
        .ok ⟨R.leastFee (scaledFee baseValue scale), R.feeAsset⟩
      else .error .productTooLarge) := by
  have hpos := scaledFee_nonneg baseValue scale
  have hle : maxShareSupply ≤ maxInt64 := by decide
  unfold calculateFee
  generalize scaledFee baseValue scale = s at hs hpos ⊢
  dsimp only
  rw [if_pos hs, mul_core hpos hs]
  have hround : 0 ≤ s * R.fee / R.core := Int.ediv_nonneg (Int.mul_nonneg hpos R.fee_pos.le) R.core_pos.le
  have hround_le : s * R.fee / R.core ≤ R.leastFee s := by rcases R.leastFee_cases (s := s) with h | h <;> omega
  by_cases hmax : s * R.fee / R.core ≤ maxShareSupply
  · have hstart : inRange ⟨s * R.fee / R.core, R.feeAsset⟩ = .ok ⟨s * R.fee / R.core, R.feeAsset⟩ := if_pos hmax
    have hloop : raise R.price ⟨s, 0⟩ (fuel + 2) ⟨s * R.fee / R.core, R.feeAsset⟩ =
        some (if R.toCore (R.leastFee s) ≤ maxShareSupply then .ok ⟨R.leastFee s, R.feeAsset⟩
          else .error .productTooLarge) := by
      rcases R.leastFee_cases (s := s) with heq | heq
      · rw [← heq]
        exact raise_covered (heq ▸ hround) ((heq ▸ hmax).trans hle) (leastFee_le_iff.mp (le_refl _))
      · have hshort : R.toCore (s * R.fee / R.core) < s := by
          rw [← not_le, ← leastFee_le_iff]
          omega
        rw [raise_short hround hmax hshort hs, ← heq]
        refine raise_covered (heq ▸ by omega) ?_ (leastFee_le_iff.mp (le_refl _))
        unfold maxShareSupply at hmax
        unfold maxInt64
        omega
    rw [hstart]
    dsimp only
    rw [hloop]
    by_cases hcore : R.toCore (R.leastFee s) ≤ maxShareSupply
    · by_cases hfee : R.leastFee s ≤ maxShareSupply
      · rw [if_pos hcore, if_pos ⟨hfee, hcore⟩]
        exact congrArg some (bind_eq_ok.mpr ⟨_, rfl, bind_eq_ok.mpr ⟨(), if_pos hfee, rfl⟩⟩)
      · rw [if_pos hcore, if_neg fun h => hfee h.1]
        unfold fcAssert
        simp only [Option.map_some, ok_bind, if_neg hfee]
        rfl
    · rw [if_neg hcore, if_neg fun h => hcore h.2]
      rfl
  · have hstart : inRange ⟨s * R.fee / R.core, R.feeAsset⟩ = .error .productTooLarge := if_neg hmax
    rw [hstart, if_neg fun h => hmax (hround_le.trans h.1)]

/-! ### The evaluator -/

variable {d : Database} {account : AccountId} {A : AssetObject} {core : Int}

/-- The account is one that may pay with the asset. -/
def MayPay (d : Database) (account : AccountId) (asset : AssetId) (A : AssetObject) : Prop :=
  ∃ payer, d.getAccount account = .ok payer ∧
    (d.headBlockTime > hardfork419Time → d.isAuthorizedAsset payer asset A = true)

/-- `prepare_fee` converts an amount of the fee asset, if the fee pool has as much. -/
theorem prepareFee_eq_ok_iff (hA : d.getAsset R.feeAsset = .ok A) (hrate : A.options.coreExchangeRate = R.price)
    (hx : 0 ≤ x) (hx' : x ≤ maxShareSupply) :
    d.prepareFee account ⟨x, R.feeAsset⟩ = .ok core ↔ MayPay d account R.feeAsset A ∧
      R.toCore x ≤ maxShareSupply ∧ R.toCore x ≤ A.dynamicData.feePool ∧ core = R.toCore x := by
  have hle : maxShareSupply ≤ maxInt64 := by decide
  have hconvert : (do
      if R.feeAsset = 0 then return x
      let feeFromPool ← (Asset.mk x R.feeAsset).mul A.options.coreExchangeRate
      fcAssert (feeFromPool.assetId = 0) .feeNotConvertible
      fcAssert (feeFromPool.amount ≤ A.dynamicData.feePool) .feePoolTooSmall
      return feeFromPool.amount : Eval Int) = .ok core ↔
      R.toCore x ≤ maxShareSupply ∧ R.toCore x ≤ A.dynamicData.feePool ∧ core = R.toCore x := by
    rw [if_neg R.notCore, hrate, mul_fee hx (hx'.trans hle)]
    unfold inRange
    by_cases hmax : R.toCore x ≤ maxShareSupply
    · rw [if_pos hmax]
      simp only [ok_bind, bind_eq_ok, fcAssert_eq_ok, pure_eq_ok]
      constructor
      · rintro ⟨-, -, -, hpool, rfl⟩
        exact ⟨hmax, hpool, rfl⟩
      · rintro ⟨-, hpool, rfl⟩
        exact ⟨(), trivial, (), hpool, rfl⟩
    · rw [if_neg hmax]
      constructor
      · rintro ⟨⟩
      · rintro ⟨hmax', -⟩
        exact absurd hmax' hmax
  unfold Database.prepareFee
  rw [hA]
  simp only [bind_eq_ok, fcAssert_eq_ok]
  constructor
  · rintro ⟨-, -, payer, hpayer, _, ⟨⟩, h⟩
    split at h
    next htime =>
      obtain ⟨_, hauth, h⟩ := bind_eq_ok.mp h
      exact ⟨⟨payer, hpayer, fun _ => fcAssert_eq_ok.mp hauth⟩, hconvert.mp h⟩
    next htime => exact ⟨⟨payer, hpayer, fun h => absurd h htime⟩, hconvert.mp h⟩
  · rintro ⟨⟨payer, hpayer, hauth⟩, h⟩
    refine ⟨(), hx, payer, hpayer, A, rfl, ?_⟩
    split
    next htime => exact bind_eq_ok.mpr ⟨(), fcAssert_eq_ok.mpr (hauth htime), hconvert.mpr h⟩
    next => exact hconvert.mpr h

/-- With the unit price, the fee is the scaled one. -/
theorem calculateFeeForOperation_eq {baseValue scale : Nat} (hs : scaledFee baseValue scale ≤ maxShareSupply) :
    calculateFeeForOperation baseValue scale (fuel + 1) = some (.ok (scaledFee baseValue scale)) := by
  have hpos := scaledFee_nonneg baseValue scale
  have hle : maxShareSupply ≤ maxInt64 := by decide
  unfold calculateFeeForOperation calculateFee
  generalize scaledFee baseValue scale = s at hs hpos ⊢
  have hmul : (Asset.mk s 0).mul (.unitPrice 0) = .ok ⟨s, 0⟩ := by
    have hunit := mul_base (p := .unitPrice 0) hpos (hs.trans hle) Int.one_pos Int.one_pos.le (by decide)
    unfold Price.unitPrice inRange at hunit
    rw [Int.mul_one, Int.ediv_one, if_pos hs] at hunit
    exact hunit
  have hraise : raise (.unitPrice 0) ⟨s, 0⟩ (fuel + 1) ⟨s, 0⟩ = some (.ok ⟨s, 0⟩) := by
    have hless : (Asset.mk s 0).less ⟨s, 0⟩ = .ok false :=
      bind_eq_ok.mpr ⟨(), if_pos rfl, congrArg Except.ok (decide_eq_false (lt_irrefl s))⟩
    rw [raise, hmul, ok_bind, hless]
  dsimp only
  rw [if_pos hs, hmul]
  dsimp only
  rw [hraise]
  unfold fcAssert
  simp only [Option.map_some, ok_bind, if_pos hs]
  rfl

end ExchangeRate

/-! ### The fee -/

/-- For each core fee in the range and each rate, `calculate_fee` ends: with the least amount that converts to the core fee, if
    that and what it converts to are in the range, and with a throw otherwise. The evaluator wants the core fee, and what it
    takes from the fee pool is at least that for the least amount and those above it, and less for those below. -/
theorem calculateFee_least (R : ExchangeRate) {baseValue scale : Nat} (hs : scaledFee baseValue scale ≤ maxShareSupply) :
    let s := scaledFee baseValue scale
    (∀ y, R.leastFee s ≤ y ↔ s ≤ R.toCore y) ∧
    (∀ fuel ≥ 2, calculateFee baseValue scale R.price fuel = some
      (if R.leastFee s ≤ maxShareSupply ∧ R.toCore (R.leastFee s) ≤ maxShareSupply then .ok ⟨R.leastFee s, R.feeAsset⟩
      else .error .productTooLarge)) ∧
    (∀ fuel ≥ 1, calculateFeeForOperation baseValue scale fuel = some (.ok s)) ∧
    ∀ (d : Database) (account : AccountId) (A : AssetObject), d.getAsset R.feeAsset = .ok A →
      A.options.coreExchangeRate = R.price → ∀ y core, 0 ≤ y → y ≤ maxShareSupply →
      (d.prepareFee account ⟨y, R.feeAsset⟩ = .ok core ↔ ExchangeRate.MayPay d account R.feeAsset A ∧
        R.toCore y ≤ maxShareSupply ∧ R.toCore y ≤ A.dynamicData.feePool ∧ core = R.toCore y) ∧
      (d.prepareFee account ⟨y, R.feeAsset⟩ = .ok core → (s ≤ core ↔ R.leastFee s ≤ y)) := by
  intro s
  refine ⟨fun y => R.leastFee_le_iff, fun fuel hfuel => ?_, fun fuel hfuel => ?_, ?_⟩
  · obtain ⟨n, rfl⟩ := Nat.exists_eq_add_of_le' hfuel
    exact ExchangeRate.calculateFee_eq hs
  · obtain ⟨n, rfl⟩ := Nat.exists_eq_add_of_le' hfuel
    exact ExchangeRate.calculateFeeForOperation_eq hs
  · intro d account A hA hrate y core hy hy'
    have hiff : d.prepareFee account ⟨y, R.feeAsset⟩ = .ok core ↔ _ := ExchangeRate.prepareFee_eq_ok_iff hA hrate hy hy'
    refine ⟨hiff, fun h => ?_⟩
    obtain ⟨-, -, -, rfl⟩ := hiff.mp h
    exact R.leastFee_le_iff.symm

/-- Seven core units for two of the asset -/
def sevenHalves : ExchangeRate where
  core := 7
  fee := 2
  feeAsset := 1
  coreIsBase := true
  core_pos := by decide
  core_le := by decide
  fee_pos := by decide
  fee_le := by decide
  notCore := by decide

/-- A core fee of 100 costs 29 units of the asset. -/
theorem calculateFee_least_hundred : calculateFee 100 10000 sevenHalves.price 2 = some (.ok ⟨29, 1⟩) := by
  have hs : scaledFee 100 10000 ≤ maxShareSupply := by decide
  exact ((calculateFee_least sevenHalves hs).2.1 2 (le_refl 2)).trans (by decide)

/-- The greatest core fee: the least amount that covers it is in the range, but what it converts to is not, and `operator *`
    throws in the condition of the loop. -/
theorem calculateFee_throws :
    ¬ ∀ (R : ExchangeRate) (baseValue scale fuel : Nat), scaledFee baseValue scale ≤ maxShareSupply → 2 ≤ fuel →
      ∃ x, (∀ y, x ≤ y ↔ scaledFee baseValue scale ≤ R.toCore y) ∧
        (calculateFee baseValue scale R.price fuel = some (.ok ⟨x, R.feeAsset⟩) ∨ maxShareSupply < x) := by
  intro h
  obtain ⟨x, hleast, hx⟩ := h sevenHalves 1000000000000000000 10000 2 (by decide) (le_refl 2)
  have hle : x ≤ 285714285714285715 := (hleast _).mpr (by decide)
  rcases hx with hx | hx
  · have herror : calculateFee 1000000000000000000 10000 sevenHalves.price 2 = some (.error .productTooLarge) := by
      decide +kernel
    rw [herror] at hx
    cases hx
  · exact absurd (hx.trans_le hle) (by decide)

end Khc.Chain.FeeSchedule
