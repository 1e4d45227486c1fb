import Khc.Theorems.Melting
import Mathlib.Tactic.Ring

/-! The rate of conversions: `power_convert` divides by the base of the KHD feed and multiplies by its quote, the other way around than
    `operator *` of an asset and a price, and takes any asset for the core asset. -/

namespace Khc.Chain

open Lib Database

/-- The KHD value of an amount of the core asset, `b` units of KHD for `q` units of it -/
def khdValue (amount : Int) (p : Price) : Int := amount * p.base.amount / p.quote.amount

/-- With `k` times ten units of the base in the amount, the quote `k` times is a tenth of the KHD value, rounded down. -/
def EvenRate (amount : Int) (p : Price) : Prop :=
  let k := amount / (convertPowerReferAssetRate * p.base.amount)
  convertPowerReferAssetRate * p.quote.amount * (p.quote.amount * k) ≤ amount * p.base.amount ∧
    amount * p.base.amount < convertPowerReferAssetRate * p.quote.amount * (p.quote.amount * k + 1)

instance (amount : Int) (p : Price) : Decidable (EvenRate amount p) := inferInstanceAs (Decidable (_ ∧ _))

section
variable {amount : Int} {p : Price}

theorem evenRate_iff (hq : 0 < p.quote.amount) :
    EvenRate amount p ↔ convertedPower amount p = khdValue amount p / convertPowerReferAssetRate := by
  have hrate : (0 : Int) < convertPowerReferAssetRate := by decide
  have hden : 0 < convertPowerReferAssetRate * p.quote.amount := mul_pos hrate hq
  have hvalue : khdValue amount p / convertPowerReferAssetRate = amount * p.base.amount / (convertPowerReferAssetRate * p.quote.amount) := by
    rw [khdValue, Int.ediv_ediv_of_nonneg hq.le, mul_comm p.quote.amount]
  have hpower : convertedPower amount p = p.quote.amount * (amount / (convertPowerReferAssetRate * p.base.amount)) := mul_comm _ _
  rw [hvalue, hpower, eq_comm, Int.ediv_eq_iff_of_pos hden, EvenRate]
  constructor <;> rintro ⟨hle, hlt⟩ <;> constructor <;> linarith

/-- An even rate leaves the product far below 2^63. -/
theorem EvenRate.small (h : EvenRate amount p) (ha : 0 < amount) (ha' : amount ≤ maxInt64) (hb : 0 < p.base.amount)
    (hq : 0 < p.quote.amount) : convertedPower amount p < 2 ^ 63 := by
  obtain ⟨hle, -⟩ := h
  unfold convertedPower
  unfold convertPowerReferAssetRate at hle ⊢
  have hden : 0 < 10 * p.base.amount := mul_pos (by norm_num) hb
  have hk : 0 ≤ amount / (10 * p.base.amount) := Int.ediv_nonneg ha.le hden.le
  have hmul : amount / (10 * p.base.amount) * (10 * p.base.amount) ≤ amount := Int.ediv_mul_le _ hden.ne'
  have hlt : amount < (amount / (10 * p.base.amount) + 1) * (10 * p.base.amount) := Int.lt_ediv_add_one_mul_self _ hden
  generalize amount / (10 * p.base.amount) = k at *
  unfold maxInt64 at ha'
  rcases hk.eq_or_lt with rfl | hk
  · norm_num
  · -- the quote is less than twice the base
    have hsq : p.quote.amount < 2 * p.base.amount := by
      by_contra hge
      rw [not_lt] at hge
      have hqq : 2 * p.base.amount * (2 * p.base.amount) ≤ p.quote.amount * p.quote.amount := mul_le_mul hge hge (by omega) hq.le
      have hab : amount * p.base.amount < (k + 1) * (10 * p.base.amount) * p.base.amount := mul_lt_mul_of_pos_right hlt hb
      have hkk : 2 * p.base.amount * (2 * p.base.amount) * k ≤ p.quote.amount * p.quote.amount * k := mul_le_mul_of_nonneg_right hqq hk.le
      have hpos : 0 < p.base.amount * p.base.amount := mul_pos hb hb
      have hbb : p.base.amount * p.base.amount ≤ k * (p.base.amount * p.base.amount) :=
        le_mul_of_one_le_left (mul_nonneg hb.le hb.le) hk
      linarith
    have hprod : k * p.quote.amount ≤ k * (2 * p.base.amount) := mul_le_mul_of_nonneg_left hsq.le hk.le
    have htwice : k * (2 * p.base.amount) ≤ k * (10 * p.base.amount) := by
      refine mul_le_mul_of_nonneg_left ?_ hk.le
      linarith
    linarith

/-- Where a unit of KHD costs a unit of KHC, the amount is a multiple of ten bases, up to nine units. -/
theorem evenRate_of_parity (hb : 0 < p.base.amount) (hpar : p.quote.amount = p.base.amount) :
    EvenRate amount p ↔ amount % (convertPowerReferAssetRate * p.base.amount) < convertPowerReferAssetRate := by
  have hmod := Int.mul_ediv_add_emod amount (convertPowerReferAssetRate * p.base.amount)
  have hnonneg : 0 ≤ amount % (convertPowerReferAssetRate * p.base.amount) :=
    Int.emod_nonneg _ (mul_pos (by decide) hb).ne'
  unfold EvenRate
  rw [hpar]
  dsimp only
  generalize amount / (convertPowerReferAssetRate * p.base.amount) = k at *
  generalize amount % (convertPowerReferAssetRate * p.base.amount) = r at *
  rw [← hmod]
  constructor
  · rintro ⟨-, hlt⟩
    refine lt_of_mul_lt_mul_right (?_ : r * p.base.amount < convertPowerReferAssetRate * p.base.amount) hb.le
    linarith
  · intro hlt
    have hle : 0 ≤ r * p.base.amount := mul_nonneg hnonneg hb.le
    have hlt' : r * p.base.amount < convertPowerReferAssetRate * p.base.amount := mul_lt_mul_of_pos_right hlt hb
    constructor <;> linarith

/-- Where a unit of KHD costs less than a unit of KHC, the amount is worth less than ten units of KHD. -/
theorem EvenRate.worthless (h : EvenRate amount p) (ha : 0 < amount) (hb : 0 < p.base.amount) (hq : 0 < p.quote.amount)
    (hlt : p.quote.amount < p.base.amount) : khdValue amount p < convertPowerReferAssetRate := by
  have heven := (evenRate_iff hq).mp h
  obtain ⟨-, hup⟩ := h
  have hrate : (0 : Int) < convertPowerReferAssetRate := by decide
  have hden : 0 < convertPowerReferAssetRate * p.base.amount := mul_pos hrate hb
  have hk : 0 ≤ amount / (convertPowerReferAssetRate * p.base.amount) := Int.ediv_nonneg ha.le hden.le
  have hmul : amount / (convertPowerReferAssetRate * p.base.amount) * (convertPowerReferAssetRate * p.base.amount) ≤ amount :=
    Int.ediv_mul_le _ hden.ne'
  unfold convertedPower at heven
  generalize amount / (convertPowerReferAssetRate * p.base.amount) = k at *
  have hzero : k = 0 := by
    by_contra hne
    have hone : 1 ≤ k := by omega
    have hab : k * (convertPowerReferAssetRate * p.base.amount) * p.base.amount ≤ amount * p.base.amount := mul_le_mul_of_nonneg_right hmul hb.le
    unfold convertPowerReferAssetRate at hab hup
    have hsq : (p.quote.amount + 1) * (p.quote.amount + 1) ≤ p.base.amount * p.base.amount := mul_le_mul hlt hlt (by omega) hb.le
    have hksq : k * ((p.quote.amount + 1) * (p.quote.amount + 1)) ≤ k * (p.base.amount * p.base.amount) := mul_le_mul_of_nonneg_left hsq hk
    have hkq : p.quote.amount ≤ k * p.quote.amount := le_mul_of_one_le_left hq.le hone
    linarith
  rw [hzero, zero_mul] at heven
  unfold convertPowerReferAssetRate at heven ⊢
  omega

end

namespace PowerDatabase

section
variable {d d' : PowerDatabase} {o : PowerConvertOperation} {p : Price}

end

end PowerDatabase

section
open Sample PowerDatabase

end

end Khc.Chain
