import Khc.Chain.Inversion
import Khc.Project.Run
import Mathlib.Order.Bounds.Basic
import Mathlib.Tactic.Ring

/-! The power that the creation of a project requires, as a function of the largest supply of its tokens: the steps to the core asset and to
    KHD round down, and the step to power rounds up. -/

namespace Khc.Chain

open Lib

/-- `power_required_for_finacing` of `convert_to_khd_amount` -/
def requiredPower (maxSupply : Int) (coreExchangeRate khdPrice : Price) : Eval Int := do
  powerRequiredForFinacing (← convertToKhdAmount maxSupply coreExchangeRate khdPrice)

/-- A feed of KHD priced in the core asset, in amounts of 64 bits -/
structure KhdPrice (p : Price) : Prop where
  valid : p.validate = .ok ()
  quote : p.quote.assetId = 0
  baseAmount : p.base.amount ≤ maxInt64
  quoteAmount : p.quote.amount ≤ maxInt64

/-- A rate that prices the core asset in the new one, in amounts of 64 bits -/
structure CoreFirst (rate : Price) : Prop where
  base : rate.base.assetId = 0
  quote : rate.quote.assetId = 1
  basePositive : 0 < rate.base.amount
  quotePositive : 0 < rate.quote.amount
  baseAmount : rate.base.amount ≤ maxInt64

/-- The value of so many tokens in the core asset, rounded down -/
def coreValue (maxSupply : Int) (rate : Price) : Int := maxSupply * rate.base.amount / rate.quote.amount

/-- And that in KHD, rounded down again -/
def khdValueOf (maxSupply : Int) (rate p : Price) : Int := coreValue maxSupply rate * p.base.amount / p.quote.amount

/-- Ten to the eighth, a unit of power -/
def powerUnit : Int := 10 ^ khcPowerPrecisionDigits

/-- As much KHD as a unit of power is for -/
def khdOfUnit : Int := khcPowerConvertKhdRatio * 10 ^ khdPrecisionDigits

/-- The multiples of a unit of power that cover an amount of KHD -/
def Covering (khd : Int) : Set Int := {power | ∃ n, power = n * powerUnit ∧ khd ≤ n * khdOfUnit}

section
variable {khd power m m' : Int} {rate p : Price}

theorem Covering.anti {khd' : Int} (h : khd ≤ khd') : Covering khd' ⊆ Covering khd := by
  rintro power ⟨n, rfl, hle⟩
  exact ⟨n, rfl, h.trans hle⟩

/-- Units of power, rounded up -/
def units (khd : Int) : Int := khd / khdOfUnit + if khd % khdOfUnit ≠ 0 then 1 else 0

theorem le_units (khd : Int) : khd ≤ units khd * khdOfUnit := by
  unfold units khdOfUnit khcPowerConvertKhdRatio khdPrecisionDigits
  split <;> omega

theorem units_le {n : Int} (h : khd ≤ n * khdOfUnit) : units khd ≤ n := by
  unfold units
  unfold khdOfUnit khcPowerConvertKhdRatio khdPrecisionDigits at *
  split <;> omega

/-- The least multiple of a unit of power that covers the amount of KHD -/
theorem isLeast_units (khd : Int) : IsLeast (Covering khd) (units khd * powerUnit) := by
  refine ⟨⟨_, rfl, le_units khd⟩, ?_⟩
  rintro power ⟨n, rfl, hle⟩
  exact mul_le_mul_of_nonneg_right (units_le hle) (by decide)

theorem powerRequiredForFinacing_eq_ok (h : 0 ≤ khd) (h' : khd ≤ maxShareSupply) :
    powerRequiredForFinacing khd = .ok power ↔ power = units khd * powerUnit ∧ power < maxShareSupply := by
  have hnum : toU128 (units khd * powerUnit) = units khd * powerUnit := by
    refine Int.emod_eq_of_lt ?_ ?_
    · unfold units khdOfUnit powerUnit khcPowerConvertKhdRatio khdPrecisionDigits khcPowerPrecisionDigits
      split <;> omega
    · unfold units khdOfUnit powerUnit khcPowerConvertKhdRatio khdPrecisionDigits khcPowerPrecisionDigits
      unfold maxShareSupply at h'
      split <;> omega
  have hprecision : (do
      let requiredPower := toU128 (units khd * powerUnit)
      fcAssert (requiredPower < maxShareSupply) .requiredPowerTooLarge
      return requiredPower : Eval Int) = powerRequiredForFinacing khd := rfl
  rw [← hprecision]
  simp only [hnum, bind_eq_ok, fcAssert_eq_ok, pure_eq_ok]
  constructor
  · rintro ⟨-, hlt, rfl⟩
    exact ⟨rfl, hlt⟩
  · rintro ⟨rfl, hlt⟩
    exact ⟨(), hlt, rfl⟩

theorem KhdPrice.positive (h : KhdPrice p) : 0 < p.base.amount ∧ 0 < p.quote.amount ∧ p.base.assetId ≠ p.quote.assetId := by
  have hvalid := h.valid
  simp only [Price.validate, bind_eq_ok, fcAssert_eq_ok] at hvalid
  obtain ⟨_, hb, _, hq, hne⟩ := hvalid
  exact ⟨hb, hq, hne⟩

theorem KhdPrice.isNull_eq_false (h : KhdPrice p) : p.isNull = false := by
  obtain ⟨-, -, hne⟩ := h.positive
  rw [h.quote] at hne
  rw [Price.isNull, Price.eq, Price.default, beq_eq_false_iff_ne.mpr hne, Bool.false_and, Bool.false_and]

theorem coreValue_nonneg (hr : CoreFirst rate) (hm : 0 ≤ m) : 0 ≤ coreValue m rate :=
  Int.ediv_nonneg (mul_nonneg hm hr.basePositive.le) hr.quotePositive.le

theorem coreValue_mono (hr : CoreFirst rate) (h : m ≤ m') : coreValue m rate ≤ coreValue m' rate :=
  Int.ediv_le_ediv hr.quotePositive (mul_le_mul_of_nonneg_right h hr.basePositive.le)

theorem khdValueOf_nonneg (hr : CoreFirst rate) (hp : KhdPrice p) (hm : 0 ≤ m) : 0 ≤ khdValueOf m rate p :=
  Int.ediv_nonneg (mul_nonneg (coreValue_nonneg hr hm) hp.positive.1.le) hp.positive.2.1.le

theorem khdValueOf_mono (hr : CoreFirst rate) (hp : KhdPrice p) (h : m ≤ m') : khdValueOf m rate p ≤ khdValueOf m' rate p :=
  Int.ediv_le_ediv hp.positive.2.1 (mul_le_mul_of_nonneg_right (coreValue_mono hr h) hp.positive.1.le)

theorem convertToKhdAmount_eq_ok (hr : CoreFirst rate) (hp : KhdPrice p) (hm : 0 ≤ m) (hm' : m ≤ maxShareSupply) :
    convertToKhdAmount m rate p = .ok khd ↔
      coreValue m rate ≤ maxShareSupply ∧ khdValueOf m rate p ≤ maxShareSupply ∧ khd = khdValueOf m rate p := by
  have hmax : maxShareSupply ≤ maxInt64 := by decide
  have hne : rate.base.assetId ≠ rate.quote.assetId := by
    rw [hr.base, hr.quote]
    exact Nat.zero_ne_one
  obtain ⟨hb, hq, hne'⟩ := hp.positive
  have hcore : ∀ v, (Asset.mk m rate.quote.assetId).mul rate = .ok v ↔ coreValue m rate ≤ maxShareSupply ∧ v = ⟨coreValue m rate, 0⟩ := by
    intro v
    rw [Asset.mul_quote_eq_ok hm (hm'.trans hmax) hr.basePositive.le hr.baseAmount hr.quotePositive hne, hr.base]
    rfl
  have hkhd : ∀ v, coreValue m rate ≤ maxShareSupply → ((Asset.mk (coreValue m rate) 0).mul p = .ok v ↔
      khdValueOf m rate p ≤ maxShareSupply ∧ v = ⟨khdValueOf m rate p, p.base.assetId⟩) := by
    intro v hle
    rw [← hp.quote]
    exact Asset.mul_quote_eq_ok (coreValue_nonneg hr hm) (hle.trans hmax) hb.le hp.baseAmount hq hne'
  simp only [convertToKhdAmount, bind_eq_ok, fcAssert_eq_ok, pure_eq_ok]
  constructor
  · rintro ⟨-, -, c, hc, v, hv, rfl⟩
    obtain ⟨hle, rfl⟩ := (hcore c).mp hc
    obtain ⟨hle', rfl⟩ := (hkhd v hle).mp hv
    exact ⟨hle, hle', rfl⟩
  · rintro ⟨hle, hle', rfl⟩
    exact ⟨(), by rw [hp.isNull_eq_false]; exact Bool.false_ne_true, _, (hcore _).mpr ⟨hle, rfl⟩, _, (hkhd _ hle).mpr ⟨hle', rfl⟩, rfl⟩

theorem requiredPower_eq_ok (hr : CoreFirst rate) (hp : KhdPrice p) (hm : 0 ≤ m) (hm' : m ≤ maxShareSupply) :
    requiredPower m rate p = .ok power ↔ coreValue m rate ≤ maxShareSupply ∧ khdValueOf m rate p ≤ maxShareSupply ∧
      units (khdValueOf m rate p) * powerUnit < maxShareSupply ∧ power = units (khdValueOf m rate p) * powerUnit := by
  have hnonneg := khdValueOf_nonneg hr hp hm
  simp only [requiredPower, bind_eq_ok, convertToKhdAmount_eq_ok hr hp hm hm']
  constructor
  · rintro ⟨khd, ⟨hle, hle', rfl⟩, h⟩
    obtain ⟨rfl, hlt⟩ := (powerRequiredForFinacing_eq_ok hnonneg hle').mp h
    exact ⟨hle, hle', hlt, rfl⟩
  · rintro ⟨hle, hle', hlt, rfl⟩
    exact ⟨_, ⟨hle, hle', rfl⟩, (powerRequiredForFinacing_eq_ok hnonneg hle').mpr ⟨rfl, hlt⟩⟩

theorem AssetOptions.validate_inv {o : AssetOptions} (h : o.validate = .ok ()) :
    0 < o.maxSupply ∧ o.maxSupply ≤ maxShareSupply ∧ o.coreExchangeRate.validate = .ok () := by
  simp only [AssetOptions.validate, bind_eq_ok, fcAssert_eq_ok] at h
  obtain ⟨_, hpos, _, hmax, _, -, _, -, _, -, _, -, _, -, _, hrate, -⟩ := h
  exact ⟨hpos, hmax, hrate⟩

theorem AssetCreateOperation.validate_inv {o : AssetCreateOperation} (h : o.validate = .ok ()) : o.commonOptions.validate = .ok () ∧
    ∃ dummy, (Asset.mk 1 0).mul o.commonOptions.coreExchangeRate = .ok dummy ∧ dummy.assetId = 1 := by
  simp only [AssetCreateOperation.validate, bind_eq_ok] at h
  obtain ⟨_, -, _, -, _, hopts, h⟩ := h
  refine ⟨hopts, ?_⟩
  have hbacked := guarded_eq_ok₂ (guarded_eq_ok h)
  clear h
  cases hbit : o.bitassetOpts <;> cases hproj : o.projectAssetOpts <;>
    simp only [hbit, hproj, bind_eq_ok, fcAssert_eq_ok] at hbacked
  case none.none =>
    obtain ⟨dummy, hdummy, _, hid, -⟩ := hbacked
    exact ⟨dummy, hdummy, hid⟩
  case some.some =>
    obtain ⟨_, -, _, -, dummy, hdummy, _, hid, -⟩ := hbacked
    exact ⟨dummy, hdummy, hid⟩
  all_goals
    obtain ⟨_, -, dummy, hdummy, _, hid, -⟩ := hbacked
    exact ⟨dummy, hdummy, hid⟩

/-- A rate that the creation of an asset accepts, with the core asset as its base -/
theorem AssetCreateOperation.coreFirst {o : AssetCreateOperation} (h : o.validate = .ok ())
    (hbase : o.commonOptions.coreExchangeRate.base.assetId = 0) (hle : o.commonOptions.coreExchangeRate.base.amount ≤ maxInt64) :
    CoreFirst o.commonOptions.coreExchangeRate := by
  obtain ⟨hopts, dummy, hdummy, hid⟩ := AssetCreateOperation.validate_inv h
  obtain ⟨-, -, hrate⟩ := AssetOptions.validate_inv hopts
  simp only [Price.validate, bind_eq_ok, fcAssert_eq_ok] at hrate
  obtain ⟨_, hb, _, hq, -⟩ := hrate
  unfold Asset.mul at hdummy
  rw [if_pos hbase.symm] at hdummy
  simp only [bind_eq_ok, pure_eq_ok] at hdummy
  obtain ⟨_, -, _, -, rfl⟩ := hdummy
  exact ⟨hbase, hid, hb, hq, hle⟩

/-- Of a rate that prices the core asset in the new one: what the creation of an asset requires is the least multiple of a unit of power that
    covers the value of the largest supply in KHD, rounded down in each of the two steps to it, and it grows with the supply. There is one
    as long as the amounts stay within the maximum share supply. -/
theorem requiredPower_least {o : AssetCreateOperation} {p : Price} (h : o.validate = .ok ())
    (hbase : o.commonOptions.coreExchangeRate.base.assetId = 0) (hle : o.commonOptions.coreExchangeRate.base.amount ≤ maxInt64)
    (hp : KhdPrice p) :
    (∀ power, requiredPower o.commonOptions.maxSupply o.commonOptions.coreExchangeRate p = .ok power →
      IsLeast (Covering (khdValueOf o.commonOptions.maxSupply o.commonOptions.coreExchangeRate p)) power) ∧
    (∀ o' : AssetCreateOperation, o'.validate = .ok () → o'.commonOptions.coreExchangeRate = o.commonOptions.coreExchangeRate →
      o'.commonOptions.maxSupply ≤ o.commonOptions.maxSupply →
      ∀ power, requiredPower o.commonOptions.maxSupply o.commonOptions.coreExchangeRate p = .ok power →
      ∃ power', requiredPower o'.commonOptions.maxSupply o'.commonOptions.coreExchangeRate p = .ok power' ∧ power' ≤ power) ∧
    ((∃ power, requiredPower o.commonOptions.maxSupply o.commonOptions.coreExchangeRate p = .ok power) ↔
      coreValue o.commonOptions.maxSupply o.commonOptions.coreExchangeRate ≤ maxShareSupply ∧
      khdValueOf o.commonOptions.maxSupply o.commonOptions.coreExchangeRate p ≤ maxShareSupply ∧
      ∃ power ∈ Covering (khdValueOf o.commonOptions.maxSupply o.commonOptions.coreExchangeRate p), power < maxShareSupply) := by
  have hr := AssetCreateOperation.coreFirst h hbase hle
  obtain ⟨hpos, hmax, -⟩ := AssetOptions.validate_inv (AssetCreateOperation.validate_inv h).1
  refine ⟨fun power hpower => ?_, fun o' h' hrate hm power hpower => ?_, fun ⟨power, hpower⟩ => ?_, fun ⟨hcore, hkhd, power, hmem, hlt⟩ => ?_⟩
  · obtain ⟨-, -, -, rfl⟩ := (requiredPower_eq_ok hr hp hpos.le hmax).mp hpower
    exact isLeast_units _
  · obtain ⟨hpos', hmax', -⟩ := AssetOptions.validate_inv (AssetCreateOperation.validate_inv h').1
    obtain ⟨hcore, hkhd, hlt, rfl⟩ := (requiredPower_eq_ok hr hp hpos.le hmax).mp hpower
    have hgrow := khdValueOf_mono hr hp hm
    have hunits := (isLeast_units _).mono (isLeast_units _) (Covering.anti hgrow)
    rw [hrate]
    exact ⟨_, (requiredPower_eq_ok hr hp hpos'.le hmax').mpr
      ⟨(coreValue_mono hr hm).trans hcore, hgrow.trans hkhd, hunits.trans_lt hlt, rfl⟩, hunits⟩
  · obtain ⟨hcore, hkhd, hlt, rfl⟩ := (requiredPower_eq_ok hr hp hpos.le hmax).mp hpower
    exact ⟨hcore, hkhd, _, (isLeast_units _).1, hlt⟩
  · exact ⟨_, (requiredPower_eq_ok hr hp hpos.le hmax).mpr ⟨hcore, hkhd, ((isLeast_units _).2 hmem).trans_lt hlt, rfl⟩⟩

end

section
open Sample

/-- The creation of an asset with so many tokens at this rate -/
def Sample.issueAt (maxSupply : Int) (coreExchangeRate : Price) : AssetCreateOperation where
  fee := noFee
  issuer := 1
  symbol := "PRJ"
  precision := 4
  commonOptions := { options with maxSupply, coreExchangeRate }

theorem requiredPower_least_sample : IsLeast (Covering (khdValueOf 20000003 ⟨⟨1, 0⟩, ⟨2, 1⟩⟩ ⟨⟨3, 2⟩, ⟨1, 0⟩⟩)) 400000000 := by
  have hp : KhdPrice ⟨⟨3, 2⟩, ⟨1, 0⟩⟩ := ⟨rfl, rfl, by decide, by decide⟩
  exact (requiredPower_least (o := issueAt 20000003 ⟨⟨1, 0⟩, ⟨2, 1⟩⟩) (by decide +kernel) rfl (by decide) hp).1 _ (by decide +kernel)

/-- A supply worth half a unit of KHD more than the thousand KHD that a unit of power is for takes no more than that unit. And a rate that
    prices the new asset in the core asset is refused, or misread where KHD has the number that stands for the new asset. -/
theorem requiredPower_short :
    ((issueAt 20000001 ⟨⟨1, 0⟩, ⟨2, 1⟩⟩).validate = .ok () ∧
      requiredPower 20000001 ⟨⟨1, 0⟩, ⟨2, 1⟩⟩ ⟨⟨1, 2⟩, ⟨1, 0⟩⟩ = .ok powerUnit ∧ 20000001 * 1 * 1 > khdOfUnit * 2 * 1) ∧
    ((issueAt 1000000000 ⟨⟨1, 0⟩, ⟨1000, 1⟩⟩).validate = .ok () ∧ (issueAt 1000000000 ⟨⟨1000, 1⟩, ⟨1, 0⟩⟩).validate = .ok () ∧
      requiredPower 1000000000 ⟨⟨1, 0⟩, ⟨1000, 1⟩⟩ ⟨⟨1, 2⟩, ⟨1, 0⟩⟩ = .ok powerUnit ∧
      requiredPower 1000000000 ⟨⟨1000, 1⟩, ⟨1, 0⟩⟩ ⟨⟨1, 2⟩, ⟨1, 0⟩⟩ = .error .invalidAssetTimesPrice ∧
      requiredPower 1000000000 ⟨⟨1000, 1⟩, ⟨1, 0⟩⟩ ⟨⟨1, 1⟩, ⟨1, 0⟩⟩ = .ok (100000 * powerUnit)) := by
  decide +kernel

end

end Khc.Chain
