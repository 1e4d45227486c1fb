import Khc.Chain.Conversion

/-! The power of the accounts under conversions: the power of one is computed in 128 bits and read back as a signed number of
    64 bits, so a product from 2^63 on is taken for a negative one, which only the check of the account's total can refuse. -/

namespace Khc.Chain

open Lib Database

/-- What a conversion comes to: as often as ten units of the base go into the amount, the quote -/
def convertedPower (amount : Int) (p : Price) : Int := amount / (convertPowerReferAssetRate * p.base.amount) * p.quote.amount

section
variable {amount power : Int} {p : Price}

theorem convertedPower_nonneg (ha : 0 < amount) (hb : 0 < p.base.amount) (hq : 0 < p.quote.amount) : 0 ≤ convertedPower amount p := by
  have hden : 0 ≤ convertPowerReferAssetRate * p.base.amount := mul_nonneg (by decide) hb.le
  exact mul_nonneg (Int.ediv_nonneg ha.le hden) hq.le

/-- Nothing is lost in 128 bits. -/
theorem converted_eq (ha : 0 < amount) (ha' : amount ≤ maxInt64) (hb : 0 < p.base.amount) (hb' : p.base.amount ≤ maxInt64)
    (hq : 0 < p.quote.amount) (hq' : p.quote.amount ≤ maxInt64) : PowerConvert.converted amount p = convertedPower amount p := by
  unfold maxInt64 at ha' hb' hq'
  have hnum : toU128 amount = amount := toU128_of_nonneg ha.le ⟨by omega, ha'⟩
  have hbase : toU128 p.base.amount = p.base.amount := toU128_of_nonneg hb.le ⟨by omega, hb'⟩
  have hquote : toU128 p.quote.amount = p.quote.amount := toU128_of_nonneg hq.le ⟨by omega, hq'⟩
  have hrate : (0 : Int) ≤ convertPowerReferAssetRate := by decide
  have hle : amount / (convertPowerReferAssetRate * p.base.amount) ≤ amount := Int.ediv_le_self _ ha.le
  have hsmall : convertedPower amount p ≤ 9223372036854775807 * 9223372036854775807 :=
    mul_le_mul (hle.trans ha') hq' hq.le (by norm_num)
  rw [PowerConvert.converted, hnum, hbase, hquote, Int.ediv_ediv_of_nonneg hrate]
  exact Int.emod_eq_of_lt (convertedPower_nonneg ha hb hq) (hsmall.trans_lt (by norm_num))

/-- A product below 2^63 is read back as it is, and one below 2^64 as the negative number with the same bits. -/
theorem powerAmount_cases (h : PowerConvert.powerAmount amount p = .ok power) :
    (PowerConvert.converted amount p < 2 ^ 63 ∧ power = PowerConvert.converted amount p) ∨
    (2 ^ 63 ≤ PowerConvert.converted amount p ∧ PowerConvert.converted amount p < 2 ^ 64 ∧
      power = PowerConvert.converted amount p - 2 ^ 64) := by
  unfold PowerConvert.powerAmount at h
  split at h
  · exact (throw_ne_ok.mp h).elim
  · dsimp only at h
    split at h
    · exact (throw_ne_ok.mp h).elim
    · rename_i hlt
      rw [pure_eq_ok] at h
      split at h
      · rename_i hge
        exact .inr ⟨hge, not_le.mp hlt, h.symm⟩
      · rename_i hge
        exact .inl ⟨not_le.mp hge, h.symm⟩

end

namespace PowerDatabase
variable {d d' : PowerDatabase}

/-- Amounts and feeds of at most the maximum share supply, and a new account without power -/
def inRange (d : PowerDatabase) : PowerStep → Prop
  | .powerConvert o => o.amount.amount ≤ maxShareSupply ∧
    ∀ p, d.feed o.referAmount.assetId = some p → p.base.amount ≤ maxShareSupply ∧ p.quote.amount ≤ maxShareSupply
  | .accountCreate _ => d.owned d.chain.accounts.length = 0
  | _ => True

/-- A conversion does not come to less than 2^64 by no more than the power that the account has. -/
def clear (d : PowerDatabase) : PowerStep → Prop
  | .powerConvert o => ∀ p, d.feed o.referAmount.assetId = some p →
    ¬(2 ^ 64 - d.owned o.account ≤ convertedPower o.amount.amount p ∧ convertedPower o.amount.amount p < 2 ^ 64)
  | _ => True

/-- The power of each account is an amount between 0 and the maximum share supply. -/
def Bounded (d : PowerDatabase) : Prop := ∀ x, 0 ≤ d.owned x ∧ d.owned x ≤ maxShareSupply

theorem Converted.exact {o : PowerConvertOperation} {p : Price} {power : Int} (h : Converted d d' o p power)
    (hR : d.inRange (.powerConvert o)) : PowerConvert.converted o.amount.amount p = convertedPower o.amount.amount p := by
  have hmax : maxShareSupply ≤ maxInt64 := by decide
  obtain ⟨hamount, hprice⟩ := hR
  obtain ⟨hb, hq⟩ := hprice p h.feed
  exact converted_eq h.amount (hamount.trans hmax) h.base (hb.trans hmax) h.quote (hq.trans hmax)

/-- An accepted conversion takes no power exactly where it is clear of the products that are read back as negative. -/
theorem Converted.nonneg_iff {o : PowerConvertOperation} {p : Price} {power : Int} (h : Converted d d' o p power)
    (hR : d.inRange (.powerConvert o)) (hd : d.Bounded) : 0 ≤ power ↔ d.clear (.powerConvert o) := by
  have hmax : maxShareSupply = 1000000000000000000 := rfl
  have hpos : 0 ≤ convertedPower o.amount.amount p := convertedPower_nonneg h.amount h.base h.quote
  have howned := (hd o.account).2
  have htotal := h.nonneg
  have hcases := powerAmount_cases h.narrowed
  rw [h.exact hR] at hcases
  constructor
  · rintro hpower p' hp' ⟨hge, hlt⟩
    obtain rfl := Option.some.inj (h.feed.symm.trans hp')
    rcases hcases with ⟨hsmall, -⟩ | ⟨-, -, heq⟩
    · omega
    · omega
  · intro hclear
    rcases hcases with ⟨-, heq⟩ | ⟨hge, hlt, heq⟩
    · omega
    · exact absurd ⟨by omega, hlt⟩ (hclear p h.feed)

/-- An accepted conversion changes the power of its account by what was read back. -/
theorem Converted.owned {o : PowerConvertOperation} {p : Price} {power : Int} (h : Converted d d' o p power) (x : AccountId) :
    d'.owned x = d.owned x + if o.account = x then power else 0 := by
  rw [owned_eq_powerOf, owned_eq_powerOf, h.powers]
  simp only [decide_eq_true_eq]

/-- The total is checked after the product has been read back. -/
theorem Bounded.convert {o : PowerConvertOperation} {p : Price} {power : Int} (hd : d.Bounded) (h : Converted d d' o p power) :
    d'.Bounded := by
  intro x
  rw [h.owned]
  split_ifs with hx
  · subst hx
    rw [add_comm]
    exact ⟨h.nonneg, h.bounded⟩
  · rw [add_zero]
    exact hd x

theorem owned_create (d : PowerDatabase) (a : AccountObject) (x : AccountId) : (d.step (.accountCreate a)).owned x = d.owned x ∨
    x = d.chain.accounts.length ∧ (d.step (.accountCreate a)).owned x = d.owned x + 50 * grapheneBlockchainPrecision := by
  rw [PowerDatabase.step]
  cases hcreate : AccountCreate.doApply d a with
  | error _ => exact .inl rfl
  | ok d' =>
    obtain rfl := createPower_eq_ok hcreate
    change owned { d with accountPower := d.accountPower ++ [_] } x = _ ∨ _ ∧ owned { d with accountPower := d.accountPower ++ [_] } x = _
    rw [owned_eq_powerOf, powerOf_append, ← owned_eq_powerOf]
    dsimp only
    by_cases hx : d.chain.accounts.length = x
    · exact .inr ⟨hx.symm, by rw [decide_eq_true hx, if_pos rfl]⟩
    · exact .inl (by rw [decide_eq_false hx, if_neg Bool.false_ne_true, add_zero])

theorem Bounded.step {s : PowerStep} (hd : d.Bounded) (hR : d.inRange s) : (d.step s).Bounded := by
  cases s with
  | chain s => exact hd
  | publishFeed asset p => exact hd
  | accountCreate a =>
    intro x
    rcases owned_create d a x with heq | ⟨rfl, heq⟩
    · rw [heq]
      exact hd x
    · have hnew : d.owned d.chain.accounts.length = 0 := hR
      rw [heq, hnew]
      decide
  | powerConvert o =>
    rw [PowerDatabase.step]
    cases hconvert : PowerConvert.apply d o with
    | error _ => exact hd
    | ok d' =>
      obtain ⟨p, power, h⟩ := apply_converted hconvert
      exact hd.convert h

theorem owned_step {s : PowerStep} (hd : d.Bounded) (hR : d.inRange s) (hC : d.clear s) (x : AccountId) : d.owned x ≤ (d.step s).owned x := by
  cases s with
  | chain s => exact le_refl _
  | publishFeed asset p => exact le_refl _
  | accountCreate a =>
    have hgift : (0 : Int) ≤ 50 * grapheneBlockchainPrecision := by decide
    rcases owned_create d a x with heq | ⟨-, heq⟩
    · exact heq.ge
    · rw [heq]
      exact le_add_of_nonneg_right hgift
  | powerConvert o =>
    rw [PowerDatabase.step]
    cases hconvert : PowerConvert.apply d o with
    | error _ => exact le_refl _
    | ok d' =>
      obtain ⟨p, power, h⟩ := apply_converted hconvert
      have hpower : 0 ≤ power := (h.nonneg_iff hR hd).mpr hC
      dsimp only [Except.toOption, Option.getD_some]
      rw [h.owned]
      split_ifs
      · exact le_add_of_nonneg_right hpower
      · exact (add_zero _).ge

/-- In a run whose conversions are all clear, no step lowers the power of an account, and it stays an amount up to the maximum share
    supply. -/
theorem power_grows {d₀ : PowerDatabase} {steps : List PowerStep} (h₀ : d₀.Bounded) (hR : Along PowerDatabase.step inRange d₀ steps)
    (hC : Along PowerDatabase.step clear d₀ steps) : (run PowerDatabase.step d₀ steps).Bounded ∧
      ∀ d s, At PowerDatabase.step d₀ steps d s → ∀ x, d.owned x ≤ (d.step s).owned x := by
  have hbounded : ∀ {is}, Along PowerDatabase.step inRange d₀ is → (run PowerDatabase.step d₀ is).Bounded := fun hR =>
    run_invariant (fun _ _ hd hR => hd.step hR) hR h₀
  refine ⟨hbounded hR, fun d s hat x => ?_⟩
  obtain ⟨before, hbefore, rfl⟩ := hR.before hat
  exact owned_step (hbounded hbefore) (hR.at hat) (hC.at hat) x

end PowerDatabase

section
open Sample PowerDatabase

/-- The sample chain, where account 1 has its first power and as much of the core asset as there can be -/
def Sample.rich : PowerDatabase :=
  ⟨{ genesis with balances := fun x q => if x = 1 ∧ q = 0 then maxShareSupply else 0 }, [⟨1, .register, 50 * grapheneBlockchainPrecision⟩], 0⟩

theorem Sample.rich_bounded : rich.Bounded := by
  intro x
  by_cases hx : 1 = x
  · subst hx
    decide
  · have hnone : rich.owned x = 0 := by
      rw [owned, rich, List.map_singleton, if_neg hx]
      rfl
    rw [hnone]
    decide

/-- A feed of so much KHC for one unit of KHD, and a conversion at it -/
def Sample.melt (quote amount : Int) : List PowerStep :=
  [.publishFeed 1 ⟨⟨1, 1⟩, ⟨quote, 0⟩⟩, .powerConvert ⟨noFee, 1, ⟨amount, 0⟩, ⟨0, 1⟩⟩]

theorem Sample.melt_inRange {quote amount : Int} (hq : quote ≤ maxShareSupply) (ha : amount ≤ maxShareSupply) :
    Along PowerDatabase.step inRange rich (melt quote amount) := by
  refine ⟨trivial, ⟨ha, fun p hp => ?_⟩, trivial⟩
  obtain rfl := Option.some.inj hp
  exact ⟨(by decide : (1 : Int) ≤ maxShareSupply), hq⟩

theorem power_grows_melted : (run PowerDatabase.step rich (melt 3 1000)).owned 1 = 5000000300 ∧
    (run PowerDatabase.step rich (melt 3 1000)).Bounded := by
  have hC : Along PowerDatabase.step clear rich (melt 3 1000) := by
    refine ⟨trivial, fun p hp => ?_, trivial⟩
    obtain rfl := Option.some.inj hp
    decide +kernel
  exact ⟨by decide +kernel, (power_grows rich_bounded (melt_inRange (by decide) (by decide)) hC).1⟩

/-- 1844.6 KHC come to 709551616 less than 2^64, which is taken away from the power of the account. -/
theorem power_lowered : ¬∀ (d₀ : PowerDatabase) (steps : List PowerStep), d₀.Bounded → Along PowerDatabase.step inRange d₀ steps →
    (run PowerDatabase.step d₀ steps).Bounded ∧ ∀ d s, At PowerDatabase.step d₀ steps d s → ∀ x, d.owned x ≤ (d.step s).owned x := by
  intro h
  have hgrow := (h rich (melt 1000000000 184467440730) rich_bounded (melt_inRange (by decide) (by decide))).2 _ _
    ⟨[_], [], rfl, rfl⟩ 1
  exact absurd hgrow (by decide +kernel)

end

end Khc.Chain
