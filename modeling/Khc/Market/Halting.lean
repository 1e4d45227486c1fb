import Khc.Market.Outcomes
import Khc.Market.Settled
import Khc.Market.Rates
import Khc.Lib.Except

/-! What the operations of the market do between the loops does not run out of rounds: prices are halved few times enough,
    and everything else is no loop, or one over a list. -/

namespace Khc.Market

open Lib
open Chain (Asset Price AccountId AssetId maxShareSupply)

/-- The computation does not run out of rounds. -/
abbrev Halts {α : Type} (x : Eval α) : Prop := Never Error.outOfFuel x

/-! ### Prices -/

section
variable {a b per out : Asset} {p : Price} {carry : Nat} {x : Int} {c : Prop} [Decidable c] {e : Error}

@[simp] theorem halts_fcAssert (h : e ≠ .outOfFuel) : Halts (fcAssert c e) := by
  unfold fcAssert
  split <;> simp [h]

@[simp] theorem halts_safe : Halts (safe x) := by
  unfold safe
  split <;> simp

@[simp] theorem halts_convert : Halts (convert a per out carry) := by simp [convert]

@[simp] theorem halts_mul : Halts (mul a p) := by simp [mul]

@[simp] theorem halts_multiplyAndRoundUp : Halts (multiplyAndRoundUp a p) := by simp [multiplyAndRoundUp]

@[simp] theorem halts_mkPrice : Halts (mkPrice a b) := by simp [mkPrice]

/-- A ratio in lowest terms has no greater parts than any other way to write it. -/
theorem num_le_of_div {m n : Int} (hm : 0 < m) (hn : 0 < n) : ((m : ℚ) / n).num ≤ m ∧ (((m : ℚ) / n).den : Int) ≤ n := by
  rw [← Rat.divInt_eq_div]
  exact ⟨Int.le_of_dvd hm (Rat.num_dvd m hn.ne'), Int.le_of_dvd hn (Rat.den_dvd m n)⟩

/-- Each round halves both parts, up to one. -/
theorem halts_shrink {half : Int → Int} (hhalf : ∀ n, 0 < n → 0 < half n ∧ half n ≤ n / 2 + 1) {n : Nat} {cp : ℚ} (hpos : 0 < cp)
    (hnum : cp.num ≤ 2 ^ n * (maxShareSupply - 1) + 1) (hden : (cp.den : Int) ≤ 2 ^ n * (maxShareSupply - 1) + 1) :
    Halts (shrink half (n + 1) cp) := by
  induction n generalizing cp with
  | zero =>
    rw [shrink, if_neg (by omega)]
    exact never_ok
  | succ n ih =>
    rw [shrink]
    split
    · obtain ⟨hnum₀, hnum₁⟩ := hhalf cp.num (Rat.num_pos.mpr hpos)
      obtain ⟨hden₀, hden₁⟩ := hhalf cp.den (Int.natCast_pos.mpr cp.den_pos)
      obtain ⟨hnum₂, hden₂⟩ := num_le_of_div hnum₀ hden₀
      have hpos' : (0 : ℚ) < half cp.num / half cp.den :=
        div_pos (by exact_mod_cast hnum₀) (by exact_mod_cast hden₀)
      have hpow : (2 : Int) ^ (n + 1) * (maxShareSupply - 1) = 2 * (2 ^ n * (maxShareSupply - 1)) := by ring
      exact ih hpos' (by omega) (by omega)
    · exact never_ok

/-- A ratio of amounts that fit into 79 bits is halved few times enough. -/
theorem halts_shrink_div {half : Int → Int} (hhalf : ∀ n, 0 < n → 0 < half n ∧ half n ≤ n / 2 + 1) {m n : Int} (hm : 0 ≤ m)
    (hm' : m < 2 ^ 79) (hn : 0 < n) (hn' : n < 2 ^ 79) {cp : ℚ} (hcp : cp = m / n) : Halts (shrink half 128 cp) := by
  subst hcp
  rcases hm.eq_or_lt with rfl | hm
  · have hsmall : ¬((0 : ℚ).num > maxShareSupply ∨ ((0 : ℚ).den : Int) > maxShareSupply) := by decide
    rw [Int.cast_zero, zero_div, shrink, if_neg hsmall]
    exact never_ok
  · obtain ⟨hnum, hden⟩ := num_le_of_div hm hn
    have hpos : (0 : ℚ) < m / n := div_pos (by exact_mod_cast hm) (by exact_mod_cast hn)
    have hfits : (2 : Int) ^ 79 ≤ 2 ^ 127 * (maxShareSupply - 1) + 1 := by decide
    exact halts_shrink hhalf hpos (by omega) (by omega)

variable {debt collateral : Asset} {ratio : Nat} {f : PriceFeed}

/-- The call price of amounts of 64 bits and a ratio of 16 bits -/
theorem halts_callPrice (hdebt : 0 ≤ debt.amount) (hdebt' : debt.amount < 2 ^ 63) (hcoll : 0 ≤ collateral.amount)
    (hcoll' : collateral.amount < 2 ^ 63) (hratio : ratio < 2 ^ 16) : Halts (callPrice debt collateral ratio) := by
  refine never_bind.mpr ⟨by simp, fun _ hne => never_bind.mpr ⟨?_, fun cp _ => by simp⟩⟩
  rw [fcAssert_eq_ok] at hne
  have hratio' : (ratio : Int) < 2 ^ 16 := by exact_mod_cast hratio
  refine halts_shrink_div (m := debt.amount * ratio) (n := collateral.amount * collateralRatioDenom) (fun n hn => by omega)
    (Int.mul_nonneg hdebt (Int.natCast_nonneg _)) (by nlinarith) ?_ ?_ ?_
  · exact Int.mul_pos (by omega) (by decide)
  · rw [show (collateralRatioDenom : Int) = 1000 from rfl]
    omega
  · push_cast
    rw [div_mul_div_comm]

theorem PriceFeed.halts_maxShortSqueezePrice (hbase : 0 ≤ f.settlementPrice.base.amount)
    (hbase' : f.settlementPrice.base.amount < 2 ^ 63) (hquote : 0 ≤ f.settlementPrice.quote.amount)
    (hquote' : f.settlementPrice.quote.amount < 2 ^ 63) (hratio : f.maximumShortSqueezeRatio < 2 ^ 16) :
    Halts f.maxShortSqueezePrice := by
  refine never_bind.mpr ⟨by simp, fun _ hne => never_bind.mpr ⟨?_, fun cp _ => by simp⟩⟩
  rw [fcAssert_eq_ok] at hne
  have hratio' : (f.maximumShortSqueezeRatio : Int) < 2 ^ 16 := by exact_mod_cast hratio
  refine halts_shrink_div (m := f.settlementPrice.base.amount * collateralRatioDenom)
    (n := f.settlementPrice.quote.amount * f.maximumShortSqueezeRatio) (fun n hn => by omega)
    (Int.mul_nonneg hbase (Int.natCast_nonneg _)) ?_ ?_ (by nlinarith) ?_
  · rw [show (collateralRatioDenom : Int) = 1000 from rfl]
    omega
  · exact Int.mul_pos (by omega) (by omega)
  · push_cast
    rw [div_mul_div_comm]

end

namespace Database
variable {d : Database} {account : AccountId} {δ : Asset} {a : AssetId} {id : Nat}

@[simp] theorem halts_lookup {α : Type} {l : List α} : Halts (lookup l id) := by
  unfold lookup
  split <;> simp

@[simp] theorem halts_getAccount : Halts (d.getAccount id) := halts_lookup

@[simp] theorem halts_getAsset : Halts (d.getAsset id) := halts_lookup

@[simp] theorem halts_getDynamicData : Halts (d.getDynamicData id) := halts_lookup

@[simp] theorem halts_getBitasset : Halts (d.getBitasset id) := by
  unfold getBitasset
  split <;> simp

@[simp] theorem halts_getLimitOrder : Halts (d.getLimitOrder id) := by
  unfold getLimitOrder
  split <;> simp

@[simp] theorem halts_adjustBalance : Halts (d.adjustBalance account δ) := by
  unfold adjustBalance
  split
  · simp
  · split <;> simp

theorem halts_modifyStatistics {f : AccountStatistics → Eval AccountStatistics} (h : ∀ s, Halts (f s)) :
    Halts (d.modifyStatistics account f) := by
  simp [modifyStatistics, getStatistics, h]

theorem halts_modifyDynamicData {f : AssetDynamicData → Eval AssetDynamicData} (h : ∀ x, Halts (f x)) :
    Halts (d.modifyDynamicData a f) := by
  simp [modifyDynamicData, h]

@[simp] theorem halts_payFee {fee : Int} : Halts (d.payFee account fee) := halts_modifyStatistics fun s => by simp

@[simp] theorem halts_adjustCoreInOrders : Halts (d.adjustCoreInOrders account δ) := by
  unfold adjustCoreInOrders
  split
  · exact halts_modifyStatistics fun s => by simp
  · simp

@[simp] theorem halts_accumulateFees : Halts (d.accumulateFees δ) := halts_modifyDynamicData fun x => by simp

@[simp] theorem halts_fundFeePool {amount : Int} : Halts (d.fundFeePool a amount) := halts_modifyDynamicData fun x => by simp

@[simp] theorem halts_changeSupply : Halts (d.changeSupply δ) := halts_modifyDynamicData fun x => by simp

/-! ### Orders -/

variable {order : LimitOrder} {pays receives : Asset} {p : Price} {maker : Bool}

@[simp] theorem halts_cancelLimitOrder {op : Bool} : Halts (d.cancelLimitOrder order op) := by simp [cancelLimitOrder]

@[simp] theorem halts_maybeCullSmallOrder : Halts (d.maybeCullSmallOrder order) := by
  simp [maybeCullSmallOrder, LimitOrder.amountToReceive]

@[simp] theorem halts_payMarketFees {x : AssetObject} : Halts (d.payMarketFees x receives) := by simp [payMarketFees]

@[simp] theorem halts_payOrder : Halts (d.payOrder account receives pays) := by simp [payOrder]

@[simp] theorem halts_fillLimitOrder {cull : Bool} : Halts (d.fillLimitOrder order pays receives cull p maker) := by
  simp [fillLimitOrder]

/-! ### Global settlement -/

theorem halts_settlementPays {c : CallOrder} : Halts (settlementPays c p) := by simp [settlementPays]

theorem halts_settleCalls {backing : AssetId} {l : List CallOrder} {g : Int} : Halts (settleCalls backing p l g d) := by
  induction l generalizing g d with
  | nil => exact never_ok
  | cons c cs ih =>
    -- the whole debt is filled, so that no call price is calculated
    simp [settleCalls, halts_settlementPays, fillCallOrder, safe_eq_ok, CallOrder.getDebt, ih]

theorem halts_globallySettleAsset : Halts (d.globallySettleAsset a p) := by
  simp [globallySettleAsset, halts_settleCalls, halts_modifyDynamicData]

/-- The amounts of the current feeds fit into `int64_t`. -/
def FeedsFit (d : Database) : Prop :=
  ∀ a b, d.bitasset a = some b → b.currentFeed.settlementPrice.base.amount < 2 ^ 63 ∧ b.currentFeed.settlementPrice.quote.amount < 2 ^ 63

theorem halts_checkForBlackswan {enable : Bool} (hd : d.Sound) (hf : d.FeedsFit) : Halts (d.checkForBlackswan a enable) := by
  unfold checkForBlackswan
  split
  · simp
  · rename_i b hb
    dsimp only
    split
    · simp
    · split
      · simp
      · rename_i hnull
        split
        · simp
        · obtain ⟨hbase, hquote⟩ := hf a b hb
          obtain ⟨hvalid, -, -⟩ := (hd.feeds a b hb).median.valid hnull
          have hmssp := PriceFeed.halts_maxShortSqueezePrice hvalid.base_pos.le hbase hvalid.quote_pos.le hquote
            (hd.feeds a b hb).median.squeezeRatio_lt
          refine never_bind.mpr ⟨hmssp, fun _ _ => never_bind.mpr ⟨?_, fun _ _ => ?_⟩⟩
          · split <;> simp
          · simp [halts_globallySettleAsset]

end Database

end Khc.Market
