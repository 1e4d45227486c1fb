import Khc.Lib.Numeral
import Khc.Text.MarketData
import Mathlib.Algebra.Order.Floor.Semifield
import Mathlib.Data.Rat.Floor

/-! The texts of market data are the canonical numerals of the exact values, truncated. -/

namespace Khc.Text.MarketData

open Lib
open Chain (Price maxInt64)

/-- A number without what is behind `d` decimal digits -/
def truncated (d : Nat) (x : ℚ) : ℚ := if 0 ≤ x then ⌊x * 10 ^ d⌋₊ / 10 ^ d else -(⌊-x * 10 ^ d⌋₊ / 10 ^ d)

/-- A price between the units of two assets with so many decimal digits -/
def unitPrice (p : Price) (basePrecision quotePrecision : Nat) : ℚ :=
  (p.base.amount / 10 ^ basePrecision) / (p.quote.amount / 10 ^ quotePrecision)

/-- By how many percent a price is above another one -/
def percentAbove (old new : Price) : ℚ := (new.base.amount / new.quote.amount / (old.base.amount / old.quote.amount) - 1) * 100

/-- The greatest percentage that is printed -/
def maxPercent : ℚ := maxUint128 / 100

/-- Two amounts of 64 bits -/
structure Positive (p : Price) : Prop where
  base_pos : 0 < p.base.amount
  base_le : p.base.amount ≤ maxInt64
  quote_pos : 0 < p.quote.amount
  quote_le : p.quote.amount ≤ maxInt64

section
variable {s t l r : List Char} {c : Char} {k n p : Nat}

/-! ### Numbers of 128 bits -/

/-- The zeros at the end of a text, and what is in front of them -/
theorem rdropWhile_zeros (s : List Char) : ∃ t k, s.rdropWhile (· = '0') = t ∧ s = t ++ List.replicate k '0' ∧ t.getLast? ≠ some '0' := by
  refine ⟨_, (s.rtakeWhile (· = '0')).length, rfl, ?_, ?_⟩
  · have hzeros : s.rtakeWhile (· = '0') = List.replicate (s.rtakeWhile (· = '0')).length '0' := by
      refine List.eq_replicate_of_mem fun c hc => ?_
      have := List.mem_rtakeWhile_imp hc
      exact of_decide_eq_true this
    rw [← hzeros, List.rdropWhile_append_rtakeWhile]
  · intro hlast
    have hne : s.rdropWhile (· = '0') ≠ [] := by
      intro hnil
      rw [hnil] at hlast
      cases hlast
    have hnot := List.rdropWhile_last_not (fun c => decide (c = '0')) s hne
    rw [List.getLast?_eq_getLast_of_ne_nil hne] at hlast
    exact hnot (decide_eq_true (Option.some.inj hlast))

theorem substr_zero (s : List Char) (k : Nat) : substr s 0 k = s.take k := rfl

/-- The point stands in front of digits other than zeros. -/
theorem numeral_split {j : Nat} (hs : Plain (t ++ List.replicate k '0')) (hlast : t.getLast? ≠ some '0')
    (hvalue : decimal (t ++ List.replicate k '0') = n) (hj : 0 < j) (hjt : j < t.length) (hp : t.length + k = j + p) :
    Numeral (t.take j ++ '.' :: t.drop j) (n / 10 ^ p) := by
  have hne : t.drop j ≠ [] := by
    intro hnil
    have := List.drop_eq_nil_iff.mp hnil
    omega
  have hleft : t.take j ≠ [] := by
    intro hnil
    have := congrArg List.length hnil
    rw [List.length_take, List.length_nil] at this
    omega
  have hl : Plain (t.take j) := by
    rw [← List.take_append_drop j t, List.append_assoc] at hs
    exact hs.prefix hleft
  have hr : Digits (t.drop j) := fun c hc => hs.digits c (List.mem_append_left _ (List.mem_of_mem_drop hc))
  have hlast' : (t.drop j).getLast? ≠ some '0' := by
    rwa [← List.take_append_drop j t, List.getLast?_append_of_ne_nil _ hne] at hlast
  have hparts := numeral_of_parts (k := k) (n := n) hl hr hlast' (by rw [List.take_append_drop]; exact hvalue)
  have hlength : (t.drop j).length + k = p := by
    rw [List.length_drop]
    omega
  rwa [point, if_neg hne, hlength] at hparts

/-- There are only zeros behind the point. -/
theorem numeral_whole {j : Nat} (hs : Plain (t ++ List.replicate k '0')) (hvalue : decimal (t ++ List.replicate k '0') = n)
    (hne : t ≠ []) (hjt : t.length ≤ j) (hp : t.length + k = j + p) :
    Numeral ((t ++ List.replicate k '0').take j) (n / 10 ^ p) := by
  obtain ⟨i, rfl⟩ := Nat.exists_eq_add_of_le hjt
  have hk : k = i + p := by omega
  subst hk
  have htake : (t ++ List.replicate (i + p) '0').take (t.length + i) = t ++ List.replicate i '0' := by
    rw [List.take_length_add_append, List.take_replicate, Nat.min_eq_left (Nat.le_add_right i p)]
  rw [← List.replicate_append_replicate, ← List.append_assoc] at hs hvalue
  have hl : Plain (t ++ List.replicate i '0') := hs.prefix (List.append_ne_nil_of_left_ne_nil hne _)
  have hparts := numeral_of_parts (k := p) (n := n) hl Digits.nil (by simp) (by rw [List.append_nil]; exact hvalue)
  rw [point, if_pos rfl, List.append_nil, List.length_nil, Nat.zero_add] at hparts
  rwa [htake]

/-- There are only zeros in front of the point. -/
theorem numeral_small {j : Nat} (hs : Digits (t ++ List.replicate k '0')) (hlast : t.getLast? ≠ some '0')
    (hvalue : decimal (t ++ List.replicate k '0') = n) (hne : t ≠ []) (hp : t.length + k + j = p) :
    Numeral (['0', '.'] ++ List.replicate j '0' ++ t) (n / 10 ^ p) := by
  have hr : Digits (List.replicate j '0' ++ t) := digits_append.mpr ⟨digits_zeros j, (digits_append.mp hs).1⟩
  have hlast' : (List.replicate j '0' ++ t).getLast? ≠ some '0' := by rwa [List.getLast?_append_of_ne_nil _ hne]
  have hzero : decimal ['0'] = 0 := decimal_zeros 1
  have hparts := numeral_of_parts (k := k) Plain.zero hr hlast' (n := n) (by
    rw [List.append_assoc, List.append_assoc, decimal_append, hzero, decimal_append, decimal_zeros, zero_mul, zero_mul, zero_add, zero_add,
      hvalue])
  have hlength : (List.replicate j '0' ++ t).length + k = p := by
    rw [List.length_append, List.length_replicate]
    omega
  rwa [point, if_neg (List.append_ne_nil_of_right_ne_nil _ hne), hlength] at hparts

/-- A volume is printed as its canonical numeral. -/
theorem numeral_amount (n p : Nat) : Numeral (uint128AmountToString n p) (n / 10 ^ p) := by
  unfold uint128AmountToString
  dsimp only
  split
  · rename_i hplain
    have hvalue : (n / 10 ^ p : ℚ) = decimal (Nat.toDigits 10 n) := by
      rw [decimal_toDigits]
      rcases hplain with rfl | rfl
      · rw [pow_zero, div_one]
      · rw [Nat.cast_zero, zero_div]
    rw [hvalue]
    exact .whole (plain_toDigits n)
  · rename_i hnot
    rw [not_or] at hnot
    obtain ⟨hp, hn⟩ := hnot
    have hs := plain_toDigits n
    have hvalue := decimal_toDigits n
    generalize Nat.toDigits 10 n = s at hs hvalue
    obtain ⟨t, k, ht, rfl, hlast⟩ := rdropWhile_zeros s
    have hne : t ≠ [] := by
      rintro rfl
      rw [List.nil_append, decimal_zeros] at hvalue
      exact hn hvalue.symm
    have hlength : 0 < t.length := List.length_pos_iff.mpr hne
    have hpos : findLastNotOf (t ++ List.replicate k '0') '0' + 1 = t.length := by
      rw [findLastNotOf, ht]
      omega
    rw [List.length_append, List.length_replicate]
    by_cases hlong : t.length + k > p
    · rw [if_pos hlong, substr_zero]
      generalize hj : t.length + k - p = j
      by_cases hpoint : findLastNotOf (t ++ List.replicate k '0') '0' ≥ j
      · have hcount : findLastNotOf (t ++ List.replicate k '0') '0' - j + 1 = (t.drop j).length := by
          rw [List.length_drop]
          omega
        rw [if_pos hpoint, List.take_append_of_le_length (by omega), substr, List.drop_append_of_le_length (by omega), hcount,
          List.take_left]
        exact numeral_split hs hlast hvalue (by omega) (by omega) (by omega)
      · rw [if_neg hpoint, List.append_nil]
        exact numeral_whole hs hvalue hne (by omega) (by omega)
    · rw [if_neg hlong, substr_zero, hpos, List.take_left]
      exact numeral_small hs.digits hlast hvalue hne (by omega)

end

/-! ### Prices -/

section
variable {x : ℚ} {d : Nat} {price oldPrice newPrice : Price} {s : List Char} {bp qp : Nat}

theorem truncated_div {m n : Nat} (hx : x * 10 ^ d = (m : ℚ) / n) (h : 0 ≤ x) : truncated d x = (m / n : Nat) / 10 ^ d := by
  rw [truncated, if_pos h, hx, Nat.floor_div_eq_div]

theorem Positive.cast (h : Positive price) : ∃ b q : Nat, (0 < b ∧ (b : Int) ≤ maxInt64) ∧ (0 < q ∧ (q : Int) ≤ maxInt64) ∧
    price.base.amount = b ∧ price.quote.amount = q := by
  have hb := Int.toNat_of_nonneg h.base_pos.le
  have hq := Int.toNat_of_nonneg h.quote_pos.le
  have hb' := h.base_pos
  have hq' := h.quote_pos
  refine ⟨price.base.amount.toNat, price.quote.amount.toNat, ⟨by omega, ?_⟩, ⟨by omega, ?_⟩, hb.symm, hq.symm⟩
  · rw [hb]
    exact h.base_le
  · rw [hq]
    exact h.quote_le

/-- The product with 10^19 fits into 128 bits. -/
theorem priceToString_eq (h : Positive price) (hbp : bp ≤ 19) (hqp : qp ≤ 19) :
    ∃ s, priceToString price bp qp = .ok s ∧ Numeral s (truncated (19 + bp - qp) (unitPrice price bp qp)) := by
  obtain ⟨b, q, ⟨hb, hb'⟩, ⟨hq, hq'⟩, hbase, hquote⟩ := h.cast
  have hfits : b * 10000000000000000000 < 2 ^ 128 := by
    unfold maxInt64 at hb'
    omega
  have hvalue : truncated (19 + bp - qp) (unitPrice price bp qp) = (b * 10000000000000000000 / q : Nat) / 10 ^ (19 + bp - qp) := by
    refine truncated_div ?_ ?_
    · have hten : (10 : ℚ) ^ (19 + bp - qp) * 10 ^ qp = 10 ^ 19 * 10 ^ bp := by
        rw [← pow_add, ← pow_add]
        congr 1
        omega
      have hqQ : (q : ℚ) ≠ 0 := by exact_mod_cast hq.ne'
      rw [unitPrice, hbase, hquote]
      push_cast
      field_simp
      rw [mul_comm, hten, mul_comm]
      norm_num
    · rw [unitPrice, hbase, hquote]
      positivity
  refine ⟨_, ?_, hvalue ▸ numeral_amount _ _⟩
  have hb₀ : (b : Int) ≠ 0 := by omega
  have hq₀ : (q : Int) ≠ 0 := by omega
  rw [priceToString, hbase, hquote, if_neg hb₀]
  simp only [ensure, ge_iff_le, Int.natCast_nonneg, if_true, ok_bind, hbp, hqp, finite, if_neg hq₀, Int.toNat_natCast, uint128,
    Nat.mod_eq_of_lt hfits]
  rfl

/-! ### Changes -/

/-- The products of the amounts of two prices -/
theorem product_lt {a b : Nat} (ha : (a : Int) ≤ maxInt64) (hb : (b : Int) ≤ maxInt64) : a * b < 2 ^ 126 := by
  have ha' : a < 2 ^ 63 := by
    unfold maxInt64 at ha
    omega
  have hb' : b < 2 ^ 63 := by
    unfold maxInt64 at hb
    omega
  calc a * b < 2 ^ 63 * 2 ^ 63 := Nat.mul_lt_mul'' ha' hb'
    _ = 2 ^ 126 := by norm_num

theorem toCapped128_eq (t : Nat) : toCapped128 t = min t maxUint128 := by
  have hle := Nat.div_mul_le_self t (2 ^ 64)
  unfold toCapped128
  split
  · omega
  · omega

/-- With 256 bits if need be, the difference is exact up to the greatest number of 128 bits. -/
theorem diffPercent_eq {diff old : Nat} (hdiff : diff < 2 ^ 126) : diffPercent diff old = min (diff * 10000 / old) maxUint128 := by
  unfold diffPercent
  split
  · rename_i hsmall
    have hfits : diff * 10000 ≤ maxUint128 := by omega
    have hle : diff * 10000 / old ≤ maxUint128 := (Nat.div_le_self _ _).trans hfits
    have hlt : diff * 10000 < 2 ^ 128 := by
      unfold maxUint128 at hfits
      omega
    rw [uint128, Nat.mod_eq_of_lt hlt, Nat.min_eq_left hle]
  · rw [toCapped128_eq, uint256, Nat.mod_eq_of_lt (by omega)]

theorem truncated_neg_div {m n : Nat} (hx : -x * 10 ^ d = (m : ℚ) / n) (h : x < 0) : truncated d x = -((m / n : Nat) / 10 ^ d) := by
  rw [truncated, if_neg (not_le.mpr h), hx, Nat.floor_div_eq_div]

theorem min_maxPercent (v : Nat) : min ((v : ℚ) / 10 ^ 2) maxPercent = (min v maxUint128 : Nat) / 10 ^ 2 := by
  have hten : (10 : ℚ) ^ 2 = 100 := by norm_num
  rw [hten, maxPercent, Nat.cast_min, min_div_div_right (by norm_num)]

/-- The digit zero denotes zero, and nothing else does. -/
theorem numeral_zero_iff (h : Numeral s x) : s = ['0'] ↔ x = 0 := by
  have hzero : ((decimal ['0'] : Nat) : ℚ) = 0 := Nat.cast_eq_zero.mpr (decimal_zeros 1)
  constructor
  · intro hs
    cases h with
    | whole hl => rw [hs, hzero]
    | @fraction l r hl hr hne hlast =>
      have hlength := congrArg List.length hs
      have hl' := List.length_pos_iff.mpr hl.ne_nil
      rw [List.length_append, List.length_cons, List.length_singleton] at hlength
      omega
  · rintro rfl
    exact h.inj (hzero ▸ .whole Plain.zero)

/-- What is printed for the products of the amounts -/
theorem canonical_diff {new old : Nat} (hnew : new < 2 ^ 126) (hold : old < 2 ^ 126) (hpos : 0 < old)
    (hx : x = ((new : ℚ) / old - 1) * 100) :
    Canonical (if new ≥ old ∨ uint128AmountToString (diffPercent (if new ≥ old then new - old else old - new) old) 2 = ['0'] then
        uint128AmountToString (diffPercent (if new ≥ old then new - old else old - new) old) 2
      else '-' :: uint128AmountToString (diffPercent (if new ≥ old then new - old else old - new) old) 2)
      (min (truncated 2 x) maxPercent) := by
  have holdQ : (0 : ℚ) < old := by exact_mod_cast hpos
  by_cases hle : new ≥ old
  · have hleQ : (old : ℚ) ≤ new := by exact_mod_cast hle
    have hvalue : truncated 2 x = ((new - old) * 10000 / old : Nat) / 10 ^ 2 := by
      refine truncated_div ?_ ?_
      · rw [hx]
        push_cast [hle]
        field_simp
        ring
      · have hone : (1 : ℚ) ≤ new / old := (one_le_div holdQ).mpr hleQ
        rw [hx]
        exact mul_nonneg (sub_nonneg.mpr hone) (by norm_num)
    rw [if_pos (.inl hle), if_pos hle, diffPercent_eq (by omega), hvalue, min_maxPercent]
    exact .nonneg (numeral_amount _ _)
  · have hlt : new < old := not_le.mp hle
    have hltQ : (new : ℚ) < old := by exact_mod_cast hlt
    have hneg : x < 0 := by
      have hone : (new : ℚ) / old < 1 := (div_lt_one holdQ).mpr hltQ
      rw [hx]
      exact mul_neg_of_neg_of_pos (sub_neg.mpr hone) (by norm_num)
    have hvalue : truncated 2 x = -(((old - new) * 10000 / old : Nat) / 10 ^ 2) := by
      refine truncated_neg_div ?_ hneg
      rw [hx]
      push_cast [hlt.le]
      field_simp
      ring
    -- a price falls by at most 100 percent
    have hsmall : (old - new) * 10000 / old ≤ maxUint128 := by
      have hdiv : (old - new) * 10000 / old ≤ 10000 := Nat.div_le_of_le_mul (Nat.mul_le_mul_right _ (Nat.sub_le _ _))
      exact hdiv.trans (by decide)
    have hmin : min (truncated 2 x) maxPercent = truncated 2 x := by
      refine min_eq_left ?_
      rw [hvalue]
      exact (neg_nonpos.mpr (by positivity)).trans (by rw [maxPercent]; positivity)
    rw [hmin, if_neg hle, diffPercent_eq (by omega), Nat.min_eq_left hsmall, hvalue]
    have hnumeral := numeral_amount ((old - new) * 10000 / old) 2
    generalize uint128AmountToString ((old - new) * 10000 / old) 2 = s at hnumeral
    generalize (((old - new) * 10000 / old : Nat) / 10 ^ 2 : ℚ) = v at hnumeral
    by_cases hs : s = ['0']
    · have hv := (numeral_zero_iff hnumeral).mp hs
      rw [if_pos (.inr hs), hv, neg_zero]
      exact .nonneg (hv ▸ hnumeral)
    · rw [if_neg (not_or.mpr ⟨hle, hs⟩)]
      exact .neg hnumeral fun hzero => hs ((numeral_zero_iff hnumeral).mpr hzero)

theorem priceDiffPercentString_eq (ho : Positive oldPrice) (hn : Positive newPrice) (hbase : oldPrice.base.assetId = newPrice.base.assetId)
    (hquote : oldPrice.quote.assetId = newPrice.quote.assetId) : ∃ s, priceDiffPercentString oldPrice newPrice = .ok s ∧
      Canonical s (min (truncated 2 (percentAbove oldPrice newPrice)) maxPercent) := by
  obtain ⟨ob, oq, ⟨hob, hob'⟩, ⟨hoq, hoq'⟩, hobase, hoquote⟩ := ho.cast
  obtain ⟨nb, nq, ⟨hnb, hnb'⟩, ⟨hnq, hnq'⟩, hnbase, hnquote⟩ := hn.cast
  have hnew := product_lt hnb' hoq'
  have hold := product_lt hob' hnq'
  have hpercent : percentAbove oldPrice newPrice = (((nb * oq : Nat) : ℚ) / (ob * nq : Nat) - 1) * 100 := by
    rw [percentAbove, hobase, hoquote, hnbase, hnquote]
    push_cast
    rw [div_div_div_eq]
    ring
  refine ⟨_, ?_, canonical_diff hnew hold (Nat.mul_pos hob hnq) hpercent⟩
  have hob₀ : (ob : Int) ≠ 0 := by omega
  have hoq₀ : (oq : Int) ≠ 0 := by omega
  have hnb₀ : (nb : Int) ≠ 0 := by omega
  have hnq₀ : (nq : Int) ≠ 0 := by omega
  have hnew' : nb * oq % 2 ^ 128 = nb * oq := Nat.mod_eq_of_lt (hnew.trans (by norm_num))
  have hold' : ob * nq % 2 ^ 128 = ob * nq := Nat.mod_eq_of_lt (hold.trans (by norm_num))
  rw [priceDiffPercentString, hobase, hoquote, hnbase, hnquote]
  simp only [ensure, hbase, hquote, ge_iff_le, Int.natCast_nonneg, if_true, ok_bind, finitePositive, finite, if_neg hob₀, if_neg hoq₀,
    if_neg hnb₀, if_neg hnq₀, Int.toNat_natCast, uint128, hnew', hold']
  rfl

end

theorem canonical_iff {s t : List Char} {x : ℚ} (h : Canonical t x) : t = s ↔ Canonical s x := ⟨fun heq => heq ▸ h, h.inj⟩

/-- The three texts are the canonical numerals of the exact values, truncated to the digits that there are; the change of a price in
    percent is cut off at what 128 bits hold. -/
theorem marketData_canonical :
    (∀ amount precision s, uint128AmountToString amount precision = s ↔ Canonical s (amount / 10 ^ precision)) ∧
    (∀ price basePrecision quotePrecision s, Positive price → basePrecision ≤ 19 → quotePrecision ≤ 19 →
      (priceToString price basePrecision quotePrecision = .ok s ↔
        Canonical s (truncated (19 + basePrecision - quotePrecision) (unitPrice price basePrecision quotePrecision)))) ∧
    ∀ oldPrice newPrice s, Positive oldPrice → Positive newPrice → oldPrice.base.assetId = newPrice.base.assetId →
      oldPrice.quote.assetId = newPrice.quote.assetId →
      (priceDiffPercentString oldPrice newPrice = .ok s ↔
        Canonical s (min (truncated 2 (percentAbove oldPrice newPrice)) maxPercent)) := by
  refine ⟨fun n p s => canonical_iff (.nonneg (numeral_amount n p)), fun price bp qp s h hbp hqp => ?_,
    fun oldPrice newPrice s ho hn hbase hquote => ?_⟩
  · obtain ⟨t, ht, hnumeral⟩ := priceToString_eq h hbp hqp
    rw [ht, Except.ok.injEq]
    exact canonical_iff (.nonneg hnumeral)
  · obtain ⟨t, ht, hcanonical⟩ := priceDiffPercentString_eq ho hn hbase hquote
    rw [ht, Except.ok.injEq]
    exact canonical_iff hcanonical

/-- From three halves to one and a third -/
theorem marketData_canonical_falls :
    Canonical ['-', '1', '1', '.', '1', '1'] (min (truncated 2 (percentAbove ⟨⟨3, 0⟩, ⟨2, 1⟩⟩ ⟨⟨4, 0⟩, ⟨3, 1⟩⟩)) maxPercent) := by
  have hold : Positive ⟨⟨3, 0⟩, ⟨2, 1⟩⟩ := ⟨by decide, by decide, by decide, by decide⟩
  have hnew : Positive ⟨⟨4, 0⟩, ⟨3, 1⟩⟩ := ⟨by decide, by decide, by decide, by decide⟩
  have hprinted : priceDiffPercentString ⟨⟨3, 0⟩, ⟨2, 1⟩⟩ ⟨⟨4, 0⟩, ⟨3, 1⟩⟩ = .ok ['-', '1', '1', '.', '1', '1'] := by decide +kernel
  exact (marketData_canonical.2.2 _ _ _ hold hnew rfl rfl).mp hprinted

/-- A price that rises from the least to the greatest one does so by more percent than are printed. -/
theorem change_cut : ¬ ∀ oldPrice newPrice s, Positive oldPrice → Positive newPrice → oldPrice.base.assetId = newPrice.base.assetId →
    oldPrice.quote.assetId = newPrice.quote.assetId →
    (priceDiffPercentString oldPrice newPrice = .ok s ↔ Canonical s (truncated 2 (percentAbove oldPrice newPrice))) := by
  intro h
  have hexact : truncated 2 (percentAbove ⟨⟨1, 0⟩, ⟨9223372036854775807, 1⟩⟩ ⟨⟨9223372036854775807, 0⟩, ⟨1, 1⟩⟩) =
      ((850705917302346158473969077842325012480000 : Nat) : ℚ) / 10 ^ 2 := by
    have hdiv := truncated_div (x := percentAbove ⟨⟨1, 0⟩, ⟨9223372036854775807, 1⟩⟩ ⟨⟨9223372036854775807, 0⟩, ⟨1, 1⟩⟩) (d := 2)
      (m := 850705917302346158473969077842325012480000) (n := 1) (by norm_num [percentAbove]) (by norm_num [percentAbove])
    rwa [Nat.div_one] at hdiv
  have hnumeral := numeral_amount 850705917302346158473969077842325012480000 2
  rw [← hexact] at hnumeral
  have hprinted := (h ⟨⟨1, 0⟩, ⟨9223372036854775807, 1⟩⟩ ⟨⟨9223372036854775807, 0⟩, ⟨1, 1⟩⟩
    (uint128AmountToString 850705917302346158473969077842325012480000 2) ⟨by decide, by decide, by decide, by decide⟩ ⟨by decide, by decide, by decide, by decide⟩ rfl rfl).mpr
    (.nonneg hnumeral)
  have hcut : priceDiffPercentString ⟨⟨1, 0⟩, ⟨9223372036854775807, 1⟩⟩ ⟨⟨9223372036854775807, 0⟩, ⟨1, 1⟩⟩ ≠
      .ok (uint128AmountToString 850705917302346158473969077842325012480000 2) := by decide +kernel
  exact hcut hprinted

end Khc.Text.MarketData
