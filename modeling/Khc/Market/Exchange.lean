import Khc.Market.Products

/-! Conversions at a price, the same for both sides of it: what an amount buys, the least amount that buys it, and when the
    amounts fit. -/

namespace Khc.Market

open Lib
open Chain (Asset Price maxShareSupply)

variable {a b r x y per out : Asset} {p : Price} {carry : Nat}

/-- One side of a price and the other one: how amounts of these assets are converted -/
structure Sides (p : Price) (per out : Asset) : Prop where
  per_pos : 0 < per.amount
  out_pos : 0 < out.amount
  assets : per.assetId ≠ out.assetId
  down : ∀ a : Asset, a.assetId = per.assetId → mul a p = convert a per out 0
  up : ∀ a : Asset, a.assetId = out.assetId → multiplyAndRoundUp a p = convert a out per (out.amount.toNat - 1)

theorem sides_base (hp : p.Valid) : Sides p p.base p.quote where
  per_pos := hp.base_pos
  out_pos := hp.quote_pos
  assets := hp.assets
  down a ha := if_pos ha
  up a ha := by
    unfold multiplyAndRoundUp
    rw [if_neg fun hbase => hp.assets (hbase.symm.trans ha), if_pos ha]

theorem sides_quote (hp : p.Valid) : Sides p p.quote p.base where
  per_pos := hp.quote_pos
  out_pos := hp.base_pos
  assets := hp.assets.symm
  down a ha := by
    unfold mul
    rw [if_neg fun hbase => hp.assets (hbase.symm.trans ha), if_pos ha]
  up a ha := if_pos ha

theorem convert_of_div (h : convert a per out carry = .ok r)
    (hdiv : (b.amount.toNat * out.amount.toNat + carry) / per.amount.toNat =
      (a.amount.toNat * out.amount.toNat + carry) / per.amount.toNat) : convert b per out carry = .ok r := by
  unfold convert at h ⊢
  rw [hdiv]
  exact h

theorem convert_le (h : convert a per out carry = .ok r) : r.amount ≤ maxShareSupply := by
  simp only [convert, bind_eq_ok, fcAssert_eq_ok, pure_eq_ok] at h
  obtain ⟨-, -, -, hmax, rfl⟩ := h
  exact hmax

theorem convert_total (hper : 0 < per.amount)
    (hmax : (((a.amount.toNat * out.amount.toNat + carry) / per.amount.toNat : Nat) : Int) ≤ maxShareSupply) :
    ∃ r, convert a per out carry = .ok r := by
  refine ⟨⟨((a.amount.toNat * out.amount.toNat + carry) / per.amount.toNat : Nat), out.assetId⟩, ?_⟩
  simp only [convert, bind_eq_ok, fcAssert_eq_ok]
  exact ⟨(), hper, (), hmax, rfl⟩

/-- What an amount buys, the least amount that buys it, and what is left of it -/
theorem least_bounds {u v w n m : Nat} (hm : 0 < m) (hn : 0 < n) (hv : v = u * m / n) (hw : w = (v * n + (m - 1)) / m) :
    w ≤ u ∧ w * m / n = v ∧ (u - w) * m < n ∧ ∀ z, v ≤ z * m / n → w ≤ z := by
  have hvn : v * n ≤ u * m := hv ▸ Nat.div_mul_le_self _ _
  have hun : u * m < (v + 1) * n := by
    rw [hv, Nat.add_mul, Nat.one_mul]
    exact Nat.lt_div_mul_add hn
  have hwm : v * n ≤ w * m := by
    have hup := Nat.lt_div_mul_add (a := v * n + (m - 1)) hm
    rw [← hw] at hup
    omega
  have hleast : ∀ z, v * n ≤ z * m → w ≤ z := by
    intro z hz
    rw [hw, ← Nat.lt_succ_iff, Nat.div_lt_iff_lt_mul hm, Nat.succ_mul]
    omega
  have hwu : w ≤ u := hleast u hvn
  refine ⟨hwu, ?_, ?_, fun z hz => hleast z ?_⟩
  · have hwm' : w * m ≤ u * m := Nat.mul_le_mul_right m hwu
    exact Nat.div_eq_of_lt_le hwm (by omega)
  · rw [Nat.sub_mul, Nat.add_mul] at *
    omega
  · exact (Nat.mul_le_mul_right n hz).trans (Nat.div_mul_le_self _ _)

/-- An order that pays the least amount that buys what it receives -/
structure PaysLeast (p : Price) (pays receives : Asset) : Prop where
  worth : mul pays p = .ok receives
  least : ∀ x r : Asset, x.assetId = pays.assetId → mul x p = .ok r → receives.amount ≤ r.amount → pays.amount ≤ x.amount

/-- What a converted amount and the least amount for it are -/
theorem Sides.paysLeast (h : Sides p per out) (hx : x.assetId = per.assetId) (hpos : 0 ≤ x.amount)
    (hr : mul x p = .ok r) (hy : multiplyAndRoundUp r p = .ok y) (hsome : 0 < r.amount) :
    PaysLeast p y r ∧ y.assetId = x.assetId ∧ r.assetId = out.assetId ∧ 0 < y.amount ∧ y.amount ≤ x.amount ∧
      (x.amount - y.amount) * out.amount < per.amount := by
  rw [h.down x hx] at hr
  obtain ⟨-, hrasset, hramount⟩ := convert_eq_ok hr
  rw [h.up r hrasset] at hy
  obtain ⟨-, hyasset, hyamount⟩ := convert_eq_ok hy
  have hm : 0 < out.amount.toNat := by have := h.out_pos; omega
  have hn : 0 < per.amount.toNat := by have := h.per_pos; omega
  rw [Nat.add_zero] at hramount
  have hv : r.amount.toNat = x.amount.toNat * out.amount.toNat / per.amount.toNat := by rw [hramount, Int.toNat_natCast]
  have hw : y.amount.toNat = (r.amount.toNat * per.amount.toNat + (out.amount.toNat - 1)) / out.amount.toNat := by
    rw [hyamount, Int.toNat_natCast]
  obtain ⟨hle, hworth, hleft, hleast⟩ := least_bounds hm hn hv hw
  have hynonneg : 0 ≤ y.amount := hyamount ▸ Int.natCast_nonneg _
  have hysome : y.amount.toNat ≠ 0 := by
    intro hzero
    rw [hzero, Nat.zero_mul, Nat.zero_div] at hworth
    omega
  have hy' : y.assetId = per.assetId := hyasset
  refine ⟨⟨?_, fun z s hz hs hle => ?_⟩, hy'.trans hx.symm, hrasset, by omega, by omega, ?_⟩
  · rw [h.down y hy']
    refine convert_of_div hr ?_
    rw [Nat.add_zero, Nat.add_zero, hworth, hv]
  · rw [h.down z (hz.trans hy')] at hs
    obtain ⟨-, -, hsamount⟩ := convert_eq_ok hs
    rw [Nat.add_zero] at hsamount
    have := hleast z.amount.toNat (by omega)
    omega
  · have hdiff : ((x.amount.toNat - y.amount.toNat : Nat) : Int) = x.amount - y.amount := by omega
    have hout : (out.amount.toNat : Int) = out.amount := Int.toNat_of_nonneg h.out_pos.le
    have hper : (per.amount.toNat : Int) = per.amount := Int.toNat_of_nonneg h.per_pos.le
    rw [← hdiff, ← hout, ← hper]
    exact_mod_cast hleft

theorem Sides.back (h : Sides p per out) (hx : x.assetId = per.assetId) (hr : mul x p = .ok r)
    (hmax : x.amount ≤ maxShareSupply) : ∃ y, multiplyAndRoundUp r p = .ok y := by
  rw [h.down x hx] at hr
  obtain ⟨-, hasset, hamount⟩ := convert_eq_ok hr
  rw [h.up r hasset]
  refine convert_total h.out_pos ?_
  have hle : (x.amount.toNat * out.amount.toNat / per.amount.toNat * per.amount.toNat + (out.amount.toNat - 1)) /
    out.amount.toNat ≤ x.amount.toNat := roundTrip_le
  have hconst : (0 : Int) ≤ maxShareSupply := by decide
  rw [hamount, Int.toNat_natCast, Nat.add_zero]
  omega

theorem Sides.below (h : Sides p per out) (h' : Sides p out per) (hx : x.assetId = per.assetId) (hr : mul x p = .ok r)
    (hmax : x.amount ≤ maxShareSupply) (hy : y.assetId = out.assetId) (hle : y.amount ≤ r.amount) : ∃ s, mul y p = .ok s := by
  rw [h.down x hx] at hr
  obtain ⟨-, hasset, hamount⟩ := convert_eq_ok hr
  rw [h'.down y hy]
  refine convert_total h.out_pos ?_
  rw [Nat.add_zero] at hamount
  have hback : y.amount.toNat * per.amount.toNat / out.amount.toNat ≤ x.amount.toNat :=
    mul_div_le_of_le (Int.toNat_le.mpr (hamount ▸ hle))
  have hconst : (0 : Int) ≤ maxShareSupply := by decide
  rw [Nat.add_zero]
  omega

/-! ### Amounts that fit -/

theorem Sides.mul_total (h : Sides p per out) (hx : x.assetId = per.assetId) (hpos : 0 ≤ x.amount)
    (hfits : x.amount * out.amount < (maxShareSupply + 1) * per.amount) : ∃ r, mul x p = .ok r := by
  have hper := h.per_pos
  have hx' : (x.amount.toNat : Int) = x.amount := Int.toNat_of_nonneg hpos
  have hout' : (out.amount.toNat : Int) = out.amount := Int.toNat_of_nonneg h.out_pos.le
  have hper' : (per.amount.toNat : Int) = per.amount := Int.toNat_of_nonneg hper.le
  rw [h.down x hx]
  refine convert_total hper ?_
  rw [Nat.add_zero, Int.natCast_div, Nat.cast_mul, hx', hout', hper', ← Int.lt_add_one_iff]
  exact Int.ediv_lt_of_lt_mul hper hfits

theorem Sides.roundUp_total {m : Int} (h : Sides p per out) (hx : x.assetId = out.assetId) (hpos : 0 ≤ x.amount)
    (hle : x.amount * per.amount ≤ m * out.amount) (hmax : m ≤ maxShareSupply) : ∃ r, multiplyAndRoundUp x p = .ok r := by
  have hout := h.out_pos
  have hx' : (x.amount.toNat : Int) = x.amount := Int.toNat_of_nonneg hpos
  have hout' : (out.amount.toNat : Int) = out.amount := Int.toNat_of_nonneg hout.le
  have hper' : (per.amount.toNat : Int) = per.amount := Int.toNat_of_nonneg h.per_pos.le
  have hcarry : ((out.amount.toNat - 1 : Nat) : Int) = out.amount - 1 := by omega
  rw [h.up x hx]
  refine convert_total hout ?_
  rw [Int.natCast_div, Nat.cast_add, Nat.cast_mul, hx', hout', hper', hcarry, ← Int.lt_add_one_iff]
  refine Int.ediv_lt_of_lt_mul hout ?_
  have := Int.mul_le_mul_of_nonneg_right hmax hout.le
  rw [Int.add_mul]
  omega

theorem Sides.roundUp_le {m : Int} (h : Sides p per out) (hx : x.assetId = out.assetId) (hpos : 0 ≤ x.amount)
    (hr : multiplyAndRoundUp x p = .ok r) (hle : x.amount * per.amount ≤ m * out.amount) : r.amount ≤ m := by
  have hout := h.out_pos
  have hx' : (x.amount.toNat : Int) = x.amount := Int.toNat_of_nonneg hpos
  have hout' : (out.amount.toNat : Int) = out.amount := Int.toNat_of_nonneg hout.le
  have hper' : (per.amount.toNat : Int) = per.amount := Int.toNat_of_nonneg h.per_pos.le
  have hcarry : ((out.amount.toNat - 1 : Nat) : Int) = out.amount - 1 := by omega
  rw [h.up x hx] at hr
  obtain ⟨-, -, hamount⟩ := convert_eq_ok hr
  rw [hamount, Int.natCast_div, Nat.cast_add, Nat.cast_mul, hx', hout', hper', hcarry, ← Int.lt_add_one_iff]
  refine Int.ediv_lt_of_lt_mul hout ?_
  rw [Int.add_mul]
  omega

/-- What is paid for an amount, rounded up, is the least amount that buys what it buys. -/
theorem Sides.stable (h : Sides p per out) (ha : a.assetId = out.assetId) (hb : multiplyAndRoundUp a p = .ok b)
    (hr : mul b p = .ok r) : multiplyAndRoundUp r p = .ok b := by
  rw [h.up a ha] at hb
  obtain ⟨-, hbasset, hbamount⟩ := convert_eq_ok hb
  rw [h.down b hbasset] at hr
  obtain ⟨-, hrasset, hramount⟩ := convert_eq_ok hr
  rw [h.up r hrasset]
  refine convert_of_div hb ?_
  have hm : 0 < out.amount.toNat := by have := h.out_pos; omega
  have hn : 0 < per.amount.toNat := by have := h.per_pos; omega
  have hb' : b.amount.toNat = (a.amount.toNat * per.amount.toNat + (out.amount.toNat - 1)) / out.amount.toNat := by
    rw [hbamount, Int.toNat_natCast]
  have hr' : r.amount.toNat = b.amount.toNat * out.amount.toNat / per.amount.toNat := by
    rw [hramount, Int.toNat_natCast, Nat.add_zero]
  rw [← hb', hr']
  refine le_antisymm roundTrip_le ?_
  -- no less is bought than what was asked for
  have hup := Nat.lt_div_mul_add (a := a.amount.toNat * per.amount.toNat + (out.amount.toNat - 1)) hm
  rw [← hb'] at hup
  have hmore : a.amount.toNat ≤ b.amount.toNat * out.amount.toNat / per.amount.toNat :=
    (Nat.le_div_iff_mul_le hn).mpr (by omega)
  have hmul := Nat.mul_le_mul_right per.amount.toNat hmore
  rw [hb']
  exact Nat.div_le_div_right (by rw [← hb']; omega)

end Khc.Market
