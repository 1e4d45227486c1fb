import Khc.Text.Shapes
import Mathlib.Data.Nat.GCD.Basic
import Mathlib.Tactic.Linarith

/-! Amounts that are read again from what they are printed as. The fractional part of a negative amount is printed with a digit missing, and
    its sign is that of the quotient, which may be zero. -/

namespace Khc.Text

open Lib
open Chain (InInt64 maxShareSupply AssetId)

section
variable {n p q r : Nat} {s : List Char} {v : Int}

theorem toString_natCast (n : Nat) : toString n = Nat.toDigits 10 n := by
  rw [toString, if_neg (not_lt.mpr (Int.natCast_nonneg n)), Int.natAbs_natCast]

theorem toString_neg (hn : 0 < n) : toString (-(n : Int)) = '-' :: Nat.toDigits 10 n := by
  rw [toString, if_pos (by omega), Int.natAbs_neg, Int.natAbs_natCast]

/-! ### What is printed -/

theorem printAmount_whole (n p : Nat) (h : n % 10 ^ p = 0) : printAmount n (10 ^ p) = Nat.toDigits 10 (n / 10 ^ p) := by
  have hpow : (10 ^ p : Int) = (10 ^ p : Nat) := by push_cast; rfl
  rw [printAmount, hpow, Int.tdiv_eq_ediv_of_nonneg (Int.natCast_nonneg n), Int.tmod_eq_emod_of_nonneg (Int.natCast_nonneg n),
    ← Int.natCast_emod, ← Int.natCast_ediv, h]
  exact toString_natCast _

theorem printAmount_fraction (n p : Nat) (h : n % 10 ^ p ≠ 0) : printAmount n (10 ^ p) =
    Nat.toDigits 10 (n / 10 ^ p) ++ '.' :: (Nat.toDigits 10 (10 ^ p + n % 10 ^ p)).drop 1 := by
  have hpow : (10 ^ p : Int) = (10 ^ p : Nat) := by push_cast; rfl
  rw [printAmount, hpow, Int.tdiv_eq_ediv_of_nonneg (Int.natCast_nonneg n), Int.tmod_eq_emod_of_nonneg (Int.natCast_nonneg n),
    ← Int.natCast_emod, ← Int.natCast_ediv]
  rw [if_pos (Int.natCast_ne_zero.mpr h), ← Nat.cast_add, toString_natCast, toString_natCast]

theorem printAmount_neg_whole (n p : Nat) (hn : 0 < n) (h : n % 10 ^ p = 0) :
    printAmount (-(n : Int)) (10 ^ p) = '-' :: Nat.toDigits 10 (n / 10 ^ p) := by
  have hpow : (10 ^ p : Int) = (10 ^ p : Nat) := by push_cast; rfl
  have hpos : 0 < n / 10 ^ p := Nat.div_pos (Nat.le_of_dvd hn (Nat.dvd_of_mod_eq_zero h)) (Nat.pow_pos (by decide))
  rw [printAmount, hpow, Int.neg_tdiv, Int.neg_tmod, Int.tdiv_eq_ediv_of_nonneg (Int.natCast_nonneg n),
    Int.tmod_eq_emod_of_nonneg (Int.natCast_nonneg n), ← Int.natCast_emod, ← Int.natCast_ediv, h]
  exact toString_neg hpos

/-- Of a negative amount with a fractional part, the complement of that part is printed, without its first digit. -/
theorem printAmount_neg_fraction (n p : Nat) (h : n % 10 ^ p ≠ 0) : printAmount (-(n : Int)) (10 ^ p) =
    toString (-((n / 10 ^ p : Nat) : Int)) ++ '.' :: (Nat.toDigits 10 (10 ^ p - n % 10 ^ p)).drop 1 := by
  have hpow : (10 ^ p : Int) = (10 ^ p : Nat) := by push_cast; rfl
  have hlt : n % 10 ^ p ≤ 10 ^ p := (Nat.mod_lt _ (Nat.pow_pos (by decide))).le
  rw [printAmount, hpow, Int.neg_tdiv, Int.neg_tmod, Int.tdiv_eq_ediv_of_nonneg (Int.natCast_nonneg n),
    Int.tmod_eq_emod_of_nonneg (Int.natCast_nonneg n), ← Int.natCast_emod, ← Int.natCast_ediv]
  rw [if_pos (neg_ne_zero.mpr (Int.natCast_ne_zero.mpr h)), ← sub_eq_add_neg, ← Nat.cast_sub hlt, toString_natCast]

/-! ### What is read again -/

theorem read_printed (hp : p < 19) (h : (n : Int) ≤ maxShareSupply) : readAmount (printAmount n (10 ^ p)) p = .ok (n : Int) := by
  have hdiv := Nat.div_add_mod n (10 ^ p)
  by_cases hr : n % 10 ^ p = 0
  · have hvalue : n / 10 ^ p * 10 ^ p = n := by
      rw [hr, add_zero] at hdiv
      rw [mul_comm, hdiv]
    have hwhole := (readAmount_whole (p := p) (v := n) false (digits_toDigits (n / 10 ^ p)) hp).mpr
      ⟨by rwa [decimal_toDigits, hvalue], by rw [decimal_toDigits, hvalue]; rfl⟩
    rw [printAmount_whole n p hr]
    exact hwhole
  · obtain ⟨m, hm, hdigits, hlen, hdecimal⟩ := padded (Nat.mod_lt n (Nat.pow_pos (by decide) : 0 < 10 ^ p))
    have hvalue : satoshis (Nat.toDigits 10 (n / 10 ^ p)) m p = n := by
      rw [satoshis, decimal_toDigits, hdecimal, hlen, Nat.sub_self, pow_zero, mul_one, mul_comm, hdiv]
    have hfraction := (readAmount_fraction (p := p) (v := n) false (digits_toDigits (n / 10 ^ p)) hdigits hp (fun h => Bool.noConfusion h)).mpr
      ⟨hlen.le, by rwa [hvalue], by rw [hvalue]; rfl⟩
    rw [printAmount_fraction n p hr, hm]
    exact hfraction

theorem read_printed_neg (hp : p < 19) (hn : 0 < n) (h : (n : Int) ≤ maxShareSupply) (hr : n % 10 ^ p = 0) :
    readAmount (printAmount (-(n : Int)) (10 ^ p)) p = .ok (-(n : Int)) := by
  have hdiv := Nat.div_add_mod n (10 ^ p)
  have hvalue : n / 10 ^ p * 10 ^ p = n := by
    rw [hr, add_zero] at hdiv
    rw [mul_comm, hdiv]
  have hwhole := (readAmount_whole (p := p) (v := -(n : Int)) true (digits_toDigits (n / 10 ^ p)) hp).mpr
    ⟨by rwa [decimal_toDigits, hvalue], by rw [decimal_toDigits, hvalue]; rfl⟩
  rw [printAmount_neg_whole n p hn hr]
  exact hwhole

/-- A number is not the complement of itself and a digit before it, shifted by at least one digit. -/
theorem not_complement {d j k w : Nat} (hd : d ≤ 9) (hk : 0 < k) : d * 10 ^ j + w + w * 10 ^ k ≠ 10 ^ (j + k) := by
  intro h
  have hpow : 10 ≤ 10 ^ k := Nat.le_self_pow hk.ne' 10
  have hfactor : w * (10 ^ k + 1) = 10 ^ j * (10 ^ k - d) := by
    rw [Nat.mul_sub, ← pow_add, ← h, mul_comm (10 ^ j) d, mul_add, mul_one]
    omega
  have hcoprime : Nat.Coprime (10 ^ k + 1) (10 ^ j) := by
    refine Nat.Coprime.pow_right j ?_
    obtain ⟨i, rfl⟩ : ∃ i, k = i + 1 := ⟨k - 1, by omega⟩
    rw [pow_succ, Nat.coprime_mul_right_add_left]
    exact Nat.coprime_one_left 10
  have hdvd : 10 ^ k + 1 ∣ 10 ^ k - d := hcoprime.dvd_of_dvd_mul_left ⟨w, by rw [← hfactor, mul_comm]⟩
  have hle := Nat.le_of_dvd (by omega) hdvd
  omega

/-- A negative amount with a fractional part is read as another one. -/
theorem read_printed_neg_ne (hp : p < 19) (hr : n % 10 ^ p ≠ 0) : readAmount (printAmount (-(n : Int)) (10 ^ p)) p ≠ .ok (-(n : Int)) := by
  have hpos : 0 < 10 ^ p := Nat.pow_pos (by decide)
  have hmod := Nat.mod_lt n hpos
  have hdiv := Nat.div_add_mod n (10 ^ p)
  have hdigits := digits_toDigits (10 ^ p - n % 10 ^ p)
  have hcomplement := decimal_toDigits (10 ^ p - n % 10 ^ p)
  have hlength : (Nat.toDigits 10 (10 ^ p - n % 10 ^ p)).length ≤ p := by
    rcases p.eq_zero_or_pos with rfl | hp'
    · exact absurd (Nat.mod_one n) hr
    · exact (Nat.length_toDigits_le_iff (by decide) hp').mpr (by omega)
  rw [printAmount_neg_fraction n p hr]
  cases hl : Nat.toDigits 10 (10 ^ p - n % 10 ^ p) with
  | nil => exact absurd hl Nat.toDigits_ne_nil
  | cons c w =>
    rw [hl] at hdigits hcomplement hlength
    rw [List.length_cons] at hlength
    have hw := (digits_cons.mp hdigits).2
    rw [List.drop_one, List.tail_cons]
    intro h
    rcases (n / 10 ^ p).eq_zero_or_pos with hq | hq
    · -- the quotient has no sign
      rw [hq, Nat.cast_zero, neg_zero, ← Nat.cast_zero, toString_natCast] at h
      obtain ⟨-, -, hv⟩ := (readAmount_fraction false (digits_toDigits 0) hw hp (fun h => Bool.noConfusion h)).mp h
      rw [if_neg Bool.false_ne_true] at hv
      have hzero : n % 10 ^ p ≤ n := Nat.mod_le n _
      omega
    · rw [toString_neg hq] at h
      obtain ⟨-, -, hv⟩ := (readAmount_fraction true (digits_toDigits (n / 10 ^ p)) hw hp (fun _ => Nat.toDigits_ne_nil)).mp h
      rw [if_pos rfl, satoshis, decimal_toDigits, mul_comm (n / 10 ^ p)] at hv
      rw [decimal_cons] at hcomplement
      refine not_complement (j := w.length) (k := p - w.length) (w := decimal w) (digit_le (digits_cons.mp hdigits).1) (by omega) ?_
      rw [Nat.add_sub_cancel' (by omega : w.length ≤ p)]
      omega

/-! ### The two printers -/

theorem khcAmountToString_eq (hp : p < 19) : khcAmountToString v p = .ok (printAmount v (10 ^ p)) := by
  rw [khcAmountToString, scaledPrecision_eq hp]
  rfl

/-- The loop of `asset_object::amount_to_string` stays within 64 bits. -/
theorem scaled_eq (hp : p < 19) : (List.range p).foldlM (fun scaled _ => safe (scaled * 10)) 1 = .ok (10 ^ p : Int) := by
  induction p with
  | zero => rfl
  | succ p ih =>
    have hpow := pow_le_maxShareSupply hp
    have hfit : InInt64 (10 ^ p * 10) := by
      have hcast : (10 ^ (p + 1) : Int) = (10 ^ (p + 1) : Nat) := by push_cast; rfl
      rw [← pow_succ, hcast]
      generalize 10 ^ (p + 1) = scaled at hpow
      unfold InInt64
      omega
    rw [List.range_succ, List.foldlM_append, ih (by omega), ok_bind, List.foldlM_cons, safe, ensure, if_pos hfit, pow_succ]
    rfl

theorem amountToString_eq (hp : p < 19) : amountToString p v = .ok (printAmount v (10 ^ p)) := by
  rw [amountToString, scaled_eq hp]
  rfl

end

/-- An amount is read again from its text if it is not negative or has no fractional part, and only then. -/
theorem amount_roundTrip_iff {p : Nat} {a : Int} (hp : p < 19) (ha : -maxShareSupply ≤ a) (ha' : a ≤ maxShareSupply) :
    ((khcAmountToString a p >>= fun text => khcAmountFromString text p) = .ok a ∧
      ∀ id : AssetId, (amountToString p a >>= fun text => amountFromString id p text) = .ok ⟨a, id⟩) ↔ 0 ≤ a ∨ (10 ^ p : Int) ∣ a := by
  have hasset : ∀ id : AssetId, (amountToString p a >>= fun text => amountFromString id p text) = .ok ⟨a, id⟩ ↔
      readAmount (printAmount a (10 ^ p)) p = .ok a := by
    intro id
    rw [amountToString_eq hp, ok_bind]
    simp only [amountFromString, bind_eq_ok, pure_eq_ok]
    constructor
    · rintro ⟨v, h, heq⟩
      obtain rfl := congrArg Chain.Asset.amount heq
      exact h
    · intro h
      exact ⟨a, h, rfl⟩
  have hread : ((khcAmountToString a p >>= fun text => khcAmountFromString text p) = .ok a ∧
      ∀ id : AssetId, (amountToString p a >>= fun text => amountFromString id p text) = .ok ⟨a, id⟩) ↔
      readAmount (printAmount a (10 ^ p)) p = .ok a := by
    rw [khcAmountToString_eq hp, ok_bind]
    exact ⟨fun h => h.1, fun h => ⟨h, fun id => (hasset id).mpr h⟩⟩
  rw [hread]
  obtain ⟨n, rfl | rfl⟩ := a.eq_nat_or_neg
  · exact ⟨fun _ => .inl (Int.natCast_nonneg n), fun _ => read_printed hp ha'⟩
  · have hdvd : (10 ^ p : Int) ∣ -(n : Int) ↔ n % 10 ^ p = 0 := by
      have hcast : (10 ^ p : Int) = (10 ^ p : Nat) := by push_cast; rfl
      rw [Int.dvd_neg, hcast, Int.natCast_dvd_natCast, Nat.dvd_iff_mod_eq_zero]
    rw [hdvd]
    rcases n.eq_zero_or_pos with rfl | hn
    · exact ⟨fun _ => .inl le_rfl, fun _ => read_printed (n := 0) hp (by decide)⟩
    · constructor
      · intro h
        by_contra hnot
        rw [not_or] at hnot
        exact read_printed_neg_ne hp hnot.2 h
      · rintro (hneg | hr)
        · omega
        · exact read_printed_neg hp hn (neg_le_neg_iff.mp ha) hr

theorem amount_roundTrip_iff_hundred : (khcAmountToString (-100) 2 >>= fun text => khcAmountFromString text 2) = .ok (-100) :=
  ((amount_roundTrip_iff (by decide) (by decide) (by decide)).mpr (.inr (by decide))).1

/-- With a precision of two, -150 is printed as -1.0, and -50 as 0.0. -/
theorem amount_lost : khcAmountToString (-150) 2 = .ok ['-', '1', '.', '0'] ∧ khcAmountFromString ['-', '1', '.', '0'] 2 = .ok (-100) ∧
    khcAmountToString (-50) 2 = .ok ['0', '.', '0'] ∧ khcAmountFromString ['0', '.', '0'] 2 = .ok 0 := by
  decide +kernel

end Khc.Text
