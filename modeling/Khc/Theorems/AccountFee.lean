import Khc.Fees.FeeSchedule
import Mathlib.Data.Nat.Init

/-! The scaling of the account fee is undone by the maintenance exactly if no bit of the fee was shifted out. -/

namespace Khc.Fees.AccountFee

open Lib Chain

variable {P : ChainParameters} {f : UInt64} {m n p : Nat}

/-- How often the fee is scaled while accounts register. The counter of the accounts has 32 bits. -/
def scalings (p : Nat) : Nat → Nat
  | 0 => 0
  | n + 1 => scalings p n + if (n + 1) % 2 ^ 32 % p = 0 then 1 else 0

theorem scalings_mono (h : m ≤ n) : scalings p m ≤ scalings p n := by
  induction h with
  | refl => exact le_refl _
  | step _ ih => exact ih.trans (Nat.le_add_right _ _)

/-- As long as the counter does not wrap, the fee is scaled at each multiple. -/
theorem scalings_eq (h : n < 2 ^ 32) : scalings p n = n / p := by
  induction n with
  | zero => exact (Nat.zero_div p).symm
  | succ n ih =>
    rw [scalings, ih (by omega), Nat.mod_eq_of_lt h, Nat.succ_div]
    simp only [Nat.dvd_iff_mod_eq_zero]

/-- How much the fee is multiplied by -/
def factor (P : ChainParameters) (n : Nat) : Nat :=
  2 ^ (P.accountFeeScaleBitshifts.toNat * scalings P.accountsPerFeeScale.toNat n)

theorem factor_mono (h : m ≤ n) : factor P m ≤ factor P n :=
  Nat.pow_le_pow_right Nat.two_pos (Nat.mul_le_mul_left _ (scalings_mono h))

/-- No scaling is undefined. -/
def Shiftable (P : ChainParameters) (n : Nat) : Prop :=
  scalings P.accountsPerFeeScale.toNat n = 0 ∨ P.accountFeeScaleBitshifts.toNat < 64

instance : Decidable (Shiftable P n) := inferInstanceAs (Decidable (_ ∨ _))

theorem toNat_mod_eq_zero_iff {count : UInt32} {per : UInt16} :
    count % per.toUInt32 = 0 ↔ count.toNat % per.toNat = 0 := by
  rw [← UInt32.toNat_inj, UInt32.toNat_mod, UInt16.toNat_toUInt32]
  rfl

theorem ofNat_shiftLeft {x k : Nat} (hk : k < 64) : UInt64.ofNat x <<< UInt64.ofNat k = UInt64.ofNat (x * 2 ^ k) := by
  rw [← UInt64.toNat_inj, UInt64.toNat_shiftLeft, UInt64.toNat_ofNat', UInt64.toNat_ofNat', UInt64.toNat_ofNat',
    Nat.mod_eq_of_lt (hk.trans (by decide)), Nat.mod_eq_of_lt hk, Nat.shiftLeft_eq, Nat.mod_mul_mod]

theorem ofNat_shiftRight {x k : Nat} (hk : k < 64) :
    UInt64.ofNat x >>> UInt64.ofNat k = UInt64.ofNat (x % 2 ^ 64 / 2 ^ k) := by
  have hlt : x % 2 ^ 64 / 2 ^ k < 2 ^ 64 := (Nat.div_le_self _ _).trans_lt (Nat.mod_lt _ (by decide))
  rw [← UInt64.toNat_inj, UInt64.toNat_shiftRight, UInt64.toNat_ofNat', UInt64.toNat_ofNat', UInt64.toNat_ofNat',
    Nat.mod_eq_of_lt (hk.trans (by decide)), Nat.mod_eq_of_lt hk, Nat.shiftRight_eq_div_pow, Nat.mod_eq_of_lt hlt]

/-- One more account -/
theorem registerAccount_eq (hper : P.accountsPerFeeScale ≠ 0) (x n : Nat) :
    registerAccount P ⟨UInt64.ofNat x, UInt32.ofNat n⟩ =
      if (n + 1) % 2 ^ 32 % P.accountsPerFeeScale.toNat = 0 then
        if P.accountFeeScaleBitshifts.toNat < 64 then
          .ok ⟨UInt64.ofNat (x * 2 ^ P.accountFeeScaleBitshifts.toNat), UInt32.ofNat (n + 1)⟩
        else .error .undefinedBehavior
      else .ok ⟨UInt64.ofNat x, UInt32.ofNat (n + 1)⟩ := by
  have hcount : UInt32.ofNat n + 1 = UInt32.ofNat (n + 1) := (UInt32.ofNat_add n 1).symm
  have hmod : UInt32.ofNat (n + 1) % P.accountsPerFeeScale.toUInt32 = 0 ↔
      (n + 1) % 2 ^ 32 % P.accountsPerFeeScale.toNat = 0 := by
    rw [toNat_mod_eq_zero_iff, UInt32.toNat_ofNat']
  unfold registerAccount shiftLeft
  dsimp only
  rw [hcount, if_neg hper]
  by_cases hscale : (n + 1) % 2 ^ 32 % P.accountsPerFeeScale.toNat = 0
  · rw [if_pos (hmod.mpr hscale), if_pos hscale]
    by_cases hbits : P.accountFeeScaleBitshifts.toNat < 64
    · rw [if_pos hbits, if_pos hbits, ofNat_shiftLeft hbits]
      rfl
    · rw [if_neg hbits, if_neg hbits]
      rfl
  · rw [if_neg fun h => hscale (hmod.mp h), if_neg hscale]
    rfl

/-- What the registrations of an interval make of the fee -/
theorem registerAccounts_eq (hper : P.accountsPerFeeScale ≠ 0) (n : Nat) :
    registerAccounts P ⟨f, 0⟩ n =
      if Shiftable P n then .ok ⟨UInt64.ofNat (f.toNat * factor P n), UInt32.ofNat n⟩ else .error .undefinedBehavior := by
  induction n with
  | zero =>
    have hone : factor P 0 = 1 := by simp [factor, scalings]
    rw [if_pos (.inl rfl), hone, Nat.mul_one, UInt64.ofNat_toNat]
    rfl
  | succ n ih =>
    rw [registerAccounts, ih]
    by_cases hn : Shiftable P n
    · rw [if_pos hn, ok_bind, registerAccount_eq hper]
      by_cases hscale : (n + 1) % 2 ^ 32 % P.accountsPerFeeScale.toNat = 0
      · have hstep : scalings P.accountsPerFeeScale.toNat (n + 1) = scalings P.accountsPerFeeScale.toNat n + 1 := by
          rw [scalings, if_pos hscale]
        have hfactor : factor P (n + 1) = factor P n * 2 ^ P.accountFeeScaleBitshifts.toNat := by
          rw [factor, hstep, Nat.mul_succ, Nat.pow_add]
          rfl
        rw [if_pos hscale]
        by_cases hbits : P.accountFeeScaleBitshifts.toNat < 64
        · rw [if_pos hbits, if_pos (.inr hbits), hfactor, Nat.mul_assoc]
        · have hnot : ¬ Shiftable P (n + 1) := by
            rintro (hzero | hlt)
            · rw [hstep] at hzero
              cases hzero
            · exact hbits hlt
          rw [if_neg hbits, if_neg hnot]
      · have hstep : scalings P.accountsPerFeeScale.toNat (n + 1) = scalings P.accountsPerFeeScale.toNat n := by
          rw [scalings, if_neg hscale, Nat.add_zero]
        have hfactor : factor P (n + 1) = factor P n := by rw [factor, factor, hstep]
        have hn' : Shiftable P (n + 1) := by
          unfold Shiftable
          rwa [hstep]
        rw [if_neg hscale, if_pos hn', hfactor]
    · have hn' : ¬ Shiftable P (n + 1) := by
        rintro (hzero | hlt)
        · have hle := scalings_mono (p := P.accountsPerFeeScale.toNat) (Nat.le_succ n)
          exact hn (.inl (Nat.le_zero.mp (hzero ▸ hle)))
        · exact hn (.inr hlt)
      rw [if_neg hn, if_neg hn']
      rfl

/-- By how many bits the maintenance shifts the fee back. The product has 32 bits. -/
def bitsBack (P : ChainParameters) (n : Nat) : Nat :=
  P.accountFeeScaleBitshifts.toNat * (n % 2 ^ 32 / P.accountsPerFeeScale.toNat) % 2 ^ 32

/-- What the maintenance leaves of the fee -/
theorem removeScaling_eq (hper : P.accountsPerFeeScale ≠ 0) (x n : Nat) :
    removeScaling P ⟨UInt64.ofNat x, UInt32.ofNat n⟩ =
      if bitsBack P n < 64 then .ok ⟨UInt64.ofNat (x % 2 ^ 64 / 2 ^ bitsBack P n), 0⟩ else .error .undefinedBehavior := by
  have hbits : (P.accountFeeScaleBitshifts.toUInt32 * (UInt32.ofNat n / P.accountsPerFeeScale.toUInt32)).toNat =
      bitsBack P n := by
    rw [UInt32.toNat_mul, UInt32.toNat_div, UInt32.toNat_ofNat', UInt8.toNat_toUInt32, UInt16.toNat_toUInt32]
    rfl
  unfold removeScaling shiftRight
  rw [if_neg hper]
  dsimp only
  rw [hbits]
  by_cases hlt : bitsBack P n < 64
  · rw [if_pos hlt, if_pos hlt, ofNat_shiftRight hlt]
    rfl
  · rw [if_neg hlt, if_neg hlt]
    rfl

/-! ### When the fee is restored -/

/-- Each shift is defined, and no bit of the fee is shifted out. -/
structure Restorable (P : ChainParameters) (f : UInt64) (n : Nat) : Prop where
  per : P.accountsPerFeeScale ≠ 0
  forth : Shiftable P n
  back : bitsBack P n < 64
  fits : f.toNat * factor P n < 2 ^ 64

/-- The fee after the maintenance is what it was before the interval. -/
def Restored (P : ChainParameters) (f : UInt64) (n : Nat) : Prop :=
  ∃ s, (registerAccounts P ⟨f, 0⟩ n >>= removeScaling P) = .ok s ∧ s.basicFee = f

/-- The fee never gets lower while the accounts register. -/
def Grows (P : ChainParameters) (f : UInt64) (n : Nat) : Prop :=
  ∀ m < n, ∀ s s', registerAccounts P ⟨f, 0⟩ m = .ok s → registerAccounts P ⟨f, 0⟩ (m + 1) = .ok s' →
    s.basicFee ≤ s'.basicFee

/-- The counter wraps only after more scalings than a fee has bits. -/
theorem lt_of_scalings_lt {per : UInt16} (hper : per ≠ 0) (h : scalings per.toNat n < 64) : n < 2 ^ 32 := by
  by_contra hle
  have hmono := scalings_mono (p := per.toNat) (show 2 ^ 32 - 1 ≤ n by omega)
  rw [scalings_eq (by decide)] at hmono
  have hlt := per.toNat_lt
  have hpos : 0 < per.toNat := Nat.pos_of_ne_zero fun hzero => hper (UInt16.toNat_inj.mp hzero)
  have hdiv : (2 ^ 32 - 1) / 65536 ≤ (2 ^ 32 - 1) / per.toNat := Nat.div_le_div_left hlt.le hpos
  omega

/-- As many bits are shifted back as forth, unless the fee has been shifted by all of its bits. -/
theorem bitsBack_eq (hper : P.accountsPerFeeScale ≠ 0)
    (h : P.accountFeeScaleBitshifts.toNat * scalings P.accountsPerFeeScale.toNat n < 64) :
    bitsBack P n = P.accountFeeScaleBitshifts.toNat * scalings P.accountsPerFeeScale.toNat n := by
  by_cases hzero : P.accountFeeScaleBitshifts.toNat = 0
  · rw [bitsBack, hzero, Nat.zero_mul, Nat.zero_mul, Nat.zero_mod]
  · have hlt : scalings P.accountsPerFeeScale.toNat n < 64 :=
      (Nat.le_mul_of_pos_left _ (Nat.pos_of_ne_zero hzero)).trans_lt h
    have hn := lt_of_scalings_lt hper hlt
    rw [bitsBack, Nat.mod_eq_of_lt hn, ← scalings_eq hn, Nat.mod_eq_of_lt (h.trans (by decide))]

/-- The top bits of a number are lost in a shift. -/
theorem shift_back_iff {x k : Nat} (hk : k < 64) :
    x * 2 ^ k % 2 ^ 64 / 2 ^ k = x ↔ x * 2 ^ k < 2 ^ 64 := by
  have hpow : 2 ^ (64 - k) * 2 ^ k = 2 ^ 64 := by rw [← Nat.pow_add, Nat.sub_add_cancel hk.le]
  rw [← hpow, Nat.mul_mod_mul_right, Nat.mul_div_cancel _ (Nat.two_pow_pos k), Nat.mul_lt_mul_right (Nat.two_pow_pos k)]
  constructor
  · intro h
    rw [← h]
    exact Nat.mod_lt _ (Nat.two_pow_pos _)
  · exact Nat.mod_eq_of_lt

/-- The same for the shifts of an interval, which are by more bits than a fee has if it is scaled too often -/
theorem factor_back_iff (hper : P.accountsPerFeeScale ≠ 0) :
    f.toNat * factor P n % 2 ^ 64 / 2 ^ bitsBack P n = f.toNat ↔ f.toNat * factor P n < 2 ^ 64 := by
  by_cases hbits : P.accountFeeScaleBitshifts.toNat * scalings P.accountsPerFeeScale.toNat n < 64
  · rw [bitsBack_eq hper hbits]
    exact shift_back_iff hbits
  · have hdvd : 2 ^ 64 ∣ f.toNat * factor P n := (Nat.pow_dvd_pow 2 (Nat.le_of_not_lt hbits)).mul_left _
    rw [Nat.mod_eq_zero_of_dvd hdvd, Nat.zero_div]
    constructor
    · intro hzero
      rw [← hzero, Nat.zero_mul]
      decide
    · intro hlt
      have hprod := Nat.eq_zero_of_dvd_of_lt hdvd hlt
      exact ((Nat.mul_eq_zero.mp hprod).resolve_right (Nat.two_pow_pos _).ne').symm

theorem restored_iff : Restored P f n ↔ Restorable P f n := by
  by_cases hper : P.accountsPerFeeScale = 0
  · constructor
    · rintro ⟨s, hs, -⟩
      obtain ⟨t, -, ht⟩ := bind_eq_ok.mp hs
      unfold removeScaling at ht
      rw [if_pos hper] at ht
      cases ht
    · intro h
      exact absurd hper h.per
  · have hvalue : UInt64.ofNat (f.toNat * factor P n % 2 ^ 64 / 2 ^ bitsBack P n) = f ↔
        f.toNat * factor P n < 2 ^ 64 := by
      have hlt : f.toNat * factor P n % 2 ^ 64 / 2 ^ bitsBack P n < 2 ^ 64 :=
        (Nat.div_le_self _ _).trans_lt (Nat.mod_lt _ (by decide))
      rw [← factor_back_iff hper, ← UInt64.toNat_inj, UInt64.toNat_ofNat', Nat.mod_eq_of_lt hlt]
    unfold Restored
    rw [registerAccounts_eq hper]
    constructor
    · rintro ⟨s, hs, hf⟩
      by_cases hforth : Shiftable P n
      · rw [if_pos hforth, ok_bind, removeScaling_eq hper] at hs
        by_cases hback : bitsBack P n < 64
        · rw [if_pos hback] at hs
          obtain rfl := Except.ok.inj hs
          exact ⟨hper, hforth, hback, hvalue.mp hf⟩
        · rw [if_neg hback] at hs
          cases hs
      · rw [if_neg hforth] at hs
        cases hs
    · intro h
      refine ⟨⟨UInt64.ofNat (f.toNat * factor P n % 2 ^ 64 / 2 ^ bitsBack P n), 0⟩, ?_, hvalue.mpr h.fits⟩
      rw [if_pos h.forth, ok_bind, removeScaling_eq hper, if_pos h.back]

theorem Restorable.grows (h : Restorable P f n) : Grows P f n := by
  intro m hm s s' hs hs'
  have hle := factor_mono (P := P) (Nat.le_succ m)
  have hfits : ∀ k ≤ n, f.toNat * factor P k < 2 ^ 64 := fun k hk =>
    (Nat.mul_le_mul_left _ (factor_mono hk)).trans_lt h.fits
  rw [registerAccounts_eq h.per] at hs hs'
  split at hs
  · split at hs'
    · obtain rfl := Except.ok.inj hs
      obtain rfl := Except.ok.inj hs'
      rw [UInt64.le_iff_toNat_le, UInt64.toNat_ofNat', UInt64.toNat_ofNat', Nat.mod_eq_of_lt (hfits m hm.le),
        Nat.mod_eq_of_lt (hfits (m + 1) hm)]
      exact Nat.mul_le_mul_left _ hle
    · cases hs'
  · cases hs

/-- For all parameters that are accepted: the fee never gets lower in an interval and is restored after it exactly if each
    shift is defined and no bit of the fee is shifted out. -/
theorem restored_grows_iff (_ : P.Valid) (f : UInt64) (n : Nat) :
    Restored P f n ∧ Grows P f n ↔ Restorable P f n := by
  constructor
  · rintro ⟨h, -⟩
    exact restored_iff.mp h
  · intro h
    exact ⟨restored_iff.mpr h, h.grows⟩

/-- With the defaults, a fee of 500000 is scaled twice by 2500 accounts. -/
theorem restored_grows_iff_default : Restored {} 500000 2500 ∧ Grows {} 500000 2500 := by
  have hscalings : scalings 1000 2500 = 2 := scalings_eq (by decide)
  have hfactor : factor {} 2500 = 256 := by
    have hper : ({} : ChainParameters).accountsPerFeeScale.toNat = 1000 := rfl
    rw [factor, hper, hscalings]
    rfl
  have hvalid : ChainParameters.Valid {} := by decide
  refine (restored_grows_iff hvalid 500000 2500).mpr ⟨by decide, .inr (by decide), by decide +kernel, ?_⟩
  rw [hfactor]
  show 500000 * 256 < 2 ^ 64
  norm_num

/-- Each account shifts the fee by 60 bits: that of 500000 is gone with the first one. -/
theorem scaling_lost : ¬ ∀ (P : ChainParameters), P.Valid → ∀ f n, Restored P f n ∧ Grows P f n := by
  intro h
  obtain ⟨⟨s, hs, hf⟩, -⟩ := h { accountsPerFeeScale := 1, accountFeeScaleBitshifts := 60 } (by decide) 500000 1
  have hzero : (registerAccounts { accountsPerFeeScale := 1, accountFeeScaleBitshifts := 60 } ⟨500000, 0⟩ 1 >>=
      removeScaling { accountsPerFeeScale := 1, accountFeeScaleBitshifts := 60 }) = .ok ⟨0, 0⟩ := by decide +kernel
  rw [hzero] at hs
  obtain rfl := Except.ok.inj hs
  exact absurd hf (by decide)

end Khc.Fees.AccountFee
