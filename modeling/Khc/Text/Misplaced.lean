import Khc.Text.Shapes

/-! Texts with a sign behind other characters. What is skipped for the sign is the first character, so that the sign ends the digits before
    it, or makes the digits behind it negative. -/

namespace Khc.Text

open Lib
open Chain (InInt64 maxShareSupply maxInt64)

/-- The satoshis of the digits behind a point -/
def fraction (r : List Char) (p : Nat) : Nat := decimal r * 10 ^ (p - r.length)

/-- A text that is read although its sign is not its first character: the digits that are left of it once the first character is dropped fit
    in an amount. -/
inductive Misread (p : Nat) : List Char → Prop
  /-- As in 12-7, read as 2 -/
  | whole {c : Char} {l r : List Char} (hl : Digits (c :: l)) (hr : Digits r) (hne : l ≠ [])
      (hle : ((decimal l * 10 ^ p : Nat) : Int) ≤ maxShareSupply) : Misread p (c :: l ++ '-' :: r)
  /-- As in 1-7, read as -7 -/
  | wholeNegative {c : Char} {r : List Char} (hc : c.isDigit) (hr : Digits r) (hne : r ≠ [])
      (hle : ((decimal r * 10 ^ p : Nat) : Int) ≤ maxInt64) : Misread p (c :: '-' :: r)
  /-- As in 12-7.5, read as 2 and 5 -/
  | point {c : Char} {l m r : List Char} (hl : Digits (c :: l)) (hm : Digits m) (hr : Digits r) (hne : l ≠ []) (hlen : r.length ≤ p)
      (hle : (satoshis l r p : Int) ≤ maxShareSupply) : Misread p (c :: l ++ '-' :: (m ++ '.' :: r))
  /-- As in 1-7.5, read as -7 and 5 -/
  | pointNegative {c : Char} {m r : List Char} (hc : c.isDigit) (hm : Digits m) (hr : Digits r) (hne : m ≠ []) (hlen : r.length ≤ p)
      (hfit : ((decimal m * 10 ^ p : Nat) : Int) ≤ maxInt64 + 1) (hle : ((decimal m * 10 ^ p : Nat) : Int) - fraction r p ≤ maxInt64) :
      Misread p (c :: '-' :: (m ++ '.' :: r))
  /-- As in 12.5-, read as 2 and 5 -/
  | fraction {l m r : List Char} (hl : Digits l) (hm : Digits m) (hr : Digits r) (hone : l.length ≠ 1) (hne : m ≠ [])
      (hlen : m.length + (r.length + 1) ≤ p) (hle : ((decimal (l.drop 1) * 10 ^ p + decimal m : Nat) : Int) ≤ maxShareSupply) :
      Misread p (l ++ '.' :: (m ++ '-' :: r))
  /-- As in 12.-5, read as 2 and -5 -/
  | fractionNegative {l r : List Char} (hl : Digits l) (hr : Digits r) (hone : l.length ≠ 1) (hlen : r.length + 1 ≤ p)
      (hsome : r ≠ [] ∨ 2 ≤ p) (hfit : ((decimal (l.drop 1) * 10 ^ p : Nat) : Int) ≤ maxInt64)
      (hle : ((decimal (l.drop 1) * 10 ^ p : Nat) : Int) - fraction r (p - 1) ≤ maxShareSupply) : Misread p (l ++ '.' :: '-' :: r)

section
variable {s l m r : List Char} {c : Char} {v i f : Int} {p : Nat}

theorem sign_of_misread (h : Misread p s) : '-' ∈ s ∧ s.head? ≠ some '-' := by
  have hdigit : ∀ {c : Char}, c.isDigit → some c ≠ some '-' := by
    rintro c hc heq
    rw [Option.some.inj heq] at hc
    exact Bool.noConfusion hc
  have hhead : ∀ {l z : List Char}, Digits l → (l ++ '.' :: z).head? ≠ some '-' := by
    intro l z hl
    cases l with
    | nil => exact fun heq => absurd (Option.some.inj heq) (by decide)
    | cons c l => exact hdigit (digits_cons.mp hl).1
  cases h with
  | whole hl _ _ _ => exact ⟨by simp, hdigit (digits_cons.mp hl).1⟩
  | wholeNegative hc _ _ _ => exact ⟨by simp, hdigit hc⟩
  | point hl _ _ _ _ _ => exact ⟨by simp, hdigit (digits_cons.mp hl).1⟩
  | pointNegative hc _ _ _ _ _ _ => exact ⟨by simp, hdigit hc⟩
  | fraction hl _ _ _ _ _ _ => exact ⟨by simp, hhead hl⟩
  | fractionNegative hl _ _ _ _ _ _ => exact ⟨by simp, hhead hl⟩

/-! ### The parts -/

theorem exists_signed : (∃ v, Signed true i v) ↔ i ≤ maxShareSupply ∧ -maxInt64 ≤ i := by
  simp only [Signed, if_true]
  unfold InInt64 maxShareSupply maxInt64
  constructor
  · rintro ⟨-, hle, hfit, -⟩
    exact ⟨hle, by omega⟩
  · rintro ⟨hle, hge⟩
    exact ⟨-i, hle, ⟨by omega, by omega⟩, rfl⟩

theorem lhs_sign (hl : Digits (c :: l)) (hr : Digits r) :
    substr (c :: l ++ '-' :: r) 1 (find (c :: l ++ '-' :: r) '.') = l ++ '-' :: r := by
  have hnone : '.' ∉ c :: l ++ '-' :: r := by
    rw [List.mem_append]
    exact fun h => h.elim (noPoint hl) (noPoint_sign hr)
  rw [find_none hnone, substr, List.cons_append, List.drop_one, List.tail_cons, List.length_cons]
  exact List.take_of_length_le (Nat.le_succ _)

/-- In front of the point, without the first character and with the point -/
theorem lhs_point (h : '.' ∉ c :: l) : substr (c :: l ++ '.' :: r) 1 (find (c :: l ++ '.' :: r) '.') = l ++ ['.'] := by
  rw [find_point h, substr, List.cons_append, List.drop_one, List.tail_cons, List.length_cons, List.take_append,
    List.take_of_length_le (Nat.le_succ _), Nat.add_sub_cancel_left]
  rfl

theorem rhs_point (h : '.' ∉ l) : (l ++ '.' :: r).drop (find (l ++ '.' :: r) '.' + 1) = r := by
  rw [find_point h, drop_point]

theorem sign_append : c :: l ++ '-' :: (m ++ '.' :: r) = (c :: (l ++ '-' :: m)) ++ '.' :: r := by simp

theorem noPoint_between (hl : Digits (c :: l)) (hm : Digits m) : '.' ∉ c :: (l ++ '-' :: m) := by
  rw [← List.cons_append, List.mem_append]
  exact fun h => h.elim (noPoint hl) (noPoint_sign hm)

/-! ### What is read -/

theorem readAmount_sign (hl : Digits (c :: l)) (hr : Digits r) (hp : p < 19) :
    readAmount (c :: l ++ '-' :: r) p = .ok v ↔ ∃ i, readLhs (l ++ '-' :: r) (10 ^ p) = .ok i ∧ Signed true i v := by
  rw [readAmount_eq_ok (Shape.sign hl hr) hp, Bool.toNat_true, lhs_sign hl hr]

theorem readAmount_sign_point (hl : Digits (c :: l)) (hm : Digits m) (hr : Digits r) (hp : p < 19) :
    readAmount (c :: l ++ '-' :: (m ++ '.' :: r)) p = .ok v ↔ ∃ i f : Int, readLhs (l ++ '-' :: (m ++ ['.'])) (10 ^ p) = .ok i ∧
      (r.length ≤ p ∧ f = (fraction r p : Nat)) ∧ InInt64 (i + f) ∧ Signed true (i + f) v := by
  have hnone := noPoint_between hl hm
  rw [readAmount_point_eq_ok (Shape.signPoint hl hm hr) hp, Bool.toNat_true, sign_append, lhs_point hnone, rhs_point hnone]
  simp only [readRhs_eq_ok hr hp, List.append_assoc, List.cons_append]
  rfl

/-- The integer part of a text that starts with its point is empty, and that of one with one character before the point is none. -/
theorem readLhs_dropped (hl : Digits l) : readLhs (substr (l ++ '.' :: s) 1 (find (l ++ '.' :: s) '.')) (10 ^ p) = .ok i ↔
    l.length ≠ 1 ∧ i = (decimal (l.drop 1) * 10 ^ p : Nat) ∧ i ≤ maxInt64 := by
  cases l with
  | nil =>
    have hnil : substr ([] ++ '.' :: s) 1 (find ([] ++ '.' :: s) '.') = [] := by
      rw [find_point List.not_mem_nil]
      rfl
    have hzero : decimal (([] : List Char).drop 1) = 0 := rfl
    rw [hnil, readLhs_nil, hzero, zero_mul]
    exact ⟨fun h => ⟨by decide, h, h ▸ by decide⟩, fun h => h.2.1⟩
  | cons c l =>
    rw [lhs_point (noPoint hl), List.length_cons, List.drop_one, List.tail_cons]
    by_cases hne : l = []
    · subst hne
      exact ⟨fun h => absurd h readLhs_point, fun h => absurd rfl h.1⟩
    · rw [readLhs_digits (digits_cons.mp hl).2 hne point_ends]
      have hlength : l.length + 1 ≠ 1 := fun h => hne (List.length_eq_zero_iff.mp (Nat.succ.inj h))
      exact ⟨fun h => ⟨hlength, h⟩, fun h => h.2⟩

theorem readAmount_point_sign (hl : Digits l) (hm : Digits m) (hr : Digits r) (hp : p < 19) :
    readAmount (l ++ '.' :: (m ++ '-' :: r)) p = .ok v ↔ l.length ≠ 1 ∧ ∃ i f : Int, (i = (decimal (l.drop 1) * 10 ^ p : Nat) ∧ i ≤ maxInt64) ∧
      readRhs (m ++ '-' :: r) (10 ^ p) = .ok f ∧ InInt64 (i + f) ∧ Signed true (i + f) v := by
  rw [readAmount_point_eq_ok (Shape.pointSign hl hm hr) hp, Bool.toNat_true, rhs_point (noPoint hl)]
  simp only [readLhs_dropped hl]
  constructor
  · rintro ⟨i, f, ⟨hone, hi⟩, h⟩
    exact ⟨hone, i, f, hi, h⟩
  · rintro ⟨hone, i, f, hi, h⟩
    exact ⟨i, f, ⟨hone, hi⟩, h⟩

/-! ### What is misread -/

theorem inInt64_of_le (h : i ≤ maxShareSupply) (h' : -maxInt64 ≤ i) : InInt64 i := by
  unfold maxShareSupply at h
  unfold maxInt64 at h'
  exact ⟨by omega, by omega⟩

theorem fraction_lt (hr : Digits r) (hlen : r.length ≤ p) (hp : p < 19) : (fraction r p : Int) < maxShareSupply := by
  have hlt := decimal_padded_lt hr hlen
  have hpow := pow_le_maxShareSupply hp
  unfold fraction maxShareSupply
  omega

theorem reads_whole (hl : Digits (c :: l)) (hr : Digits r) (hne : l ≠ []) (hp : p < 19) :
    (∃ v, readAmount (c :: l ++ '-' :: r) p = .ok v) ↔ ((decimal l * 10 ^ p : Nat) : Int) ≤ maxShareSupply := by
  simp only [readAmount_sign hl hr hp, readLhs_digits (digits_cons.mp hl).2 hne sign_ends]
  constructor
  · rintro ⟨v, _, ⟨rfl, -⟩, hle, -⟩
    exact hle
  · intro hle
    exact ⟨_, _, ⟨rfl, natCast_le_maxInt64 hle⟩, signed_natCast.mpr ⟨hle, rfl⟩⟩

theorem reads_wholeNegative (hc : c.isDigit) (hr : Digits r) (hp : p < 19) :
    (∃ v, readAmount (c :: '-' :: r) p = .ok v) ↔ r ≠ [] ∧ ((decimal r * 10 ^ p : Nat) : Int) ≤ maxInt64 := by
  have hread : ∀ v, readAmount (c :: '-' :: r) p = .ok v ↔ ∃ i, readLhs ('-' :: (r ++ [])) (10 ^ p) = .ok i ∧ Signed true i v := by
    intro v
    rw [List.append_nil]
    exact readAmount_sign (l := []) (digits_cons.mpr ⟨hc, Digits.nil⟩) hr hp
  simp only [hread, readLhs_sign hr nothing_behind]
  constructor
  · rintro ⟨v, _, ⟨hne, rfl, -⟩, hv⟩
    exact ⟨hne, neg_le_neg_iff.mp (exists_signed.mp ⟨v, hv⟩).2⟩
  · rintro ⟨hne, hle⟩
    obtain ⟨v, hv⟩ := (exists_signed (i := -((decimal r * 10 ^ p : Nat) : Int))).mpr ⟨by unfold maxShareSupply; omega, neg_le_neg hle⟩
    exact ⟨v, _, ⟨hne, rfl, by omega⟩, hv⟩

theorem reads_point (hl : Digits (c :: l)) (hm : Digits m) (hr : Digits r) (hne : l ≠ []) (hp : p < 19) :
    (∃ v, readAmount (c :: l ++ '-' :: (m ++ '.' :: r)) p = .ok v) ↔ r.length ≤ p ∧ (satoshis l r p : Int) ≤ maxShareSupply := by
  have hcast : ((decimal l * 10 ^ p : Nat) : Int) + (fraction r p : Nat) = (satoshis l r p : Nat) := (Nat.cast_add _ _).symm
  simp only [readAmount_sign_point hl hm hr hp, readLhs_digits (digits_cons.mp hl).2 hne sign_ends]
  constructor
  · rintro ⟨v, _, _, ⟨rfl, -⟩, ⟨hlen, rfl⟩, -, hle, -⟩
    rw [hcast] at hle
    exact ⟨hlen, hle⟩
  · rintro ⟨hlen, hle⟩
    have hwhole : ((decimal l * 10 ^ p : Nat) : Int) ≤ maxShareSupply := by omega
    have hge : -maxInt64 ≤ (satoshis l r p : Int) := le_trans (by decide) (Int.natCast_nonneg _)
    obtain ⟨v, hv⟩ := exists_signed.mpr ⟨hle, hge⟩
    refine ⟨v, _, _, ⟨rfl, natCast_le_maxInt64 hwhole⟩, ⟨hlen, rfl⟩, ?_⟩
    rw [hcast]
    exact ⟨inInt64_of_le hle hge, hv⟩

theorem reads_pointNegative (hc : c.isDigit) (hm : Digits m) (hr : Digits r) (hp : p < 19) :
    (∃ v, readAmount (c :: '-' :: (m ++ '.' :: r)) p = .ok v) ↔ m ≠ [] ∧ r.length ≤ p ∧
      ((decimal m * 10 ^ p : Nat) : Int) ≤ maxInt64 + 1 ∧ ((decimal m * 10 ^ p : Nat) : Int) - fraction r p ≤ maxInt64 := by
  have hread : ∀ v, readAmount (c :: '-' :: (m ++ '.' :: r)) p = .ok v ↔ ∃ i f : Int, readLhs ('-' :: (m ++ ['.'])) (10 ^ p) = .ok i ∧
      (r.length ≤ p ∧ f = (fraction r p : Nat)) ∧ InInt64 (i + f) ∧ Signed true (i + f) v := fun v =>
    readAmount_sign_point (l := []) (digits_cons.mpr ⟨hc, Digits.nil⟩) hm hr hp
  simp only [hread, readLhs_sign hm point_ends]
  constructor
  · rintro ⟨v, _, _, ⟨hne, rfl, hfit⟩, ⟨hlen, rfl⟩, -, hv⟩
    have hge := (exists_signed.mp ⟨v, hv⟩).2
    exact ⟨hne, hlen, by omega, by omega⟩
  · rintro ⟨hne, hlen, hfit, hle⟩
    have hsmall := fraction_lt hr hlen hp
    have hge : -maxInt64 ≤ -((decimal m * 10 ^ p : Nat) : Int) + (fraction r p : Nat) := by omega
    have hmax : -((decimal m * 10 ^ p : Nat) : Int) + (fraction r p : Nat) ≤ maxShareSupply := by omega
    obtain ⟨v, hv⟩ := exists_signed.mpr ⟨hmax, hge⟩
    exact ⟨v, _, _, ⟨hne, rfl, by omega⟩, ⟨hlen, rfl⟩, inInt64_of_le hmax hge, hv⟩

theorem reads_fraction (hl : Digits l) (hm : Digits m) (hr : Digits r) (hne : m ≠ []) (hp : p < 19) :
    (∃ v, readAmount (l ++ '.' :: (m ++ '-' :: r)) p = .ok v) ↔ l.length ≠ 1 ∧ m.length + (r.length + 1) ≤ p ∧
      ((decimal (l.drop 1) * 10 ^ p + decimal m : Nat) : Int) ≤ maxShareSupply := by
  simp only [readAmount_point_sign hl hm hr hp, readRhs_sign_eq_ok hm hr hp]
  constructor
  · rintro ⟨v, hone, _, _, ⟨rfl, -⟩, ⟨hlen, ⟨-, rfl⟩ | ⟨hnil, -⟩⟩, -, hle, -⟩
    · rw [← Nat.cast_add] at hle
      exact ⟨hone, hlen, hle⟩
    · exact absurd hnil hne
  · rintro ⟨hone, hlen, hle⟩
    have hge : -maxInt64 ≤ ((decimal (l.drop 1) * 10 ^ p + decimal m : Nat) : Int) := le_trans (by decide) (Int.natCast_nonneg _)
    obtain ⟨v, hv⟩ := exists_signed.mpr ⟨hle, hge⟩
    have hwhole : ((decimal (l.drop 1) * 10 ^ p : Nat) : Int) ≤ maxShareSupply := by omega
    refine ⟨v, hone, _, _, ⟨rfl, natCast_le_maxInt64 hwhole⟩, ⟨hlen, .inl ⟨hne, rfl⟩⟩, ?_⟩
    rw [← Nat.cast_add]
    exact ⟨inInt64_of_le hle hge, hv⟩

theorem reads_fractionNegative (hl : Digits l) (hr : Digits r) (hp : p < 19) :
    (∃ v, readAmount (l ++ '.' :: '-' :: r) p = .ok v) ↔ l.length ≠ 1 ∧ r.length + 1 ≤ p ∧ (r ≠ [] ∨ 2 ≤ p) ∧
      ((decimal (l.drop 1) * 10 ^ p : Nat) : Int) ≤ maxInt64 ∧
      ((decimal (l.drop 1) * 10 ^ p : Nat) : Int) - fraction r (p - 1) ≤ maxShareSupply := by
  have hfrac : decimal r * 10 ^ (p - (r.length + 1)) = fraction r (p - 1) := by
    rw [fraction, Nat.sub_sub, Nat.add_comm 1]
  have hrhs : ∀ f, readRhs ('-' :: r) (10 ^ p) = .ok f ↔ r.length + 1 ≤ p ∧ (r ≠ [] ∨ 2 ≤ p) ∧ f = -((fraction r (p - 1) : Nat) : Int) := by
    intro f
    have hboth := readRhs_sign_eq_ok (f := f) Digits.nil hr hp
    rw [List.length_nil, Nat.zero_add, hfrac] at hboth
    simp only [ne_eq, not_true_eq_false, false_and, true_and, false_or] at hboth
    exact hboth
  have hread : ∀ v, readAmount (l ++ '.' :: '-' :: r) p = .ok v ↔ l.length ≠ 1 ∧ ∃ i f : Int,
      (i = (decimal (l.drop 1) * 10 ^ p : Nat) ∧ i ≤ maxInt64) ∧ readRhs ('-' :: r) (10 ^ p) = .ok f ∧ InInt64 (i + f) ∧ Signed true (i + f) v :=
    fun v => readAmount_point_sign hl Digits.nil hr hp
  simp only [hread, hrhs]
  constructor
  · rintro ⟨v, hone, _, _, ⟨rfl, hfit⟩, ⟨hlen, hsome, rfl⟩, -, hle, -⟩
    exact ⟨hone, hlen, hsome, hfit, by omega⟩
  · rintro ⟨hone, hlen, hsome, hfit, hle⟩
    have hsmall := fraction_lt hr (Nat.le_sub_one_of_lt hlen) (by omega : p - 1 < 19)
    have hmax : ((decimal (l.drop 1) * 10 ^ p : Nat) : Int) + -(fraction r (p - 1) : Nat) ≤ maxShareSupply := by omega
    have hge : -maxInt64 ≤ ((decimal (l.drop 1) * 10 ^ p : Nat) : Int) + -(fraction r (p - 1) : Nat) := by
      have hconst : maxShareSupply ≤ maxInt64 := by decide
      omega
    obtain ⟨v, hv⟩ := exists_signed.mpr ⟨hmax, hge⟩
    exact ⟨v, hone, _, _, ⟨rfl, hfit⟩, ⟨hlen, hsome, rfl⟩, inInt64_of_le hmax hge, hv⟩

/-- Each of these texts is read. -/
theorem Misread.read (h : Misread p s) (hp : p < 19) : ∃ v, readAmount s p = .ok v := by
  cases h with
  | whole hl hr hne hle => exact (reads_whole hl hr hne hp).mpr hle
  | wholeNegative hc hr hne hle => exact (reads_wholeNegative hc hr hp).mpr ⟨hne, hle⟩
  | point hl hm hr hne hlen hle => exact (reads_point hl hm hr hne hp).mpr ⟨hlen, hle⟩
  | pointNegative hc hm hr hne hlen hfit hle => exact (reads_pointNegative hc hm hr hp).mpr ⟨hne, hlen, hfit, hle⟩
  | fraction hl hm hr hone hne hlen hle => exact (reads_fraction hl hm hr hne hp).mpr ⟨hone, hlen, hle⟩
  | fractionNegative hl hr hone hlen hsome hfit hle => exact (reads_fractionNegative hl hr hp).mpr ⟨hone, hlen, hsome, hfit, hle⟩

/-- A text that is read has its sign in front, or none, or is one of these. -/
theorem misread_of_sign (hl : Digits (c :: l)) (hr : Digits r) (hp : p < 19) (h : readAmount (c :: l ++ '-' :: r) p = .ok v) :
    Misread p (c :: l ++ '-' :: r) := by
  by_cases hne : l = []
  · subst hne
    obtain ⟨hne, hle⟩ := (reads_wholeNegative (digits_cons.mp hl).1 hr hp).mp ⟨v, h⟩
    exact .wholeNegative (digits_cons.mp hl).1 hr hne hle
  · exact .whole hl hr hne ((reads_whole hl hr hne hp).mp ⟨v, h⟩)

theorem misread_of_sign_point (hl : Digits (c :: l)) (hm : Digits m) (hr : Digits r) (hp : p < 19)
    (h : readAmount (c :: l ++ '-' :: (m ++ '.' :: r)) p = .ok v) : Misread p (c :: l ++ '-' :: (m ++ '.' :: r)) := by
  by_cases hne : l = []
  · subst hne
    obtain ⟨hne, hlen, hfit, hle⟩ := (reads_pointNegative (digits_cons.mp hl).1 hm hr hp).mp ⟨v, h⟩
    exact .pointNegative (digits_cons.mp hl).1 hm hr hne hlen hfit hle
  · obtain ⟨hlen, hle⟩ := (reads_point hl hm hr hne hp).mp ⟨v, h⟩
    exact .point hl hm hr hne hlen hle

theorem misread_of_point_sign (hl : Digits l) (hm : Digits m) (hr : Digits r) (hp : p < 19)
    (h : readAmount (l ++ '.' :: (m ++ '-' :: r)) p = .ok v) : Misread p (l ++ '.' :: (m ++ '-' :: r)) := by
  by_cases hne : m = []
  · subst hne
    obtain ⟨hone, hlen, hsome, hfit, hle⟩ := (reads_fractionNegative hl hr hp).mp ⟨v, h⟩
    exact .fractionNegative hl hr hone hlen hsome hfit hle
  · obtain ⟨hone, hlen, hle⟩ := (reads_fraction hl hm hr hne hp).mp ⟨v, h⟩
    exact .fraction hl hm hr hone hne hlen hle

end

end Khc.Text
