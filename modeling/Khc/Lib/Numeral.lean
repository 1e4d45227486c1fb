import Mathlib.Algebra.Order.Field.Rat
import Mathlib.Data.List.Basic
import Mathlib.Data.List.DropRight
import Mathlib.Data.Nat.Basic
import Mathlib.Tactic.FieldSimp
import Mathlib.Tactic.Linarith
import Mathlib.Tactic.Positivity
import Mathlib.Tactic.Ring

/-! Decimal numerals as lists of characters: what they denote, how they compose, and how a number is written with leading zeros. -/

namespace Khc.Lib

/-- Only the characters from 0 to 9 -/
def Digits (l : List Char) : Prop := ∀ c ∈ l, c.isDigit

/-- What a list of digits denotes -/
def decimal (l : List Char) : Nat := Nat.ofDigitChars 10 l 0

section
variable {l m : List Char} {c : Char} {n p r : Nat}

instance : Decidable (Digits l) := inferInstanceAs (Decidable (∀ c ∈ l, c.isDigit))

theorem Digits.nil : Digits [] := fun _ h => absurd h List.not_mem_nil

theorem digits_cons : Digits (c :: l) ↔ c.isDigit ∧ Digits l := List.forall_mem_cons

theorem digits_append : Digits (l ++ m) ↔ Digits l ∧ Digits m := List.forall_mem_append

theorem Digits.snoc (h : Digits l) (hc : c.isDigit) : Digits (l ++ [c]) := digits_append.mpr ⟨h, digits_cons.mpr ⟨hc, Digits.nil⟩⟩

theorem digits_zeros (n : Nat) : Digits (List.replicate n '0') := by
  intro c hc
  rw [List.eq_of_mem_replicate hc]
  rfl

theorem Digits.ne (h : Digits l) (hc : c.isDigit = false) : c ∉ l := fun hmem => by
  rw [h c hmem] at hc
  exact Bool.noConfusion hc

/-- The digits at the front of a list end where something else begins. -/
theorem takeWhile_digits (h : Digits l) (hm : ∀ c ∈ m.head?, c.isDigit = false) : (l ++ m).takeWhile (·.isDigit) = l := by
  rw [List.takeWhile_append_of_pos h]
  cases m with
  | nil => rw [List.takeWhile_nil, List.append_nil]
  | cons c m =>
    have hc : c.isDigit = false := hm c rfl
    rw [List.takeWhile_cons_of_neg (by rw [hc]; exact Bool.false_ne_true), List.append_nil]

@[simp] theorem decimal_nil : decimal [] = 0 := Nat.ofDigitChars_nil

theorem decimal_append : decimal (l ++ m) = decimal l * 10 ^ m.length + decimal m := by
  rw [decimal, Nat.ofDigitChars_append, Nat.ofDigitChars_eq_ofDigitChars_zero, mul_comm]
  rfl

theorem decimal_zeros (n : Nat) : decimal (List.replicate n '0') = 0 := by
  rw [decimal, Nat.ofDigitChars_replicate_zero, mul_zero]

/-- Zeros on the right -/
theorem decimal_append_zeros (n : Nat) : decimal (l ++ List.replicate n '0') = decimal l * 10 ^ n := by
  rw [decimal_append, decimal_zeros, List.length_replicate, add_zero]

theorem digit_le (h : c.isDigit) : c.toNat - '0'.toNat ≤ 9 := by
  rw [Char.isDigit, Bool.and_eq_true, decide_eq_true_eq, decide_eq_true_eq] at h
  have hle : c.toNat ≤ 57 := h.2
  have hzero : '0'.toNat = 48 := rfl
  omega

theorem decimal_cons : decimal (c :: l) = (c.toNat - '0'.toNat) * 10 ^ l.length + decimal l := by
  rw [decimal, Nat.ofDigitChars_cons, mul_zero, zero_add, Nat.ofDigitChars_eq_ofDigitChars_zero, mul_comm]
  rfl

theorem decimal_lt (h : Digits l) : decimal l < 10 ^ l.length := by
  induction l with
  | nil => exact Nat.one_pos
  | cons c l ih =>
    obtain ⟨hc, hl⟩ := digits_cons.mp h
    have hdigit : (c.toNat - '0'.toNat) * 10 ^ l.length ≤ 9 * 10 ^ l.length := Nat.mul_le_mul_right _ (digit_le hc)
    have hrest := ih hl
    rw [decimal_cons, List.length_cons, pow_succ]
    omega

/-! ### Writing numbers -/

theorem digits_toDigits (n : Nat) : Digits (Nat.toDigits 10 n) := fun _ h =>
  Nat.isDigit_of_mem_toDigits (by decide) (by decide) h

@[simp] theorem decimal_toDigits (n : Nat) : decimal (Nat.toDigits 10 n) = n := Nat.ofDigitChars_ten_toDigits

/-- A number of so many digits -/
theorem length_toDigits (h : 10 ^ p ≤ n) (h' : n < 10 ^ (p + 1)) : (Nat.toDigits 10 n).length = p + 1 := by
  have hle := (Nat.length_toDigits_le_iff (by decide : 1 < 10) p.succ_pos).mpr h'
  rcases p.eq_zero_or_pos with rfl | hp
  · have hpos : 0 < (Nat.toDigits 10 n).length := Nat.length_toDigits_pos
    omega
  · have hnot : ¬(Nat.toDigits 10 n).length ≤ p := fun hshort =>
      absurd ((Nat.length_toDigits_le_iff (by decide : 1 < 10) hp).mp hshort) (not_lt.mpr h)
    omega

theorem length_toDigits_one (p : Nat) : (Nat.toDigits 10 (10 ^ p)).length = p + 1 :=
  length_toDigits le_rfl (Nat.pow_lt_pow_right (by decide) p.lt_succ_self)

/-- Without its first digit, the sum of a power of ten and a smaller number is that number with leading zeros. -/
theorem padded (h : r < 10 ^ p) : ∃ m, (Nat.toDigits 10 (10 ^ p + r)).drop 1 = m ∧ Digits m ∧ m.length = p ∧ decimal m = r := by
  have hlength : (Nat.toDigits 10 (10 ^ p + r)).length = p + 1 :=
    length_toDigits (Nat.le_add_right _ _) (by rw [pow_succ]; omega)
  have hdigits := digits_toDigits (10 ^ p + r)
  have hvalue := decimal_toDigits (10 ^ p + r)
  cases hl : Nat.toDigits 10 (10 ^ p + r) with
  | nil => exact absurd hl Nat.toDigits_ne_nil
  | cons c m =>
    rw [hl] at hlength hdigits hvalue
    have hm : m.length = p := Nat.succ.inj hlength
    have hlt := decimal_lt (digits_cons.mp hdigits).2
    rw [decimal_cons, hm] at hvalue
    rw [hm] at hlt
    refine ⟨m, rfl, (digits_cons.mp hdigits).2, hm, ?_⟩
    -- the first digit is one
    have hone : c.toNat - '0'.toNat = 1 := by
      have hpos : 0 < 10 ^ p := Nat.pow_pos (by decide)
      rcases Nat.lt_trichotomy (c.toNat - '0'.toNat) 1 with hlt' | heq | hgt
      · rw [Nat.lt_one_iff.mp hlt'] at hvalue
        omega
      · exact heq
      · have htwo : 2 * 10 ^ p ≤ (c.toNat - '0'.toNat) * 10 ^ p := Nat.mul_le_mul_right _ hgt
        omega
    rw [hone] at hvalue
    omega

end

end Khc.Lib

/-! Canonical decimal numerals: digits without leading zeros, then a point and digits without zeros at the end if there is a fractional
    part, and a sign if the number is negative. There is one of a number at most. -/

namespace Khc.Lib

/-- Digits without a leading zero, or zero -/
structure Plain (l : List Char) : Prop where
  digits : Digits l
  ne_nil : l ≠ []
  lead : l.head? = some '0' → l = ['0']

/-- The numerals of numbers that are not negative -/
inductive Numeral : List Char → ℚ → Prop
  | whole {l : List Char} (hl : Plain l) : Numeral l (decimal l)
  | fraction {l r : List Char} (hl : Plain l) (hr : Digits r) (hne : r ≠ []) (hlast : r.getLast? ≠ some '0') :
      Numeral (l ++ '.' :: r) (decimal l + decimal r / 10 ^ r.length)

/-- The canonical numeral of a number -/
inductive Canonical : List Char → ℚ → Prop
  | nonneg {l : List Char} {x : ℚ} (h : Numeral l x) : Canonical l x
  | neg {l : List Char} {x : ℚ} (h : Numeral l x) (hx : x ≠ 0) : Canonical ('-' :: l) (-x)

section
variable {l m r s : List Char} {c d : Char} {k n : Nat} {x y : ℚ}

/-! ### Digits are known by what they denote -/

theorem digit_inj (hc : c.isDigit) (hd : d.isDigit) (h : c.toNat - '0'.toNat = d.toNat - '0'.toNat) : c = d := by
  rw [Char.isDigit, Bool.and_eq_true, decide_eq_true_eq, decide_eq_true_eq] at hc hd
  have hc' : '0'.toNat ≤ c.toNat := hc.1
  have hd' : '0'.toNat ≤ d.toNat := hd.1
  exact Char.toNat_inj.mp (by omega)

theorem decimal_inj (hl : Digits l) (hm : Digits m) (hlen : l.length = m.length) (h : decimal l = decimal m) : l = m := by
  induction l generalizing m with
  | nil => exact (List.length_eq_zero_iff.mp hlen.symm).symm
  | cons c l ih =>
    cases m with
    | nil => cases hlen
    | cons d m =>
      obtain ⟨hc, hl'⟩ := digits_cons.mp hl
      obtain ⟨hd, hm'⟩ := digits_cons.mp hm
      have hlen' : l.length = m.length := Nat.succ.inj hlen
      have hlt := decimal_lt hl'
      have hlt' := decimal_lt hm'
      rw [decimal_cons, decimal_cons, ← hlen'] at h
      rw [← hlen'] at hlt'
      have hpos : 0 < 10 ^ l.length := Nat.pow_pos (by decide)
      have hdiv := congrArg (· / 10 ^ l.length) h
      have hmod := congrArg (· % 10 ^ l.length) h
      simp only [Nat.mul_comm _ (10 ^ l.length), Nat.mul_add_div hpos, Nat.mul_add_mod, Nat.div_eq_of_lt hlt,
        Nat.div_eq_of_lt hlt', Nat.mod_eq_of_lt hlt, Nat.mod_eq_of_lt hlt', Nat.add_zero] at hdiv hmod
      rw [digit_inj hc hd hdiv, ih hl' hm' hlen' hmod]

/-- The length is known from the value if there are no leading zeros. -/
theorem le_decimal (hl : Digits (c :: l)) (hc : c ≠ '0') : 10 ^ l.length ≤ decimal (c :: l) := by
  obtain ⟨hdigit, -⟩ := digits_cons.mp hl
  have hpos : c.toNat - '0'.toNat ≠ 0 := fun hzero => hc (digit_inj hdigit (by decide) hzero)
  rw [decimal_cons]
  exact (Nat.le_mul_of_pos_left _ (Nat.pos_of_ne_zero hpos)).trans (Nat.le_add_right _ _)

theorem Plain.length_le (hl : Plain l) (hm : Digits m) (hne : m ≠ []) (h : decimal l = decimal m) : l.length ≤ m.length := by
  cases l with
  | nil => exact Nat.zero_le _
  | cons c l =>
    by_cases hc : c = '0'
    · have hone := hl.lead (congrArg some hc)
      rw [hone]
      exact List.length_pos_iff.mpr hne
    · have hle := le_decimal hl.digits hc
      have hlt := decimal_lt hm
      rw [← h] at hlt
      exact (Nat.pow_lt_pow_iff_right (by decide)).mp (hle.trans_lt hlt)

theorem Plain.inj (hl : Plain l) (hm : Plain m) (h : decimal l = decimal m) : l = m :=
  decimal_inj hl.digits hm.digits (Nat.le_antisymm (hl.length_le hm.digits hm.ne_nil h) (hm.length_le hl.digits hl.ne_nil h.symm)) h

theorem Plain.zero : Plain ['0'] := ⟨digits_zeros 1, List.cons_ne_nil _ _, fun _ => rfl⟩

theorem plain_toDigits (n : Nat) : Plain (Nat.toDigits 10 n) := by
  refine ⟨digits_toDigits n, Nat.toDigits_ne_nil, fun hlead => ?_⟩
  have hlen := @Nat.length_toDigits_le_iff 10 n
  have hdigits := digits_toDigits n
  have hvalue := decimal_toDigits n
  cases hl : Nat.toDigits 10 n with
  | nil => exact absurd hl Nat.toDigits_ne_nil
  | cons c l =>
    rw [hl] at hlead hlen hdigits hvalue
    obtain rfl := Option.some.inj hlead
    -- a leading zero would make the number too small for its length
    have hlt := decimal_lt (digits_cons.mp hdigits).2
    rw [decimal_cons, Nat.sub_self, zero_mul, zero_add] at hvalue
    rw [hvalue] at hlt
    rcases l.eq_nil_or_concat with rfl | ⟨l', c', rfl⟩
    · rfl
    · have hle := (hlen (by decide) (by simp)).mpr hlt
      rw [List.length_cons] at hle
      omega

theorem Plain.prefix (h : Plain (l ++ m)) (hne : l ≠ []) : Plain l := by
  refine ⟨(digits_append.mp h.digits).1, hne, fun hlead => ?_⟩
  have hzero := h.lead (by rw [List.head?_append_of_ne_nil _ hne, hlead])
  exact (List.append_eq_singleton_iff.mp hzero).elim (fun h => absurd h.1 hne) (fun h => h.1)

/-! ### Fractional parts -/

theorem last_ne_zero (hr : r ≠ []) (hlast : r.getLast? ≠ some '0') (hd : Digits r) : decimal r ≠ 0 := by
  obtain rfl | ⟨r', c, rfl⟩ := r.eq_nil_or_concat
  · exact absurd rfl hr
  · rw [List.concat_eq_append] at hlast hd ⊢
    rw [List.getLast?_append_of_ne_nil _ (List.cons_ne_nil _ _)] at hlast
    obtain ⟨-, hc⟩ := digits_append.mp hd
    rw [decimal_append]
    intro hzero
    have hdigit : decimal [c] = 0 := by omega
    rw [decimal_cons, List.length_nil, pow_zero, mul_one, decimal_nil, add_zero] at hdigit
    exact hlast (congrArg some (digit_inj (hc c List.mem_cons_self) (by decide) hdigit))

/-- A fractional part lies between zero and one. -/
theorem fraction_bounds (hr : Digits r) (hne : r ≠ []) (hlast : r.getLast? ≠ some '0') :
    (0 : ℚ) < decimal r / 10 ^ r.length ∧ (decimal r / 10 ^ r.length : ℚ) < 1 := by
  have hpos : (0 : ℚ) < decimal r := by exact_mod_cast Nat.pos_of_ne_zero (last_ne_zero hne hlast hr)
  have hlt : (decimal r : ℚ) < 10 ^ r.length := by exact_mod_cast decimal_lt hr
  exact ⟨by positivity, (div_lt_one (by positivity)).mpr hlt⟩

/-- Zeros at the end are the only difference of two ways to write a fractional part. -/
theorem fraction_inj (hr : Digits r) (hs : Digits s) (hlast : s.getLast? ≠ some '0') (hlen : r.length ≤ s.length)
    (h : (decimal r / 10 ^ r.length : ℚ) = decimal s / 10 ^ s.length) : r = s := by
  obtain ⟨k, hk⟩ := Nat.exists_eq_add_of_le hlen
  have hvalue : decimal (r ++ List.replicate k '0') = decimal s := by
    have hten : (10 : ℚ) ^ r.length ≠ 0 := by positivity
    have hten' : (10 : ℚ) ^ s.length ≠ 0 := by positivity
    rw [div_eq_div_iff hten hten', hk, pow_add, ← mul_assoc, mul_right_comm] at h
    have hcast := mul_right_cancel₀ hten h
    rw [decimal_append_zeros]
    exact_mod_cast hcast
  have heq := decimal_inj (digits_append.mpr ⟨hr, digits_zeros k⟩) hs (by rw [List.length_append, List.length_replicate, hk]) hvalue
  cases k with
  | zero => rwa [List.replicate_zero, List.append_nil] at heq
  | succ k =>
    rw [List.replicate_succ', ← List.append_assoc] at heq
    rw [← heq, List.getLast?_append_of_ne_nil _ (List.cons_ne_nil _ _)] at hlast
    exact absurd rfl hlast

/-! ### A number has one canonical numeral -/

theorem Numeral.nonneg (h : Numeral l x) : 0 ≤ x := by
  cases h with
  | whole hl => exact Nat.cast_nonneg _
  | fraction hl hr hne hlast => positivity

theorem whole_of_lt {a b : Nat} {f g : ℚ} (hf : 0 ≤ f) (hf' : f < 1) (hg : 0 ≤ g) (hg' : g < 1) (h : (a : ℚ) + f = b + g) :
    a = b ∧ f = g := by
  have hab : (a : ℚ) < b + 1 := by linarith
  have hba : (b : ℚ) < a + 1 := by linarith
  have heq : a = b := Nat.le_antisymm (Nat.lt_succ_iff.mp (by exact_mod_cast hab)) (Nat.lt_succ_iff.mp (by exact_mod_cast hba))
  subst heq
  exact ⟨rfl, add_left_cancel h⟩

theorem Numeral.inj (h : Numeral l x) (h' : Numeral m x) : l = m := by
  cases h with
  | whole hl =>
    generalize hx : (decimal l : ℚ) = x at h'
    cases h' with
    | whole hm => exact hl.inj hm (by exact_mod_cast hx)
    | fraction hm hr hne hlast =>
      obtain ⟨hpos, hlt⟩ := fraction_bounds hr hne hlast
      obtain ⟨-, hzero⟩ := whole_of_lt le_rfl one_pos hpos.le hlt ((add_zero _).trans hx)
      exact absurd hzero hpos.ne
  | @fraction l r hl hr hne hlast =>
    obtain ⟨hpos, hlt⟩ := fraction_bounds hr hne hlast
    generalize hx : (decimal l + decimal r / 10 ^ r.length : ℚ) = x at h'
    cases h' with
    | whole hm =>
      obtain ⟨-, hzero⟩ := whole_of_lt hpos.le hlt le_rfl one_pos (hx.trans (add_zero _).symm)
      exact absurd hzero hpos.ne'
    | @fraction m s hm hs hne' hlast' =>
      obtain ⟨hpos', hlt'⟩ := fraction_bounds hs hne' hlast'
      obtain ⟨hwhole, hfrac⟩ := whole_of_lt hpos.le hlt hpos'.le hlt' hx
      obtain rfl := hl.inj hm hwhole
      rcases Nat.le_total r.length s.length with hlen | hlen
      · rw [fraction_inj hr hs hlast' hlen hfrac]
      · rw [fraction_inj hs hr hlast hlen hfrac.symm]

theorem Numeral.ne_neg (h : Numeral l x) (h' : Numeral m y) (hy : y ≠ 0) : x ≠ -y := by
  intro hneg
  have hle := h.nonneg
  have hle' := h'.nonneg
  have hzero : y = 0 := by linarith
  exact hy hzero

theorem Canonical.inj (h : Canonical l x) (h' : Canonical m x) : l = m := by
  cases h with
  | nonneg hl =>
    generalize hy : x = y at h'
    cases h' with
    | nonneg hm => exact (hy ▸ hl).inj hm
    | neg hm hne => exact absurd hy (hl.ne_neg hm hne)
  | @neg l x hl hne =>
    generalize hy : -x = y at h'
    cases h' with
    | nonneg hm => exact absurd hy.symm (hm.ne_neg hl hne)
    | neg hm hne' => rw [hl.inj (neg_inj.mp hy ▸ hm)]

/-! ### Numerals from their parts -/

/-- A point and the digits behind it, if there are any -/
def point (r : List Char) : List Char := if r = [] then [] else '.' :: r

/-- What is left of the digits of a number when the zeros at the end are dropped -/
theorem numeral_of_parts (hl : Plain l) (hr : Digits r) (hlast : r.getLast? ≠ some '0')
    (h : decimal (l ++ r ++ List.replicate k '0') = n) : Numeral (l ++ point r) (n / 10 ^ (r.length + k)) := by
  subst h
  have hvalue : (decimal (l ++ r ++ List.replicate k '0') / 10 ^ (r.length + k) : ℚ) = decimal l + decimal r / 10 ^ r.length := by
    rw [decimal_append_zeros, decimal_append, pow_add]
    push_cast
    field_simp
  rw [hvalue, point]
  split
  · rename_i hnil
    subst hnil
    rw [List.append_nil, decimal_nil, Nat.cast_zero, zero_div, add_zero]
    exact .whole hl
  · rename_i hne
    exact .fraction hl hr hne hlast

end

end Khc.Lib
