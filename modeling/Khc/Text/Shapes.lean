import Khc.Text.Reading

/-! What `readAmount` makes of each text that passes the scan. The integer part starts behind the first character when there is a sign,
    wherever the sign stands, and ends as many characters later as there are before the point. -/

namespace Khc.Text

open Lib
open Chain (InInt64 maxShareSupply maxInt64)

/-- The sum of the parts, negated after a sign -/
def Signed (negative : Bool) (t v : Int) : Prop := t ≤ maxShareSupply ∧ if negative then InInt64 (-t) ∧ v = -t else v = t

section
variable {s l m r : List Char} {c : Char} {negative : Bool} {v t : Int} {p : Nat}

theorem signed_iff : (∃ u, ensure (t ≤ maxShareSupply) Error.amountTooLarge = .ok u ∧
    (if negative = true then safe (t * -1) else pure t : Eval Int) = .ok v) ↔ Signed negative t v := by
  simp only [Signed, ensure_eq_ok]
  cases negative with
  | true =>
    simp only [if_true, safe_eq_ok, mul_neg_one]
    constructor
    · rintro ⟨_, h⟩
      exact h
    · intro h
      exact ⟨(), h⟩
  | false =>
    simp only [Bool.false_eq_true, if_false, pure_eq_ok]
    constructor
    · rintro ⟨_, h, heq⟩
      exact ⟨h, heq.symm⟩
    · rintro ⟨h, heq⟩
      exact ⟨(), h, heq.symm⟩

theorem scaledPrecision_eq (hp : p < 19) : scaledPrecision p = .ok (10 ^ p) := by
  rw [scaledPrecision, ensure, if_pos hp]
  rfl

/-- Without a point -/
theorem readAmount_eq_ok (hs : Shape s (negative, false)) (hp : p < 19) : readAmount s p = .ok v ↔
    ∃ i, readLhs (substr s negative.toNat (find s '.')) (10 ^ p) = .ok i ∧ Signed negative i v := by
  rw [readAmount, hs.scan]
  simp only [ok_bind, scaledPrecision_eq hp, Bool.false_eq_true, if_false, bind_eq_ok, signed_iff]

theorem readAmount_point_eq_ok (hs : Shape s (negative, true)) (hp : p < 19) : readAmount s p = .ok v ↔
    ∃ i f, readLhs (substr s negative.toNat (find s '.')) (10 ^ p) = .ok i ∧ readRhs (s.drop (find s '.' + 1)) (10 ^ p) = .ok f ∧
      InInt64 (i + f) ∧ Signed negative (i + f) v := by
  rw [readAmount, hs.scan]
  simp only [ok_bind, scaledPrecision_eq hp, if_true, bind_eq_ok, signed_iff, safe_eq_ok]
  constructor
  · rintro ⟨i, hi, _, ⟨f, hf, hfit, rfl⟩, hv⟩
    exact ⟨i, f, hi, hf, hfit, hv⟩
  · rintro ⟨i, f, hi, hf, hfit, hv⟩
    exact ⟨i, hi, _, ⟨f, hf, hfit, rfl⟩, hv⟩

theorem find_point (h : '.' ∉ l) : find (l ++ '.' :: r) '.' = l.length := by
  rw [find, List.idxOf_append_of_notMem h, List.idxOf_cons_self, add_zero]

theorem find_none (h : '.' ∉ l) : find l '.' = l.length := List.idxOf_eq_length h

theorem noPoint (h : Digits l) : '.' ∉ l := h.ne rfl

theorem noPoint_sign (h : Digits l) : '.' ∉ '-' :: l := fun hmem => (List.mem_cons.mp hmem).elim (by decide) (noPoint h)

theorem point_ends : ∀ c ∈ ['.'].head?, c.isDigit = false := by simp

theorem sign_ends : ∀ c ∈ ('-' :: s).head?, c.isDigit = false := by simp

/-- The integer part of a text that starts with the digits `l`, or is empty -/
theorem readLhs_digits_or_nil {i : Int} (hl : Digits l) : readLhs l (10 ^ p) = .ok i ↔ i = (decimal l * 10 ^ p : Nat) ∧ i ≤ maxInt64 := by
  by_cases hne : l = []
  · subst hne
    rw [readLhs_nil, decimal_nil, zero_mul]
    exact ⟨fun h => ⟨h, h ▸ by decide⟩, fun h => h.1⟩
  · rw [← List.append_nil l, readLhs_digits hl hne nothing_behind, List.append_nil]

theorem signed_natCast {n : Nat} : Signed negative (n : Int) v ↔ (n : Int) ≤ maxShareSupply ∧ v = if negative then -(n : Int) else n := by
  have hfit : (n : Int) ≤ maxShareSupply → InInt64 (-(n : Int)) := by
    unfold InInt64 maxShareSupply
    omega
  rw [Signed]
  cases negative with
  | true =>
    simp only [if_true]
    exact ⟨fun ⟨h, _, heq⟩ => ⟨h, heq⟩, fun ⟨h, heq⟩ => ⟨h, hfit h, heq⟩⟩
  | false => simp only [Bool.false_eq_true, if_false]

theorem natCast_le_maxInt64 {n : Nat} (h : (n : Int) ≤ maxShareSupply) : (n : Int) ≤ maxInt64 := h.trans (by decide)

/-! ### The sign in its place, or none -/

/-- The sign in front of an amount -/
def signText (negative : Bool) : List Char := if negative then ['-'] else []

theorem Shape.whole (negative : Bool) (hl : Digits l) : Shape (signText negative ++ l) (negative, false) := by
  cases negative with
  | true => exact .sign Digits.nil hl
  | false => exact .plain hl

theorem Shape.fraction (negative : Bool) (hl : Digits l) (hr : Digits r) : Shape (signText negative ++ (l ++ '.' :: r)) (negative, true) := by
  cases negative with
  | true => exact .signPoint Digits.nil hl hr
  | false => exact .point hl hr

theorem readAmount_whole (negative : Bool) (hl : Digits l) (hp : p < 19) : readAmount (signText negative ++ l) p = .ok v ↔
    ((decimal l * 10 ^ p : Nat) : Int) ≤ maxShareSupply ∧
      v = if negative then -((decimal l * 10 ^ p : Nat) : Int) else (decimal l * 10 ^ p : Nat) := by
  have hlhs : substr (signText negative ++ l) negative.toNat (find (signText negative ++ l) '.') = l := by
    cases negative with
    | true =>
      change ((('-' :: l).drop 1).take (find ('-' :: l) '.')) = l
      rw [find_none (noPoint_sign hl), List.drop_one, List.tail_cons, List.length_cons]
      exact List.take_of_length_le (Nat.le_succ _)
    | false =>
      change (l.drop 0).take (find l '.') = l
      rw [find_none (noPoint hl), List.drop_zero, List.take_length]
  rw [readAmount_eq_ok (Shape.whole negative hl) hp, hlhs]
  constructor
  · rintro ⟨i, hi, hv⟩
    obtain ⟨rfl, -⟩ := (readLhs_digits_or_nil hl).mp hi
    exact signed_natCast.mp hv
  · rintro ⟨hle, heq⟩
    exact ⟨_, (readLhs_digits_or_nil hl).mpr ⟨rfl, natCast_le_maxInt64 hle⟩, signed_natCast.mpr ⟨hle, heq⟩⟩

/-- The satoshis of an amount with a fractional part -/
def satoshis (l r : List Char) (p : Nat) : Nat := decimal l * 10 ^ p + decimal r * 10 ^ (p - r.length)

theorem drop_point : (l ++ '.' :: r).drop (l.length + 1) = r := by
  rw [List.drop_append, List.drop_eq_nil_of_le (Nat.le_succ _), Nat.add_sub_cancel_left]
  rfl

/-- What the two parts of a text with a point are read from, and as -/
theorem readParts_fraction (hl : Digits l) (hr : Digits r) (hp : p < 19) (hne : negative = true → l ≠ []) (i f : Int) :
    (readLhs (substr (signText negative ++ (l ++ '.' :: r)) negative.toNat (find (signText negative ++ (l ++ '.' :: r)) '.')) (10 ^ p) =
      .ok i ↔ i = (decimal l * 10 ^ p : Nat) ∧ i ≤ maxInt64) ∧
    (readRhs ((signText negative ++ (l ++ '.' :: r)).drop (find (signText negative ++ (l ++ '.' :: r)) '.' + 1)) (10 ^ p) = .ok f ↔
      r.length ≤ p ∧ f = (decimal r * 10 ^ (p - r.length) : Nat)) := by
  cases negative with
  | true =>
    have hfind : find ('-' :: l ++ '.' :: r) '.' = l.length + 1 := find_point (noPoint_sign hl)
    have hlhs : (('-' :: l ++ '.' :: r).drop 1).take (l.length + 1) = l ++ ['.'] := by
      rw [List.cons_append, List.drop_one, List.tail_cons, List.take_append, List.take_of_length_le (Nat.le_succ _), Nat.add_sub_cancel_left]
      rfl
    change (readLhs ((('-' :: l ++ '.' :: r).drop 1).take (find ('-' :: l ++ '.' :: r) '.')) (10 ^ p) = .ok i ↔ _) ∧
      (readRhs (('-' :: l ++ '.' :: r).drop (find ('-' :: l ++ '.' :: r) '.' + 1)) (10 ^ p) = .ok f ↔ _)
    rw [hfind, hlhs, ← List.length_cons (a := '-'), drop_point]
    exact ⟨readLhs_digits hl (hne rfl) point_ends, readRhs_eq_ok hr hp⟩
  | false =>
    change (readLhs (((l ++ '.' :: r).drop 0).take (find (l ++ '.' :: r) '.')) (10 ^ p) = .ok i ↔ _) ∧
      (readRhs ((l ++ '.' :: r).drop (find (l ++ '.' :: r) '.' + 1)) (10 ^ p) = .ok f ↔ _)
    rw [find_point (noPoint hl), drop_point, List.drop_zero, List.take_left]
    exact ⟨readLhs_digits_or_nil hl, readRhs_eq_ok hr hp⟩

theorem readAmount_fraction (negative : Bool) (hl : Digits l) (hr : Digits r) (hp : p < 19) (hne : negative = true → l ≠ []) :
    readAmount (signText negative ++ (l ++ '.' :: r)) p = .ok v ↔ r.length ≤ p ∧ (satoshis l r p : Int) ≤ maxShareSupply ∧
      v = if negative then -(satoshis l r p : Int) else satoshis l r p := by
  have hcast : ((decimal l * 10 ^ p : Nat) : Int) + (decimal r * 10 ^ (p - r.length) : Nat) = (satoshis l r p : Nat) := by
    rw [satoshis]
    push_cast
    rfl
  have hsum : (satoshis l r p : Int) ≤ maxShareSupply → ((decimal l * 10 ^ p : Nat) : Int) ≤ maxInt64 := by
    intro hle
    refine natCast_le_maxInt64 (le_trans ?_ hle)
    rw [← hcast]
    omega
  have hfit : ∀ n : Nat, (n : Int) ≤ maxShareSupply → InInt64 n := by
    unfold InInt64 maxShareSupply
    omega
  have hparts := readParts_fraction hl hr hp hne
  rw [readAmount_point_eq_ok (Shape.fraction negative hl hr) hp]
  constructor
  · rintro ⟨i, f, hi, hf, -, hv⟩
    obtain ⟨rfl, -⟩ := (hparts i f).1.mp hi
    obtain ⟨hlen, rfl⟩ := (hparts 0 f).2.mp hf
    rw [hcast] at hv
    exact ⟨hlen, signed_natCast.mp hv⟩
  · rintro ⟨hlen, hle, heq⟩
    refine ⟨_, _, (hparts _ 0).1.mpr ⟨rfl, hsum hle⟩, (hparts 0 _).2.mpr ⟨hlen, rfl⟩, ?_, ?_⟩
    · rw [hcast]
      exact hfit _ hle
    · rw [hcast]
      exact signed_natCast.mpr ⟨hle, heq⟩

/-- Nothing is read between a sign and a point. -/
theorem readAmount_signPoint (hr : Digits r) (hp : p < 19) : readAmount ('-' :: '.' :: r) p ≠ .ok v := by
  intro h
  obtain ⟨i, f, hi, -⟩ := (readAmount_point_eq_ok (Shape.signPoint Digits.nil Digits.nil hr) hp).mp h
  exact readLhs_point hi

end

end Khc.Text
