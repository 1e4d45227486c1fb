import Khc.Text.Amount
import Mathlib.Data.List.Induction

/-! How the texts that pass the scan are read: where a sign and a point stand among the digits decides what the integer part and the
    fractional part are taken from. -/

namespace Khc.Text

open Lib
open Chain (InInt64 maxShareSupply maxInt64)

/-! ### The scan -/

/-- Digits with at most one sign and one point -/
inductive Shape : List Char → Bool × Bool → Prop
  | plain {l : List Char} (hl : Digits l) : Shape l (false, false)
  | point {l r : List Char} (hl : Digits l) (hr : Digits r) : Shape (l ++ '.' :: r) (false, true)
  | sign {l r : List Char} (hl : Digits l) (hr : Digits r) : Shape (l ++ '-' :: r) (true, false)
  | signPoint {l m r : List Char} (hl : Digits l) (hm : Digits m) (hr : Digits r) : Shape (l ++ '-' :: (m ++ '.' :: r)) (true, true)
  | pointSign {l m r : List Char} (hl : Digits l) (hm : Digits m) (hr : Digits r) : Shape (l ++ '.' :: (m ++ '-' :: r)) (true, true)

section
variable {s l m r : List Char} {c : Char} {found found' : Bool × Bool}

theorem scanChar_cases (h : scanChar found c = .ok found') :
    (c.isDigit ∧ found' = found) ∨ (c = '-' ∧ found.1 = false ∧ found' = (true, found.2)) ∨
    (c = '.' ∧ found.2 = false ∧ found' = (found.1, true)) := by
  unfold scanChar at h
  split at h
  · rename_i hc
    exact .inl ⟨hc, (Except.ok.inj h).symm⟩
  · split at h
    · rename_i hsign
      exact .inr (.inl ⟨hsign.1, by simpa using hsign.2, (Except.ok.inj h).symm⟩)
    · split at h
      · rename_i hpoint
        exact .inr (.inr ⟨hpoint.1, by simpa using hpoint.2, (Except.ok.inj h).symm⟩)
      · cases h

/-- One more character extends the last digits or starts new ones. -/
theorem Shape.snoc (h : Shape s found) (hc : scanChar found c = .ok found') : Shape (s ++ [c]) found' := by
  rcases scanChar_cases hc with ⟨hdigit, rfl⟩ | ⟨rfl, hsign, rfl⟩ | ⟨rfl, hpoint, rfl⟩
  · cases h with
    | plain hl => exact .plain (hl.snoc hdigit)
    | point hl hr =>
      rw [List.append_assoc, List.cons_append]
      exact .point hl (hr.snoc hdigit)
    | sign hl hr =>
      rw [List.append_assoc, List.cons_append]
      exact .sign hl (hr.snoc hdigit)
    | signPoint hl hm hr =>
      rw [List.append_assoc, List.cons_append, List.append_assoc, List.cons_append]
      exact .signPoint hl hm (hr.snoc hdigit)
    | pointSign hl hm hr =>
      rw [List.append_assoc, List.cons_append, List.append_assoc, List.cons_append]
      exact .pointSign hl hm (hr.snoc hdigit)
  · cases h with
    | plain hl => exact .sign hl Digits.nil
    | point hl hr =>
      rw [List.append_assoc, List.cons_append]
      exact .pointSign hl hr Digits.nil
    | sign hl hr => exact Bool.noConfusion hsign
    | signPoint hl hm hr => exact Bool.noConfusion hsign
    | pointSign hl hm hr => exact Bool.noConfusion hsign
  · cases h with
    | plain hl => exact .point hl Digits.nil
    | point hl hr => exact Bool.noConfusion hpoint
    | sign hl hr =>
      rw [List.append_assoc, List.cons_append]
      exact .signPoint hl hr Digits.nil
    | signPoint hl hm hr => exact Bool.noConfusion hpoint
    | pointSign hl hm hr => exact Bool.noConfusion hpoint

theorem Shape.of_scan (h : scan s = .ok found) : Shape s found := by
  induction s using List.reverseRecOn generalizing found with
  | nil =>
    obtain rfl := Except.ok.inj h
    exact .plain Digits.nil
  | append_singleton s c ih =>
    rw [scan, List.foldlM_append, bind_eq_ok] at h
    obtain ⟨found₁, h₁, h⟩ := h
    rw [List.foldlM_cons, bind_eq_ok] at h
    obtain ⟨found₂, hc, h₂⟩ := h
    obtain rfl := pure_eq_ok.mp h₂
    exact (ih h₁).snoc hc

theorem scan_digits (hl : Digits l) : l.foldlM scanChar found = .ok found := by
  induction l with
  | nil => rfl
  | cons c l ih =>
    obtain ⟨hc, hl⟩ := digits_cons.mp hl
    rw [List.foldlM_cons, scanChar, if_pos hc]
    exact ih hl

/-- The scan accepts the shapes. -/
theorem Shape.scan (h : Shape s found) : scan s = .ok found := by
  unfold Text.scan
  have hskip : ∀ {l r : List Char} {c : Char} {found : Bool × Bool}, Digits l → (l ++ c :: r).foldlM scanChar found =
      scanChar found c >>= fun found => r.foldlM scanChar found := by
    intro l r c found hl
    rw [List.foldlM_append, scan_digits hl]
    rfl
  cases h with
  | plain hl => exact scan_digits hl
  | point hl hr =>
    rw [hskip hl]
    exact scan_digits hr
  | sign hl hr =>
    rw [hskip hl]
    exact scan_digits hr
  | signPoint hl hm hr =>
    rw [hskip hl]
    exact (hskip hm).trans (scan_digits hr)
  | pointSign hl hm hr =>
    rw [hskip hl]
    exact (hskip hm).trans (scan_digits hr)

end

/-! ### Numbers -/

section
variable {l m r s : List Char} {x v t i f : Int} {p : Nat}

theorem safe_eq_ok : safe x = .ok v ↔ InInt64 x ∧ v = x := by
  simp only [safe, bind_eq_ok, ensure_eq_ok, pure_eq_ok]
  constructor
  · rintro ⟨_, h, heq⟩
    exact ⟨h, heq.symm⟩
  · rintro ⟨h, heq⟩
    exact ⟨(), h, heq.symm⟩

theorem isSpace_of_isDigit {c : Char} (h : c.isDigit) : isSpace c = false := by
  rw [Char.isDigit, Bool.and_eq_true, decide_eq_true_eq, decide_eq_true_eq] at h
  have hge : 48 ≤ c.toNat := h.1
  have hne : c ≠ ' ' := by
    rintro rfl
    exact absurd hge (by decide)
  rw [isSpace, decide_eq_false_iff_not]
  rintro (heq | ⟨-, hle⟩)
  · exact hne heq
  · omega

theorem takeSign_digit {c : Char} (h : c.isDigit) : takeSign (c :: s) = (false, c :: s) := by
  unfold takeSign
  split
  · rename_i heq
    obtain ⟨rfl, -⟩ := List.cons.inj heq
    exact absurd h (by decide)
  · rename_i heq
    obtain ⟨rfl, -⟩ := List.cons.inj heq
    exact absurd h (by decide)
  · rfl

theorem nothing_behind : ∀ c ∈ ([] : List Char).head?, c.isDigit = false := by simp

/-- Digits at the front -/
theorem stoll_digits (hl : Digits l) (hne : l ≠ []) (hr : ∀ c ∈ r.head?, c.isDigit = false) :
    stoll (l ++ r) = .ok x ↔ x = decimal l ∧ (decimal l : Int) ≤ maxInt64 := by
  cases l with
  | nil => exact absurd rfl hne
  | cons c l =>
    have hc := (digits_cons.mp hl).1
    have hblank : (c :: l ++ r).dropWhile isSpace = c :: l ++ r := by
      rw [List.cons_append, List.dropWhile_cons_of_neg (by rw [isSpace_of_isDigit hc]; exact Bool.false_ne_true)]
    rw [stoll, hblank, List.cons_append, takeSign_digit hc, ← List.cons_append]
    simp only [takeWhile_digits hl hr, bind_eq_ok, ensure_eq_ok, pure_eq_ok, Bool.false_eq_true, if_false]
    have hin : InInt64 (decimal (c :: l)) ↔ (decimal (c :: l) : Int) ≤ maxInt64 := by
      unfold InInt64 maxInt64
      omega
    rw [hin]
    constructor
    · rintro ⟨_, _, _, hle, heq⟩
      exact ⟨heq.symm, hle⟩
    · rintro ⟨heq, hle⟩
      exact ⟨(), hne, (), hle, heq.symm⟩

/-- A sign at the front, and digits after it -/
theorem stoll_sign (hl : Digits l) (hr : ∀ c ∈ r.head?, c.isDigit = false) :
    stoll ('-' :: (l ++ r)) = .ok x ↔ l ≠ [] ∧ x = -(decimal l : Int) ∧ (decimal l : Int) ≤ maxInt64 + 1 := by
  have hblank : ('-' :: (l ++ r)).dropWhile isSpace = '-' :: (l ++ r) := rfl
  rw [stoll, hblank]
  simp only [takeSign, takeWhile_digits hl hr, bind_eq_ok, ensure_eq_ok, pure_eq_ok, if_true]
  have hin : InInt64 (-(decimal l : Int)) ↔ (decimal l : Int) ≤ maxInt64 + 1 := by
    unfold InInt64 maxInt64
    omega
  rw [hin]
  constructor
  · rintro ⟨_, hne, _, hle, heq⟩
    exact ⟨hne, heq.symm, hle⟩
  · rintro ⟨hne, heq, hle⟩
    exact ⟨(), hne, (), hle, heq.symm⟩

/-- A point at the front -/
theorem stoll_point : stoll ('.' :: s) ≠ .ok x := by
  intro h
  have hsign : takeSign (('.' :: s).dropWhile isSpace) = (false, '.' :: s) := rfl
  have hnone : ('.' :: s).takeWhile (·.isDigit) = [] := rfl
  rw [stoll, hsign] at h
  simp only [hnone, bind_eq_ok, ensure_eq_ok] at h
  obtain ⟨_, hne, -⟩ := h
  exact hne rfl

/-! ### The two parts -/

theorem maxRhsSize_eq (p : Nat) : ((toString (10 ^ p)).drop 1).length = p := by
  have hnot : ¬(10 ^ p : Int) < 0 := not_lt.mpr (pow_nonneg (by norm_num) p)
  have habs : (10 ^ p : Int).natAbs = 10 ^ p := by
    rw [Int.natAbs_pow]
    rfl
  rw [toString, if_neg hnot, habs, List.length_drop, length_toDigits_one]
  rfl

/-- The precisions leave room for the digits of the fractional part in 64 bits. -/
theorem pow_le_maxShareSupply (hp : p < 19) : (10 ^ p : Nat) ≤ 1000000000000000000 :=
  Nat.pow_le_pow_right (by decide) (by omega : p ≤ 18)

theorem decimal_padded_lt (hr : Digits r) (hlen : r.length ≤ p) : decimal r * 10 ^ (p - r.length) < 10 ^ p := by
  have hlt : decimal r * 10 ^ (p - r.length) < 10 ^ r.length * 10 ^ (p - r.length) :=
    Nat.mul_lt_mul_of_pos_right (decimal_lt hr) (Nat.pow_pos (by decide))
  rwa [← pow_add, Nat.add_sub_cancel' hlen] at hlt

theorem readRhs_eq_ok (hr : Digits r) (hp : p < 19) :
    readRhs r (10 ^ p) = .ok f ↔ r.length ≤ p ∧ f = (decimal r * 10 ^ (p - r.length) : Nat) := by
  have hzeros := digits_append.mpr ⟨hr, digits_zeros (p - r.length)⟩
  rw [readRhs, maxRhsSize_eq]
  simp only [bind_eq_ok, ensure_eq_ok]
  constructor
  · rintro ⟨_, hlen, h⟩
    refine ⟨hlen, ?_⟩
    split at h
    · rename_i hne
      rw [← List.append_nil (r ++ _), stoll_digits hzeros hne nothing_behind, decimal_append_zeros] at h
      exact h.1
    · rename_i hnil
      rw [not_not] at hnil
      rw [← decimal_append_zeros, hnil]
      exact (pure_eq_ok.mp h).symm
  · rintro ⟨hlen, rfl⟩
    refine ⟨(), hlen, ?_⟩
    have hlt := decimal_padded_lt hr hlen
    have hpow := pow_le_maxShareSupply hp
    split
    · rename_i hne
      rw [← List.append_nil (r ++ _), stoll_digits hzeros hne nothing_behind, decimal_append_zeros]
      refine ⟨rfl, ?_⟩
      unfold maxInt64
      omega
    · rename_i hnil
      rw [not_not] at hnil
      rw [← decimal_append_zeros, hnil]
      rfl

/-- With a sign among the digits, the fractional part ends before it, or is negative. -/
theorem readRhs_sign_eq_ok (hm : Digits m) (hr : Digits r) (hp : p < 19) :
    readRhs (m ++ '-' :: r) (10 ^ p) = .ok f ↔ m.length + (r.length + 1) ≤ p ∧
      ((m ≠ [] ∧ f = (decimal m : Nat)) ∨
       (m = [] ∧ (r ≠ [] ∨ 2 ≤ p) ∧ f = -(decimal r * 10 ^ (p - (r.length + 1)) : Nat))) := by
  have hsign : ∀ z : List Char, ∀ c ∈ ('-' :: z).head?, c.isDigit = false := by
    intro z c hc
    rw [← Option.some.inj hc]
    rfl
  have hpow := pow_le_maxShareSupply hp
  have hlength : (m ++ '-' :: r).length = m.length + (r.length + 1) := by rw [List.length_append, List.length_cons]
  have hmore : m ++ '-' :: r ++ List.replicate (p - (m ++ '-' :: r).length) '0' ≠ [] := by simp
  rw [readRhs, maxRhsSize_eq]
  simp only [bind_eq_ok, ensure_eq_ok, if_pos hmore]
  rw [hlength]
  constructor
  · rintro ⟨_, hlen, h⟩
    refine ⟨hlen, ?_⟩
    by_cases hnil : m = []
    · subst hnil
      rw [List.nil_append, List.cons_append, ← List.append_nil (r ++ _),
        stoll_sign (digits_append.mpr ⟨hr, digits_zeros _⟩) nothing_behind, decimal_append_zeros, List.length_nil, Nat.zero_add] at h
      obtain ⟨hne, rfl, -⟩ := h
      refine .inr ⟨rfl, ?_, rfl⟩
      by_contra hnot
      rw [not_or, not_not] at hnot
      obtain ⟨rfl, htwo⟩ := hnot
      have hone : p - 1 = 0 := by omega
      exact hne (by rw [List.nil_append, List.length_nil, Nat.zero_add, hone, List.replicate_zero])
    · rw [List.append_assoc, List.cons_append, stoll_digits hm hnil (hsign _)] at h
      exact .inl ⟨hnil, h.1⟩
  · rintro ⟨hlen, h⟩
    refine ⟨(), hlen, ?_⟩
    rcases h with ⟨hne, rfl⟩ | ⟨rfl, hsome, rfl⟩
    · rw [List.append_assoc, List.cons_append, stoll_digits hm hne (hsign _)]
      refine ⟨rfl, ?_⟩
      have hlt := decimal_lt hm
      have hle : 10 ^ m.length ≤ 10 ^ p := Nat.pow_le_pow_right (by decide) (by omega)
      unfold maxInt64
      omega
    · rw [List.nil_append, List.cons_append, ← List.append_nil (r ++ _),
        stoll_sign (digits_append.mpr ⟨hr, digits_zeros _⟩) nothing_behind, decimal_append_zeros, List.length_nil, Nat.zero_add]
      rw [List.length_nil, Nat.zero_add] at hlen
      refine ⟨?_, rfl, ?_⟩
      · rcases hsome with hne | htwo
        · simp [hne]
        · intro hnil
          have hzero := congrArg List.length hnil
          rw [List.length_append, List.length_replicate, List.length_nil] at hzero
          omega
      · have hlt := decimal_padded_lt hr (by omega : r.length ≤ p - 1)
        have hexp : p - 1 - r.length = p - (r.length + 1) := by omega
        have hle : 10 ^ (p - 1) ≤ 10 ^ p := Nat.pow_le_pow_right (by decide) (by omega)
        rw [hexp] at hlt
        unfold maxInt64
        omega

theorem readLhs_nil : readLhs [] x = .ok i ↔ i = 0 := by
  simp [readLhs, eq_comm]

theorem readLhs_digits (hl : Digits l) (hne : l ≠ []) (hr : ∀ c ∈ r.head?, c.isDigit = false) :
    readLhs (l ++ r) (10 ^ p) = .ok i ↔ i = (decimal l * 10 ^ p : Nat) ∧ i ≤ maxInt64 := by
  have hpos : 0 < 10 ^ p := Nat.pow_pos (by decide)
  have hle : decimal l ≤ decimal l * 10 ^ p := Nat.le_mul_of_pos_right _ hpos
  have hsome : l ++ r ≠ [] := List.append_ne_nil_of_left_ne_nil hne r
  rw [readLhs, if_pos hsome]
  simp only [bind_eq_ok, stoll_digits hl hne hr, safe_eq_ok]
  have hin : ∀ n : Nat, InInt64 n ↔ (n : Int) ≤ maxInt64 := by
    unfold InInt64 maxInt64
    omega
  have hcast : (decimal l : Int) * 10 ^ p = (decimal l * 10 ^ p : Nat) := by push_cast; rfl
  constructor
  · rintro ⟨_, ⟨rfl, -⟩, hfit, rfl⟩
    rw [hcast] at hfit ⊢
    exact ⟨rfl, (hin _).mp hfit⟩
  · rintro ⟨rfl, hfit⟩
    refine ⟨_, ⟨rfl, ?_⟩, ?_, hcast.symm⟩
    · exact le_trans (Int.ofNat_le.mpr hle) hfit
    · rw [hcast]
      exact (hin _).mpr hfit

theorem readLhs_sign (hl : Digits l) (hr : ∀ c ∈ r.head?, c.isDigit = false) :
    readLhs ('-' :: (l ++ r)) (10 ^ p) = .ok i ↔ l ≠ [] ∧ i = -(decimal l * 10 ^ p : Nat) ∧ -maxInt64 - 1 ≤ i := by
  have hpos : 0 < 10 ^ p := Nat.pow_pos (by decide)
  have hle : decimal l ≤ decimal l * 10 ^ p := Nat.le_mul_of_pos_right _ hpos
  rw [readLhs, if_pos (List.cons_ne_nil _ _)]
  simp only [bind_eq_ok, stoll_sign hl hr, safe_eq_ok]
  have hin : ∀ n : Nat, InInt64 (-(n : Int)) ↔ -maxInt64 - 1 ≤ -(n : Int) := by
    unfold InInt64 maxInt64
    omega
  have hcast : -(decimal l : Int) * 10 ^ p = -(decimal l * 10 ^ p : Nat) := by
    push_cast
    rw [neg_mul]
  constructor
  · rintro ⟨_, ⟨hne, rfl, -⟩, hfit, rfl⟩
    rw [hcast] at hfit ⊢
    exact ⟨hne, rfl, (hin _).mp hfit⟩
  · rintro ⟨hne, rfl, hfit⟩
    refine ⟨_, ⟨hne, rfl, ?_⟩, ?_, hcast.symm⟩
    · omega
    · rw [hcast]
      exact (hin _).mpr hfit

theorem readLhs_point : readLhs ('.' :: s) x ≠ .ok i := by
  intro h
  rw [readLhs, if_pos (List.cons_ne_nil _ _), bind_eq_ok] at h
  obtain ⟨_, h, -⟩ := h
  exact stoll_point h

end

end Khc.Text
