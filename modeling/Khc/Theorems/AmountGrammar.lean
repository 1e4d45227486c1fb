import Khc.Text.Misplaced

/-! The texts that `khc_amount_from_string` and `asset_object::amount_from_string` accept, and those that denote an amount. -/

namespace Khc.Text

open Lib
open Chain (maxShareSupply AssetId)

/-- An optional sign, digits, and optionally a point and at most `p` more digits, with at least one digit and at most the maximum share
    supply in all -/
inductive Denotes (p : Nat) : List Char → Int → Prop
  | whole {l : List Char} (negative : Bool) (hl : Digits l) (hne : l ≠ []) (hle : ((decimal l * 10 ^ p : Nat) : Int) ≤ maxShareSupply) :
      Denotes p (signText negative ++ l) (if negative then -((decimal l * 10 ^ p : Nat) : Int) else (decimal l * 10 ^ p : Nat))
  | fraction {l r : List Char} (negative : Bool) (hl : Digits l) (hr : Digits r) (hne : l ≠ [] ∨ r ≠ []) (hlen : r.length ≤ p)
      (hle : (satoshis l r p : Int) ≤ maxShareSupply) :
      Denotes p (signText negative ++ (l ++ '.' :: r)) (if negative then -(satoshis l r p : Int) else satoshis l r p)

/-- There is a digit in the text, one in front of the point if there is a sign in front of it and digits enough behind it, and the sign is not
    misplaced. -/
structure Readable (p : Nat) (s : List Char) : Prop where
  digit : s ≠ [] ∧ s ≠ ['-'] ∧ s ≠ ['.']
  whole : ∀ r, s = '-' :: '.' :: r → Digits r → r = [] ∨ p < r.length
  placed : ¬Misread p s

section
variable {s l r : List Char} {p : Nat} {v : Int}

theorem exists_digit (hl : Digits l) (hne : l ≠ []) : ∃ c ∈ l, c.isDigit := by
  cases l with
  | nil => exact absurd rfl hne
  | cons c l => exact ⟨c, List.mem_cons_self, (digits_cons.mp hl).1⟩

theorem Denotes.digit (h : Denotes p s v) : ∃ c ∈ s, c.isDigit := by
  cases h with
  | whole negative hl hne hle =>
    obtain ⟨c, hc, hdigit⟩ := exists_digit hl hne
    exact ⟨c, List.mem_append_right _ hc, hdigit⟩
  | fraction negative hl hr hne hlen hle =>
    rcases hne with hne | hne
    · obtain ⟨c, hc, hdigit⟩ := exists_digit hl hne
      exact ⟨c, List.mem_append_right _ (List.mem_append_left _ hc), hdigit⟩
    · obtain ⟨c, hc, hdigit⟩ := exists_digit hr hne
      exact ⟨c, List.mem_append_right _ (List.mem_append_right _ (List.mem_cons_of_mem _ hc)), hdigit⟩

/-- The sign of an amount is its first character. -/
theorem Denotes.sign (h : Denotes p s v) (hmem : '-' ∈ s) : s.head? = some '-' := by
  have hdigit : ∀ {l : List Char}, Digits l → '-' ∉ l := fun hl => hl.ne rfl
  cases h with
  | whole negative hl hne hle =>
    cases negative with
    | true => rfl
    | false => exact absurd (List.mem_append.mp hmem |>.resolve_left List.not_mem_nil) (hdigit hl)
  | fraction negative hl hr hne hlen hle =>
    cases negative with
    | true => rfl
    | false =>
      rcases List.mem_append.mp (List.mem_append.mp hmem |>.resolve_left List.not_mem_nil) with hmem | hmem
      · exact absurd hmem (hdigit hl)
      · exact absurd ((List.mem_cons.mp hmem).resolve_left (by decide)) (hdigit hr)

/-- What denotes an amount is read as that amount. -/
theorem Denotes.read (h : Denotes p s v) (hs : Readable p s) (hp : p < 19) : readAmount s p = .ok v := by
  cases h with
  | whole negative hl hne hle => exact (readAmount_whole negative hl hp).mpr ⟨hle, rfl⟩
  | @fraction l r negative hl hr hne hlen hle =>
    refine (readAmount_fraction negative hl hr hp ?_).mpr ⟨hlen, hle, rfl⟩
    rintro rfl rfl
    rcases hs.whole r rfl hr with rfl | hlong
    · exact hne.elim (fun h => h rfl) (fun h => h rfl)
    · omega

/-- What is read denotes what it is read as. -/
theorem denotes_of_read (h : readAmount s p = .ok v) (hs : Readable p s) (hp : p < 19) : Denotes p s v := by
  have hscan : ∃ found, scan s = .ok found := by
    obtain ⟨found, hfound, -⟩ := bind_eq_ok.mp h
    exact ⟨found, hfound⟩
  obtain ⟨found, hfound⟩ := hscan
  obtain ⟨hempty, hsign, hpoint⟩ := hs.digit
  cases Shape.of_scan hfound with
  | plain hl =>
    obtain ⟨hle, rfl⟩ := (readAmount_whole false hl hp).mp h
    exact .whole false hl hempty hle
  | @point l r hl hr =>
    obtain ⟨hlen, hle, rfl⟩ := (readAmount_fraction false hl hr hp (fun h => Bool.noConfusion h)).mp h
    refine .fraction false hl hr ?_ hlen hle
    by_contra hnone
    rw [not_or, not_not, not_not] at hnone
    obtain ⟨rfl, rfl⟩ := hnone
    exact hpoint rfl
  | @sign l r hl hr =>
    cases l with
    | nil =>
      obtain ⟨hle, rfl⟩ := (readAmount_whole true hr hp).mp h
      refine .whole true hr ?_ hle
      rintro rfl
      exact hsign rfl
    | cons c l => exact absurd (misread_of_sign hl hr hp h) hs.placed
  | @signPoint l m r hl hm hr =>
    cases l with
    | nil =>
      by_cases hne : m = []
      · subst hne
        exact absurd h (readAmount_signPoint hr hp)
      · obtain ⟨hlen, hle, rfl⟩ := (readAmount_fraction true hm hr hp (fun _ => hne)).mp h
        exact .fraction true hm hr (.inl hne) hlen hle
    | cons c l => exact absurd (misread_of_sign_point hl hm hr hp h) hs.placed
  | pointSign hl hm hr => exact absurd (misread_of_point_sign hl hm hr hp h) hs.placed

/-- The texts without a digit that are read as nothing -/
theorem read_empty (hp : p < 19) : readAmount [] p = .ok 0 ∧ readAmount ['-'] p = .ok 0 ∧ readAmount ['.'] p = .ok 0 := by
  have hzero : decimal [] * 10 ^ p = 0 := by rw [decimal_nil, zero_mul]
  have hnone : satoshis [] [] p = 0 := by rw [satoshis, decimal_nil, zero_mul, zero_mul, add_zero]
  have hle : ((0 : Nat) : Int) ≤ maxShareSupply := by decide
  refine ⟨(readAmount_whole false Digits.nil hp).mpr ?_, (readAmount_whole true Digits.nil hp).mpr ?_,
    (readAmount_fraction false Digits.nil Digits.nil hp (fun h => Bool.noConfusion h)).mpr ⟨Nat.zero_le _, ?_⟩⟩
  · rw [hzero]
    exact ⟨hle, rfl⟩
  · rw [hzero]
    exact ⟨hle, rfl⟩
  · rw [hnone]
    exact ⟨hle, rfl⟩

theorem readable_of_agrees (h : ∀ v, readAmount s p = .ok v ↔ Denotes p s v) (hp : p < 19) : Readable p s := by
  obtain ⟨hnil, hsign, hpoint⟩ := read_empty hp
  refine ⟨⟨?_, ?_, ?_⟩, ?_, fun hmis => ?_⟩
  · rintro rfl
    obtain ⟨c, hc, -⟩ := ((h 0).mp hnil).digit
    exact absurd hc List.not_mem_nil
  · rintro rfl
    obtain ⟨c, hc, hdigit⟩ := ((h 0).mp hsign).digit
    rw [List.mem_singleton.mp hc] at hdigit
    exact absurd hdigit (by decide)
  · rintro rfl
    obtain ⟨c, hc, hdigit⟩ := ((h 0).mp hpoint).digit
    rw [List.mem_singleton.mp hc] at hdigit
    exact absurd hdigit (by decide)
  · rintro r rfl hr
    by_contra hnot
    rw [not_or, not_lt] at hnot
    have hlt := decimal_padded_lt hr hnot.2
    have hpow := pow_le_maxShareSupply hp
    have hle : (satoshis [] r p : Int) ≤ maxShareSupply := by
      rw [satoshis, decimal_nil, zero_mul, zero_add]
      unfold maxShareSupply
      omega
    exact readAmount_signPoint hr hp ((h _).mpr (.fraction true Digits.nil hr (.inr hnot.1) hnot.2 hle))
  · obtain ⟨v, hv⟩ := hmis.read hp
    obtain ⟨hmem, hhead⟩ := sign_of_misread hmis
    exact hhead (((h v).mp hv).sign hmem)

end

/-- The two functions accept the texts that denote an amount, and return it, for the readable texts and for no other. -/
theorem amount_read_iff {p : Nat} (hp : p < 19) (s : List Char) :
    ((∀ v, khcAmountFromString s p = .ok v ↔ Denotes p s v) ∧
      ∀ (id : AssetId) v, amountFromString id p s = .ok ⟨v, id⟩ ↔ Denotes p s v) ↔ Readable p s := by
  have hasset : ∀ (id : AssetId) v, amountFromString id p s = .ok ⟨v, id⟩ ↔ khcAmountFromString s p = .ok v := by
    intro id v
    simp only [amountFromString, bind_eq_ok, pure_eq_ok]
    constructor
    · rintro ⟨_, h, heq⟩
      obtain rfl := congrArg Chain.Asset.amount heq
      exact h
    · intro h
      exact ⟨v, h, rfl⟩
  refine ⟨fun h => readable_of_agrees h.1 hp, fun hs => ?_⟩
  have hread : ∀ v, khcAmountFromString s p = .ok v ↔ Denotes p s v := fun v =>
    ⟨fun h => denotes_of_read h hs hp, fun h => h.read hs hp⟩
  exact ⟨hread, fun id v => (hasset id v).trans (hread v)⟩

/-- With a precision of two: what denotes an amount and is refused, what denotes none and is accepted, and with which values. -/
theorem amount_misread :
    (Denotes 2 ['-', '.', '5'] (-50) ∧ khcAmountFromString ['-', '.', '5'] 2 = .error .invalidArgument) ∧
    (khcAmountFromString [] 2 = .ok 0 ∧ khcAmountFromString ['-'] 2 = .ok 0 ∧ khcAmountFromString ['.'] 2 = .ok 0) ∧
    khcAmountFromString ['1', '2', '-', '7'] 2 = .ok (-200) ∧ khcAmountFromString ['1', '-', '7'] 2 = .ok 700 ∧
    ∀ v, ¬Denotes 2 ['1', '-', '7'] v := by
  refine ⟨⟨?_, by decide +kernel⟩, by decide +kernel, by decide +kernel, by decide +kernel, fun v h => ?_⟩
  · exact Denotes.fraction (l := []) (r := ['5']) true Digits.nil (digits_cons.mpr ⟨by decide, Digits.nil⟩) (.inr (by decide))
      (by decide) (by decide +kernel)
  · exact absurd (h.sign (by decide +kernel)) (by decide +kernel)

theorem amount_read_iff_signed :
    khcAmountFromString ['-', '1', '.', '5'] 2 = .ok (-150) ↔ Denotes 2 ['-', '1', '.', '5'] (-150) := by
  have hplaced : ¬Misread 2 ['-', '1', '.', '5'] := fun h => (sign_of_misread h).2 rfl
  have hwhole : ∀ r, ['-', '1', '.', '5'] = '-' :: '.' :: r → Digits r → r = [] ∨ 2 < r.length := fun r h =>
    absurd (List.cons.inj (List.cons.inj h).2).1 (by decide)
  exact ((amount_read_iff (by decide) _).mpr ⟨by decide, hwhole, hplaced⟩).1 (-150)

end Khc.Text
