import Khc.Market.MaxDebt
import Khc.Market.Halting

/-! How far a margin call goes: the searches for what it covers end, and it covers nothing only when the order is at its
    target already. -/

namespace Khc.Market

open Lib
open Chain (Asset Price)

namespace CallOrder

/-- The fields fit into `int64_t` and `uint16_t`. -/
structure Fits (c : CallOrder) : Prop where
  debt : c.debt < 2 ^ 63
  collateral : c.collateral < 2 ^ 63
  target : ∀ t ∈ c.targetCollateralRatio, t < 2 ^ 16

variable {c : CallOrder} {matchPrice feedPrice : Price} {fuel tcr : Nat} {lo hi x : Cover} {covered : Int}

/-! ### Parts of a cover -/

theorem coveredBy_nonneg {toPay : Int} (h : c.coveredBy matchPrice toPay = .ok covered) : 0 ≤ covered := by
  simp only [coveredBy, bind_eq_ok, pure_eq_ok] at h
  obtain ⟨r, hr, rfl⟩ := h
  exact mul_nonneg hr

theorem paidFor_nonneg {toCover toPay : Int} (h : c.paidFor matchPrice toCover = .ok toPay) : 0 ≤ toPay := by
  simp only [paidFor, bind_eq_ok, pure_eq_ok] at h
  obtain ⟨r, hr, rfl⟩ := h
  exact multiplyAndRoundUp_nonneg hr

/-- A mean that does not lie between the bounds is replaced by the upper one. -/
theorem inside_cases {m : Cover}
    (h : (if m.toPay ≤ lo.toPay ∨ m.toCover ≤ lo.toCover ∨ m.toPay > hi.toPay ∨ m.toCover > hi.toCover then hi else m) = x) :
    x = hi ∨ (x = m ∧ lo.toPay < x.toPay ∧ lo.toCover < x.toCover ∧ x.toPay ≤ hi.toPay) := by
  subst h
  split
  · exact .inl rfl
  · exact .inr ⟨rfl, by omega, by omega, by omega⟩

/-! ### The searches end -/

@[simp] theorem halts_coveredBy {toPay : Int} : Halts (c.coveredBy matchPrice toPay) := by simp [coveredBy]

@[simp] theorem halts_paidFor {toCover : Int} : Halts (c.paidFor matchPrice toCover) := by simp [paidFor]

@[simp] theorem halts_mean : Halts (c.mean matchPrice lo hi) := by simp [mean]

@[simp] theorem halts_upperCover {amount : Int} : Halts (c.upperCover matchPrice amount) := by simp [upperCover]

theorem halts_isGood (hc : c.Fits) (htcr : tcr < 2 ^ 16) (hpay : 0 ≤ x.toPay) (hpay' : x.toPay < c.collateral)
    (hcover : 0 ≤ x.toCover) (hcover' : x.toCover < c.debt) : Halts (c.isGood feedPrice tcr x) := by
  have hdebt := hc.debt
  have hcoll := hc.collateral
  have hprice : Halts (Market.callPrice ⟨c.debt - x.toCover, c.debtType⟩ ⟨c.collateral - x.toPay, c.collateralType⟩ tcr) :=
    halts_callPrice (by dsimp only; omega) (by dsimp only; omega) (by dsimp only; omega) (by dsimp only; omega) htcr
  simp [isGood, hprice]

/-- Each round of the binary search moves one of the bounds to what lies between them. -/
theorem halts_binarySearch {maxIsOk : Bool} (hc : c.Fits) (htcr : tcr < 2 ^ 16) (hlo : 0 ≤ lo.toPay) (hlo' : 0 ≤ lo.toCover)
    (hhi : 0 ≤ hi.toCover) (hlt : lo.toPay < hi.toPay) (hfuel : hi.toPay - lo.toPay ≤ fuel) :
    Halts (c.binarySearch matchPrice feedPrice tcr fuel lo hi maxIsOk) := by
  induction fuel generalizing lo hi maxIsOk with
  | zero => omega
  | succ fuel ih =>
    rw [binarySearch]
    refine never_bind.mpr ⟨halts_mean, fun m _ => ?_⟩
    generalize hx : (if m.toPay ≤ lo.toPay ∨ m.toCover ≤ lo.toCover ∨ m.toPay > hi.toPay ∨ m.toCover > hi.toCover then hi
      else m) = x
    have hbetween := inside_cases hx
    have hpay : lo.toPay < x.toPay := by
      rcases hbetween with rfl | ⟨-, h, -⟩
      · exact hlt
      · exact h
    have hcover : 0 ≤ x.toCover := by
      rcases hbetween with rfl | ⟨-, -, h, -⟩
      · exact hhi
      · omega
    refine never_ite.mpr ⟨fun _ => never_ok, fun _ => never_bind.mpr ⟨by simp, fun _ hless => ?_⟩⟩
    rw [fcAssert_eq_ok] at hless
    refine never_bind.mpr ⟨halts_isGood hc htcr (by omega) hless.1 hcover hless.2, fun good _ => ?_⟩
    refine never_ite.mpr ⟨fun _ => never_ite.mpr ⟨fun _ => never_pure, fun hne => ?_⟩,
      fun _ => never_ite.mpr ⟨fun _ => never_pure, fun hne => ?_⟩⟩
    · rcases hbetween with rfl | ⟨-, -, -, hle⟩
      · exact absurd rfl hne
      · exact ih hlo hlo' hcover hpay (by omega)
    · rcases hbetween with rfl | ⟨-, -, -, hle⟩
      · exact absurd rfl hne
      · exact ih (by omega) hcover hhi (by omega) (by omega)

/-- The steps of the forward search grow until one of them leaves the order. -/
theorem halts_searchForward {d₂ d₃ : Int} (hc : c.Fits) (htcr : tcr < 2 ^ 16) (hpay : 0 ≤ x.toPay) (hcover : 0 ≤ x.toCover)
    (h₂ : 0 < d₂) (h₃ : 0 < d₃) (hfuel : (c.debt + c.collateral - d₂).toNat + (c.debt + c.collateral - d₃).toNat < fuel)
    (hdebt : 0 < c.debt) (hcoll : 0 < c.collateral) : Halts (c.searchForward matchPrice feedPrice tcr fuel d₂ d₃ x) := by
  induction fuel generalizing d₂ d₃ x with
  | zero => omega
  | succ fuel ih =>
    rw [searchForward]
    refine never_ite.mpr ⟨fun _ => never_ite.mpr ⟨fun _ => never_ok, fun hless => ?_⟩,
      fun _ => never_ite.mpr ⟨fun _ => never_ok, fun hless => ?_⟩⟩
    · refine never_bind.mpr ⟨halts_coveredBy, fun toCover htoCover => never_ite.mpr ⟨fun _ => never_pure, fun hcover' => ?_⟩⟩
      refine never_bind.mpr ⟨halts_paidFor, fun toPay htoPay => never_ite.mpr ⟨fun _ => never_pure, fun hpay' => ?_⟩⟩
      have htoCover' := coveredBy_nonneg htoCover
      have htoPay' := paidFor_nonneg htoPay
      refine never_bind.mpr ⟨halts_isGood hc htcr htoPay' (by dsimp only; omega) htoCover' (by dsimp only; omega), fun good _ => ?_⟩
      exact never_ite.mpr ⟨fun _ => never_pure, fun _ => ih htoPay' htoCover' h₃ (by omega) (by omega)⟩
    · refine never_bind.mpr ⟨halts_paidFor, fun toPay htoPay => never_ite.mpr ⟨fun _ => never_pure, fun hpay' => ?_⟩⟩
      refine never_bind.mpr ⟨halts_coveredBy, fun toCover htoCover => never_ite.mpr ⟨fun _ => never_pure, fun hcover' => ?_⟩⟩
      have htoCover' := coveredBy_nonneg htoCover
      have htoPay' := paidFor_nonneg htoPay
      refine never_bind.mpr ⟨halts_isGood hc htcr htoPay' (by dsimp only; omega) htoCover' (by dsimp only; omega), fun good _ => ?_⟩
      exact never_ite.mpr ⟨fun _ => never_pure, fun _ => ih htoPay' htoCover' h₃ (by omega) (by omega)⟩

/-! ### What the searches find -/

/-- What is paid is worth what it covers at the match price. -/
def Cover.Worth (p : Price) (x : Cover) : Prop := x.toCover * p.base.amount ≤ x.toPay * p.quote.amount

/-- The match price is one of the collateral per debt. -/
structure Quotes (c : CallOrder) (p : Price) : Prop where
  valid : p.Valid
  base : p.base.assetId = c.collateralType
  quote : p.quote.assetId = c.debtType

theorem coveredBy_worth {toPay : Int} (h : c.coveredBy matchPrice toPay = .ok covered) (hp : c.Quotes matchPrice) (hpay : 0 ≤ toPay) :
    covered * matchPrice.base.amount ≤ toPay * matchPrice.quote.amount ∧
      toPay * matchPrice.quote.amount < (covered + 1) * matchPrice.base.amount := by
  simp only [coveredBy, bind_eq_ok, pure_eq_ok] at h
  obtain ⟨r, hr, rfl⟩ := h
  exact (mul_of_base hr hp.base.symm hpay hp.valid.quote_pos.le).2.2

theorem paidFor_worth {toCover toPay : Int} (h : c.paidFor matchPrice toCover = .ok toPay) (hp : c.Quotes matchPrice)
    (hcover : 0 ≤ toCover) : toCover * matchPrice.base.amount ≤ toPay * matchPrice.quote.amount := by
  simp only [paidFor, bind_eq_ok, pure_eq_ok] at h
  obtain ⟨r, hr, rfl⟩ := h
  exact (roundUp_of_quote hr hp.quote.symm hp.valid.assets hcover hp.valid.base_pos.le).2

theorem mean_worth (h : c.mean matchPrice lo hi = .ok x) (hp : c.Quotes matchPrice) : x = hi ∨ Cover.Worth matchPrice x := by
  unfold mean at h
  split at h
  · split at h
    · exact .inl (Except.ok.inj h).symm
    · obtain ⟨toCover, hcovered, h⟩ := bind_eq_ok.mp h
      split at h
      · exact .inl (pure_eq_ok.mp h).symm
      · simp only [bind_eq_ok, fcAssert_eq_ok, pure_eq_ok] at h
        obtain ⟨toPay, hpaid, -, -, rfl⟩ := h
        exact .inr (paidFor_worth hpaid hp (coveredBy_nonneg hcovered))
  · split at h
    · exact .inl (Except.ok.inj h).symm
    · obtain ⟨toPay, hpaid, h⟩ := bind_eq_ok.mp h
      split at h
      · exact .inl (pure_eq_ok.mp h).symm
      · obtain ⟨toCover, hcovered, h⟩ := bind_eq_ok.mp h
        split at h
        · exact .inl (pure_eq_ok.mp h).symm
        · obtain rfl := pure_eq_ok.mp h
          exact .inr (coveredBy_worth hcovered hp (paidFor_nonneg hpaid)).1

/-- The binary search finds something to cover, and what it hands on is worth what it covers. -/
theorem binarySearch_pos {maxIsOk : Bool} {r : Int ⊕ Cover}
    (h : c.binarySearch matchPrice feedPrice tcr fuel lo hi maxIsOk = .ok r) (hp : c.Quotes matchPrice) (hlo : 0 ≤ lo.toCover)
    (hlo' : 0 ≤ lo.toPay) (hlt : lo.toPay < hi.toPay) (hhi : 0 < hi.toCover)
    (hworth : hi.toPay = c.collateral ∨ Cover.Worth matchPrice hi) :
    0 < r.elim (·) Cover.toCover ∧ ∀ x, r = .inr x → 0 ≤ x.toPay ∧ Cover.Worth matchPrice x := by
  induction fuel generalizing lo hi maxIsOk with
  | zero => exact (throw_ne_ok.mp h).elim
  | succ fuel ih =>
    simp only [binarySearch, bind_eq_ok] at h
    obtain ⟨m, hm, h⟩ := h
    generalize hx : (if m.toPay ≤ lo.toPay ∨ m.toCover ≤ lo.toCover ∨ m.toPay > hi.toPay ∨ m.toCover > hi.toCover then hi
      else m) = x at h
    have hbetween := inside_cases hx
    have hkept : x = hi ∨ Cover.Worth matchPrice x := by
      rcases hbetween with rfl | ⟨rfl, -⟩
      · exact .inl rfl
      · exact mean_worth hm hp
    have hpay : lo.toPay < x.toPay := by
      rcases hbetween with rfl | ⟨-, h, -⟩
      · exact hlt
      · exact h
    have hcover : 0 < x.toCover := by
      rcases hbetween with rfl | ⟨-, -, h, -⟩
      · exact hhi
      · omega
    split at h
    · obtain rfl := pure_eq_ok.mp h
      exact ⟨hcover, by simp⟩
    · rename_i hmax
      simp only [bind_eq_ok] at h
      obtain ⟨-, -, good, -, h⟩ := h
      cases good with
      | true =>
        simp only [if_true] at h
        split at h
        · obtain rfl := pure_eq_ok.mp h
          exact ⟨hcover, by simp⟩
        · rename_i hne
          exact ih h hlo hlo' hpay hcover (.inr (hkept.resolve_left fun heq => hne (heq ▸ rfl)))
      | false =>
        simp only [Bool.false_eq_true, if_false] at h
        split at h
        · rename_i heq
          obtain rfl := pure_eq_ok.mp h
          refine ⟨hcover, fun y hy => ?_⟩
          cases hy
          refine ⟨by omega, ?_⟩
          rcases hkept with rfl | hkept
          · exact hworth.resolve_left fun hall => hmax ⟨rfl, .inr hall⟩
          · exact hkept
        · rename_i hne
          rcases hbetween with rfl | ⟨-, -, -, hle⟩
          · exact absurd rfl hne
          · exact ih h hcover.le (by omega) (by omega) hhi hworth

theorem searchForward_pos {d₂ d₃ : Int} (h : c.searchForward matchPrice feedPrice tcr fuel d₂ d₃ x = .ok covered)
    (hp : c.Quotes matchPrice) (hdebt : 0 < c.debt) (h₂ : 0 < d₂) (h₃ : 0 < d₃) (hpay : 0 ≤ x.toPay) (hcover : 0 < x.toCover)
    (hworth : Cover.Worth matchPrice x) : 0 < covered := by
  induction fuel generalizing d₂ d₃ x with
  | zero => exact (throw_ne_ok.mp h).elim
  | succ fuel ih =>
    have hbase := hp.valid.base_pos
    have hquote := hp.valid.quote_pos
    rw [searchForward] at h
    split at h
    · split at h
      · exact Except.ok.inj h ▸ hdebt
      · obtain ⟨toCover, htoCover, h⟩ := bind_eq_ok.mp h
        split at h
        · exact pure_eq_ok.mp h ▸ hdebt
        · obtain ⟨toPay, htoPay, h⟩ := bind_eq_ok.mp h
          split at h
          · exact pure_eq_ok.mp h ▸ hdebt
          · obtain ⟨good, -, h⟩ := bind_eq_ok.mp h
            -- more is paid than before, and so no less is covered
            have hmore : 0 < toCover := by
              have hless := (coveredBy_worth htoCover hp (by omega)).2
              rw [Cover.Worth] at hworth
              by_contra hnone
              nlinarith
            split at h
            · exact pure_eq_ok.mp h ▸ hmore
            · exact ih h h₃ (by omega) (paidFor_nonneg htoPay) hmore (paidFor_worth htoPay hp hmore.le)
    · split at h
      · exact Except.ok.inj h ▸ hdebt
      · obtain ⟨toPay, htoPay, h⟩ := bind_eq_ok.mp h
        split at h
        · exact pure_eq_ok.mp h ▸ hdebt
        · obtain ⟨toCover, htoCover, h⟩ := bind_eq_ok.mp h
          split at h
          · exact pure_eq_ok.mp h ▸ hdebt
          · obtain ⟨good, -, h⟩ := bind_eq_ok.mp h
            have hmore : 0 < toCover := by
              have hpaid := paidFor_worth htoPay hp (by omega)
              have hless := (coveredBy_worth htoCover hp (paidFor_nonneg htoPay)).2
              by_contra hnone
              nlinarith
            split at h
            · exact pure_eq_ok.mp h ▸ hmore
            · exact ih h h₃ (by omega) (paidFor_nonneg htoPay) hmore (coveredBy_worth htoCover hp (paidFor_nonneg htoPay)).1

/-- The bounds of a search: something above what was tried, and all of the order or worth what it covers -/
structure Bounds (c : CallOrder) (matchPrice : Price) (lo hi : Cover) : Prop where
  toPay_nonneg : 0 ≤ lo.toPay
  toCover_nonneg : 0 ≤ lo.toCover
  toPay_lt : lo.toPay < hi.toPay
  toCover_lt : lo.toCover < hi.toCover
  toPay_le : hi.toPay ≤ c.collateral
  worth : hi.toPay = c.collateral ∨ Cover.Worth matchPrice hi

theorem halts_search (hc : c.Fits) (htcr : tcr < 2 ^ 16) (hp : c.Quotes matchPrice) (hdebt : 0 < c.debt) (hcoll : 0 < c.collateral)
    (hb : c.Bounds matchPrice lo hi) (hfuel : 2 ^ 65 ≤ fuel) : Halts (c.search matchPrice feedPrice fuel tcr lo hi) := by
  have hcover := hb.toCover_nonneg.trans_lt hb.toCover_lt
  have hcoll' := hc.collateral
  have hdebt' := hc.debt
  have hle := hb.toPay_le
  have hnonneg := hb.toPay_nonneg
  refine never_bind.mpr ⟨halts_binarySearch hc htcr hnonneg hb.toCover_nonneg hcover.le hb.toPay_lt (by omega), fun r hr => ?_⟩
  obtain ⟨hpos, hinr⟩ := binarySearch_pos hr hp hb.toCover_nonneg hnonneg hb.toPay_lt hcover hb.worth
  cases r with
  | inl toCover => exact never_pure
  | inr x => exact halts_searchForward hc htcr (hinr x rfl).1 hpos.le Int.one_pos Int.one_pos (by omega) hdebt hcoll

theorem search_pos (h : c.search matchPrice feedPrice fuel tcr lo hi = .ok covered) (hp : c.Quotes matchPrice) (hdebt : 0 < c.debt)
    (hb : c.Bounds matchPrice lo hi) : 0 < covered := by
  simp only [search, bind_eq_ok] at h
  obtain ⟨r, hr, h⟩ := h
  obtain ⟨hpos, hinr⟩ := binarySearch_pos hr hp hb.toCover_nonneg hb.toPay_nonneg hb.toPay_lt
    (hb.toCover_nonneg.trans_lt hb.toCover_lt) hb.worth
  cases r with
  | inl toCover => exact pure_eq_ok.mp h ▸ hpos
  | inr x => exact searchForward_pos h hp hdebt Int.one_pos Int.one_pos (hinr x rfl).1 hpos (hinr x rfl).2

theorem upperCover_bounds {amount : Int} (h : c.upperCover matchPrice amount = .ok hi) (hp : c.Quotes matchPrice)
    (hcoll : 0 < c.collateral) : hi.toPay ≤ c.collateral ∧ (hi.toPay = c.collateral ∨ Cover.Worth matchPrice hi) := by
  simp only [upperCover, bind_eq_ok, pure_eq_ok] at h
  obtain ⟨paid, hpaid, covered, hcovered, rfl⟩ := h
  split
  · exact ⟨le_refl _, .inl rfl⟩
  · refine ⟨min_le_right _ _, ?_⟩
    split at hcovered
    · rename_i hall
      exact .inl hall
    · refine .inr (coveredBy_worth hcovered hp (le_min ?_ hcoll.le)).1
      split at hpaid
      · exact Except.ok.inj hpaid ▸ hcoll.le
      · exact paidFor_nonneg hpaid

/-! ### The target -/

/-- The numerator of what has to be covered to get to the target ratio, the fraction left out -/
def numerator (c : CallOrder) (matchPrice feedPrice : Price) (tcr : Nat) : Int :=
  feedPrice.base.amount * matchPrice.quote.amount * c.debt * tcr -
    feedPrice.quote.amount * matchPrice.quote.amount * c.collateral * collateralRatioDenom

def denominator (matchPrice feedPrice : Price) (tcr : Nat) : Int :=
  feedPrice.base.amount * matchPrice.quote.amount * tcr - feedPrice.quote.amount * matchPrice.base.amount * collateralRatioDenom

/-- The order has the target ratio at the feed price, or it has it when its call price is rounded and what is missing is worth
    nothing. -/
def AtTarget (c : CallOrder) (matchPrice feedPrice : Price) (tcr : Nat) : Prop :=
  c.numerator matchPrice feedPrice tcr < 0 ∨
    (0 ≤ c.numerator matchPrice feedPrice tcr ∧ 0 < denominator matchPrice feedPrice tcr ∧
      c.numerator matchPrice feedPrice tcr / denominator matchPrice feedPrice tcr < c.debt ∧
      c.numerator matchPrice feedPrice tcr / denominator matchPrice feedPrice tcr * matchPrice.base.amount /
        matchPrice.quote.amount * matchPrice.quote.amount < matchPrice.base.amount ∧
      c.isGood feedPrice tcr ⟨0, 0⟩ = .ok true)

/-- An order at its target is not called, and any other one is called for something. -/
theorem coverToTarget_cases (h : c.coverToTarget matchPrice feedPrice fuel tcr = .ok covered) (hp : c.Quotes matchPrice)
    (hdebt : 0 < c.debt) (hcoll : 0 < c.collateral) :
    (c.AtTarget matchPrice feedPrice tcr ∧ covered = 0) ∨ (¬c.AtTarget matchPrice feedPrice tcr ∧ 0 < covered) := by
  have hbase := hp.valid.base_pos
  have hquote := hp.valid.quote_pos
  simp only [coverToTarget, ← numerator.eq_1, ← denominator.eq_1] at h
  rw [AtTarget]
  generalize c.numerator matchPrice feedPrice tcr = n at *
  generalize denominator matchPrice feedPrice tcr = den at *
  split at h
  · rename_i hneg
    exact .inl ⟨.inl hneg, (pure_eq_ok.mp h).symm⟩
  · rename_i hnonneg
    rw [not_lt] at hnonneg
    have hall : ∀ {q : Prop}, c.debt = covered → ¬q → (q ∧ covered = 0) ∨ (¬q ∧ 0 < covered) :=
      fun heq hq => .inr ⟨hq, heq ▸ hdebt⟩
    split at h
    · exact hall (pure_eq_ok.mp h) (by omega)
    · rename_i hden'
      split at h
      · exact hall (pure_eq_ok.mp h) (by omega)
      · rename_i hless
        have hguess : 0 ≤ n / den := Int.ediv_nonneg hnonneg (by omega)
        simp only [bind_eq_ok] at h
        obtain ⟨toPay, htoPay, toCover, htoCover, toPay', htoPay', h⟩ := h
        obtain ⟨hid, hpay, hpaid, hpaid'⟩ := mul_of_quote htoPay hp.quote.symm hp.valid.assets hguess hbase.le
        obtain ⟨-, hcover, hcovered, hcovered'⟩ := mul_of_base htoCover hid hpay hquote.le
        have hfloor : n / den * matchPrice.base.amount / matchPrice.quote.amount = toPay.amount :=
          le_antisymm (Int.lt_add_one_iff.mp (Int.ediv_lt_of_lt_mul hquote hpaid')) (Int.le_ediv_of_mul_le hquote hpaid)
        rw [hfloor]
        have hzero : toCover.amount = 0 ↔ toPay.amount * matchPrice.quote.amount < matchPrice.base.amount := by
          refine ⟨fun hnone => by simpa [hnone] using hcovered', fun hlt => ?_⟩
          by_contra hne
          have := le_mul_of_one_le_left hbase.le (by omega : 1 ≤ toCover.amount)
          omega
        split at h
        · rename_i hmost
          refine hall (pure_eq_ok.mp h) fun hq => ?_
          have hnone := hzero.mpr (hq.resolve_left (by omega)).2.2.2.1
          have hnone' := roundUp_of_zero htoPay' hnone
          omega
        · rename_i hmost
          obtain ⟨good, hgood, h⟩ := bind_eq_ok.mp h
          cases good with
          | true =>
            obtain rfl := pure_eq_ok.mp h
            by_cases hnone : toCover.amount = 0
            · have hnone' := roundUp_of_zero htoPay' hnone
              rw [hnone, hnone'] at hgood
              exact .inl ⟨.inr ⟨hnonneg, by omega, by omega, hzero.mp hnone, hgood⟩, hnone⟩
            · refine .inr ⟨?_, by omega⟩
              rintro (hq | ⟨-, -, -, hq, -⟩)
              · omega
              · exact hnone (hzero.mpr hq)
          | false =>
            obtain ⟨hi, hhi, h⟩ := bind_eq_ok.mp h
            have hpos : 0 < covered := by
              split at h
              · exact pure_eq_ok.mp h ▸ hdebt
              · rename_i hmore
                obtain ⟨hle, hworth⟩ := upperCover_bounds hhi hp hcoll
                exact search_pos h hp hdebt
                  ⟨multiplyAndRoundUp_nonneg htoPay', hcover, by dsimp only; omega, by dsimp only; omega, hle, hworth⟩
            refine .inr ⟨?_, hpos⟩
            rintro (hq | ⟨-, -, -, hq, hgood'⟩)
            · omega
            · have hnone := hzero.mpr hq
              rw [hnone, roundUp_of_zero htoPay' hnone, hgood'] at hgood
              cases hgood

theorem halts_coverToTarget (hc : c.Fits) (htcr : tcr < 2 ^ 16) (hp : c.Quotes matchPrice) (hdebt : 0 < c.debt)
    (hcoll : 0 < c.collateral) (hfuel : 2 ^ 65 ≤ fuel) : Halts (c.coverToTarget matchPrice feedPrice fuel tcr) := by
  unfold coverToTarget
  refine never_ite.mpr ⟨fun _ => never_pure, fun _ => never_ite.mpr ⟨fun _ => never_pure, fun _ => never_ite.mpr
    ⟨fun _ => never_pure, fun _ => never_bind.mpr ⟨halts_mul, fun toPay _ => never_bind.mpr ⟨halts_mul, fun toCover htoCover =>
      never_bind.mpr ⟨halts_multiplyAndRoundUp, fun toPay' htoPay' => never_ite.mpr ⟨fun _ => never_pure, fun hmost => ?_⟩⟩⟩⟩⟩⟩⟩
  have hcover := mul_nonneg htoCover
  have hpay := multiplyAndRoundUp_nonneg htoPay'
  rw [not_or, not_le, not_le] at hmost
  refine never_bind.mpr ⟨halts_isGood hc htcr hpay hmost.2 hcover hmost.1, fun good _ => never_ite.mpr ⟨fun _ => never_pure,
    fun _ => never_bind.mpr ⟨halts_upperCover, fun hi hhi => never_ite.mpr ⟨fun _ => never_pure, fun hmore => ?_⟩⟩⟩⟩
  obtain ⟨hle, hworth⟩ := upperCover_bounds hhi hp hcoll
  rw [not_or, not_le, not_le] at hmore
  exact halts_search hc htcr hp hdebt hcoll ⟨hpay, hcover, hmore.1, hmore.2, hle, hworth⟩ hfuel

/-- The order has a target, and it is there. -/
def Reached (c : CallOrder) (matchPrice feedPrice : Price) (mcr : Nat) : Prop :=
  ∃ target ∈ c.targetCollateralRatio, c.AtTarget (c.inCollateral matchPrice) (c.inCollateral feedPrice) (max target mcr)

theorem inCollateral_quotes (hp : matchPrice.Valid)
    (h : (c.inCollateral matchPrice).base.assetId = c.collateralType ∧ (c.inCollateral matchPrice).quote.assetId = c.debtType) :
    c.Quotes (c.inCollateral matchPrice) := by
  refine ⟨?_, h.1, h.2⟩
  unfold inCollateral
  split
  · exact hp.inv
  · exact hp

theorem halts_getMaxDebtToCover {mcr : Nat} (hc : c.Fits) (hmcr : mcr < 2 ^ 16) (hp : matchPrice.Valid) (hdebt : 0 < c.debt)
    (hcoll : 0 < c.collateral) (hfuel : 2 ^ 65 ≤ fuel) : Halts (c.getMaxDebtToCover matchPrice feedPrice fuel mcr) := by
  unfold getMaxDebtToCover
  refine never_bind.mpr ⟨by simp, fun _ _ => never_ite.mpr ⟨fun _ => never_pure, fun _ => ?_⟩⟩
  split
  · exact never_pure
  · rename_i target htarget
    refine never_bind.mpr ⟨by simp, fun _ hassets => ?_⟩
    rw [fcAssert_eq_ok] at hassets
    exact halts_coverToTarget hc (max_lt (hc.target target htarget) hmcr) (inCollateral_quotes hp hassets) hdebt hcoll hfuel

/-- A call order that the feed calls is called for nothing if and only if it is at its target. -/
theorem getMaxDebtToCover_cases {mcr : Nat} (h : c.getMaxDebtToCover matchPrice feedPrice fuel mcr = .ok covered)
    (hp : matchPrice.Valid) (hdebt : 0 < c.debt) (hcoll : 0 < c.collateral)
    (hcalled : ¬c.callPrice.gt (c.inCollateral feedPrice)) :
    (c.Reached matchPrice feedPrice mcr ∧ covered = 0) ∨ (¬c.Reached matchPrice feedPrice mcr ∧ 0 < covered) := by
  simp only [getMaxDebtToCover, bind_eq_ok] at h
  obtain ⟨-, -, h⟩ := h
  rw [if_neg hcalled] at h
  split at h
  · rename_i hnone
    exact .inr ⟨by simp [Reached, hnone], pure_eq_ok.mp h ▸ hdebt⟩
  · rename_i target htarget
    obtain ⟨_, hassets, h⟩ := bind_eq_ok.mp h
    rw [fcAssert_eq_ok] at hassets
    simpa [Reached, htarget] using coverToTarget_cases h (inCollateral_quotes hp hassets) hdebt hcoll

theorem getMaxDebtToCover_nonneg {mcr : Nat} (h : c.getMaxDebtToCover matchPrice feedPrice fuel mcr = .ok covered)
    (hp : matchPrice.Valid) (hdebt : 0 < c.debt) (hcoll : 0 < c.collateral) : 0 ≤ covered := by
  by_cases hcalled : c.callPrice.gt (c.inCollateral feedPrice)
  · simp only [getMaxDebtToCover, bind_eq_ok] at h
    obtain ⟨-, -, h⟩ := h
    rw [if_pos hcalled] at h
    exact (pure_eq_ok.mp h).le
  · exact (getMaxDebtToCover_cases h hp hdebt hcoll hcalled).elim (fun hnone => hnone.2.ge) fun hsome => hsome.2.le

end CallOrder

end Khc.Market
