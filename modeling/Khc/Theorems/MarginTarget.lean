import Khc.Market.Exchange
import Khc.Market.Target

/-! How far a margin call goes when the order has a target: the search fails only when an amount does not fit, and what it finds
    brings the order to its target. -/

namespace Khc.Market

open Lib
open Chain (Asset Price maxShareSupply)

theorem shrink_only {half : Int → Int} {n : Nat} {cp : ℚ} : Only .outOfFuel (shrink half n cp) := by
  induction n generalizing cp with
  | zero => exact only_throw
  | succ n ih =>
    rw [shrink]
    exact only_ite (fun _ => ih) fun _ => only_ok

theorem callPrice_only {debt collateral : Asset} {ratio : Nat} (hcoll : collateral.amount ≠ 0)
    (hassets : debt.assetId ≠ collateral.assetId) : Only .outOfFuel (callPrice debt collateral ratio) := by
  unfold callPrice mkPrice
  refine only_bind (only_of_ok ⟨(), fcAssert_eq_ok.mpr hcoll⟩) fun _ _ => only_bind shrink_only fun cp _ => ?_
  exact only_bind (only_bind (only_of_ok ⟨(), fcAssert_eq_ok.mpr hassets⟩) fun _ _ => only_pure) fun _ _ => only_pure

namespace CallOrder
variable {c : CallOrder} {matchPrice feedPrice : Price} {fuel tcr : Nat} {lo hi x : Cover} {pay cover covered : Int}

/-- An order at a match price below what its collateral is worth; nothing that the search comes across exceeds the greatest share
    supply. -/
structure Searched (c : CallOrder) (p : Price) : Prop where
  quotes : c.Quotes p
  debt_pos : 0 < c.debt
  collateral_pos : 0 < c.collateral
  debt_le : c.debt ≤ maxShareSupply
  collateral_le : c.collateral ≤ maxShareSupply
  solvent : c.debt * p.base.amount ≤ c.collateral * p.quote.amount
  fits : c.collateral * p.quote.amount < (maxShareSupply + 1) * p.base.amount

/-- A cover that leaves a part of the order, with the least payment for it -/
structure Leaves (c : CallOrder) (p : Price) (x : Cover) : Prop where
  paid : c.paidFor p x.toCover = .ok x.toPay
  toPay_lt : x.toPay < c.collateral
  toCover_lt : x.toCover < c.debt
  toCover_nonneg : 0 ≤ x.toCover

/-! ### The search does not fail -/

theorem Searched.coveredBy (h : c.Searched matchPrice) (hpos : 0 ≤ pay) (hle : pay ≤ c.collateral) :
    ∃ r, c.coveredBy matchPrice pay = .ok r := by
  have hquote := h.quotes.valid.quote_pos
  obtain ⟨r, hr⟩ := (sides_base h.quotes.valid).mul_total (x := ⟨pay, c.collateralType⟩) h.quotes.base.symm hpos
    (lt_of_le_of_lt (Int.mul_le_mul_of_nonneg_right hle hquote.le) h.fits)
  exact ⟨r.amount, by rw [CallOrder.coveredBy, hr, ok_bind]; rfl⟩

theorem Searched.paidFor (h : c.Searched matchPrice) (hpos : 0 ≤ cover)
    (hle : cover * matchPrice.base.amount ≤ c.collateral * matchPrice.quote.amount) : ∃ r, c.paidFor matchPrice cover = .ok r := by
  obtain ⟨r, hr⟩ := (sides_base h.quotes.valid).roundUp_total (x := ⟨cover, c.debtType⟩) h.quotes.quote.symm hpos hle h.collateral_le
  exact ⟨r.amount, by rw [CallOrder.paidFor, hr, ok_bind]; rfl⟩

theorem Searched.paidFor_of_le (h : c.Searched matchPrice) (hpos : 0 ≤ cover) (hle : cover ≤ c.debt) :
    ∃ r, c.paidFor matchPrice cover = .ok r :=
  h.paidFor hpos ((Int.mul_le_mul_of_nonneg_right hle h.quotes.valid.base_pos.le).trans h.solvent)

theorem paidFor_le {m : Int} (h : c.paidFor matchPrice cover = .ok pay) (hp : c.Quotes matchPrice) (hpos : 0 ≤ cover)
    (hle : cover * matchPrice.base.amount ≤ m * matchPrice.quote.amount) : pay ≤ m := by
  simp only [CallOrder.paidFor, bind_eq_ok, pure_eq_ok] at h
  obtain ⟨r, hr, rfl⟩ := h
  exact (sides_base hp.valid).roundUp_le (x := ⟨cover, c.debtType⟩) hp.quote.symm hpos hr hle

/-- What is paid for some debt is the least payment for all debt that it covers. -/
theorem paidFor_stable (hpaid : c.paidFor matchPrice cover = .ok pay) (hcovered : c.coveredBy matchPrice pay = .ok covered)
    (hp : c.Quotes matchPrice) : c.paidFor matchPrice covered = .ok pay := by
  simp only [CallOrder.paidFor, CallOrder.coveredBy, bind_eq_ok, pure_eq_ok] at hpaid hcovered
  obtain ⟨b, hb, rfl⟩ := hpaid
  obtain ⟨r, hr, rfl⟩ := hcovered
  have hsides := sides_base hp.valid
  have hbasset : b.assetId = c.collateralType := by
    rw [hsides.up ⟨cover, c.debtType⟩ hp.quote.symm] at hb
    exact (convert_eq_ok hb).2.1.trans hp.base
  have hrasset : r.assetId = c.debtType := by
    rw [hsides.down ⟨b.amount, c.collateralType⟩ hp.base.symm] at hr
    exact (convert_eq_ok hr).2.1.trans hp.quote
  rw [← hbasset] at hr
  have hstable := hsides.stable (a := ⟨cover, c.debtType⟩) hp.quote.symm hb hr
  rw [CallOrder.paidFor, ← hrasset, hstable, ok_bind]
  rfl

theorem Searched.isGood (h : c.Searched matchPrice) (hpay : x.toPay < c.collateral) : Only .outOfFuel (c.isGood feedPrice tcr x) := by
  have hassets : c.debtType ≠ c.collateralType := by
    rw [← h.quotes.base, ← h.quotes.quote]
    exact h.quotes.valid.assets.symm
  have hcoll : c.collateral - x.toPay ≠ 0 := by omega
  exact only_bind (callPrice_only hcoll hassets) fun _ _ => only_pure

theorem mean_spec (h : c.mean matchPrice lo hi = .ok x) (hp : c.Quotes matchPrice) :
    x = hi ∨ (c.paidFor matchPrice x.toCover = .ok x.toPay ∧ 0 ≤ x.toCover ∧ x.toPay < hi.toPay ∧ x.toCover < hi.toCover) := by
  unfold mean at h
  split at h
  · split at h
    · exact .inl (Except.ok.inj h).symm
    · obtain ⟨toCover, hcovered, h⟩ := bind_eq_ok.mp h
      split at h
      · exact .inl (pure_eq_ok.mp h).symm
      · rename_i hless
        simp only [bind_eq_ok, fcAssert_eq_ok, pure_eq_ok] at h
        obtain ⟨toPay, hpaid, -, hpay, rfl⟩ := h
        exact .inr ⟨hpaid, coveredBy_nonneg hcovered, hpay, not_le.mp hless⟩
  · split at h
    · exact .inl (Except.ok.inj h).symm
    · obtain ⟨toPay, hpaid, h⟩ := bind_eq_ok.mp h
      split at h
      · exact .inl (pure_eq_ok.mp h).symm
      · rename_i hpay
        obtain ⟨toCover, hcovered, h⟩ := bind_eq_ok.mp h
        split at h
        · exact .inl (pure_eq_ok.mp h).symm
        · rename_i hless
          obtain rfl := pure_eq_ok.mp h
          exact .inr ⟨paidFor_stable hpaid hcovered hp, coveredBy_nonneg hcovered, not_le.mp hpay, not_le.mp hless⟩

theorem Searched.mean (h : c.Searched matchPrice) (hlo : 0 ≤ lo.toPay) (hlo' : 0 ≤ lo.toCover) (hlt : lo.toPay < hi.toPay)
    (hlt' : lo.toCover < hi.toCover) (hpay : hi.toPay ≤ c.collateral) (hcover : hi.toCover ≤ c.debt) :
    ∃ m, c.mean matchPrice lo hi = .ok m := by
  have hbase := h.quotes.valid.base_pos
  unfold CallOrder.mean
  split
  · split
    · exact ⟨hi, rfl⟩
    · rename_i hne
      have hpos : 0 ≤ (lo.toPay + hi.toPay + 1) / 2 := by omega
      obtain ⟨toCover, hcovered⟩ := h.coveredBy hpos (by omega)
      rw [hcovered, ok_bind]
      split
      · exact ⟨hi, rfl⟩
      · have hworth := (coveredBy_worth hcovered h.quotes (by omega)).1
        have hnonneg := coveredBy_nonneg hcovered
        have hall : (lo.toPay + hi.toPay + 1) / 2 * matchPrice.quote.amount ≤ c.collateral * matchPrice.quote.amount :=
          Int.mul_le_mul_of_nonneg_right (by omega) h.quotes.valid.quote_pos.le
        obtain ⟨toPay, hpaid⟩ := h.paidFor hnonneg (hworth.trans hall)
        have hle := paidFor_le hpaid h.quotes hnonneg hworth
        have hless : fcAssert (toPay < hi.toPay) .maxDebtToCover = .ok () := fcAssert_eq_ok.mpr (by omega)
        exact ⟨⟨toPay, toCover⟩, by rw [hpaid, ok_bind, hless, ok_bind]; rfl⟩
  · split
    · exact ⟨hi, rfl⟩
    · have hpos : 0 ≤ (lo.toCover + hi.toCover) / 2 := by omega
      obtain ⟨toPay, hpaid⟩ := h.paidFor_of_le hpos (by omega)
      rw [hpaid, ok_bind]
      split
      · exact ⟨hi, rfl⟩
      · obtain ⟨toCover, hcovered⟩ := h.coveredBy (paidFor_nonneg hpaid) (by omega)
        rw [hcovered, ok_bind]
        split
        · exact ⟨hi, rfl⟩
        · exact ⟨⟨toPay, toCover⟩, rfl⟩

/-- What the search lies between: a cover from which the order does not reach its target, and a greater one, which is all of the order
    or leaves a part of it -/
structure Window (c : CallOrder) (p : Price) (lo hi : Cover) : Prop where
  toPay_nonneg : 0 ≤ lo.toPay
  toCover_nonneg : 0 ≤ lo.toCover
  toPay_lt : lo.toPay < hi.toPay
  toCover_lt : lo.toCover < hi.toCover
  all : hi = ⟨c.collateral, c.debt⟩ ∨ c.Leaves p hi

namespace Window

theorem toPay_le (h : c.Window matchPrice lo hi) : hi.toPay ≤ c.collateral := by
  rcases h.all with rfl | hleaves
  · exact le_refl _
  · exact hleaves.toPay_lt.le

theorem toCover_le (h : c.Window matchPrice lo hi) : hi.toCover ≤ c.debt := by
  rcases h.all with rfl | hleaves
  · exact le_refl _
  · exact hleaves.toCover_lt.le

/-- The next cover that is tried is the upper bound, or it lies between the bounds and leaves a part of the order. -/
theorem next {m : Cover} (h : c.Window matchPrice lo hi) (hp : c.Quotes matchPrice) (hm : c.mean matchPrice lo hi = .ok m)
    (hx : (if m.toPay ≤ lo.toPay ∨ m.toCover ≤ lo.toCover ∨ m.toPay > hi.toPay ∨ m.toCover > hi.toCover then hi else m) = x) :
    x = hi ∨ (c.Leaves matchPrice x ∧ lo.toPay < x.toPay ∧ lo.toCover < x.toCover ∧ x.toPay < hi.toPay ∧ x.toCover < hi.toCover) := by
  rcases inside_cases hx with rfl | ⟨rfl, hpay, hcover, -⟩
  · exact .inl rfl
  · rcases mean_spec hm hp with rfl | ⟨hpaid, hnonneg, hpay', hcover'⟩
    · exact .inl rfl
    · have hle := h.toPay_le
      have hle' := h.toCover_le
      exact .inr ⟨⟨hpaid, by omega, by omega, hnonneg⟩, hpay, hcover, hpay', hcover'⟩

end Window

theorem Searched.binarySearch {maxIsOk : Bool} (h : c.Searched matchPrice) (hwindow : c.Window matchPrice lo hi) :
    Only .outOfFuel (c.binarySearch matchPrice feedPrice tcr fuel lo hi maxIsOk) := by
  induction fuel generalizing lo hi maxIsOk with
  | zero => exact only_throw
  | succ fuel ih =>
    rw [CallOrder.binarySearch]
    refine only_bind (only_of_ok (h.mean hwindow.toPay_nonneg hwindow.toCover_nonneg hwindow.toPay_lt hwindow.toCover_lt
      hwindow.toPay_le hwindow.toCover_le)) fun m hm => ?_
    generalize hx : (if m.toPay ≤ lo.toPay ∨ m.toCover ≤ lo.toCover ∨ m.toPay > hi.toPay ∨ m.toCover > hi.toCover then hi
      else m) = x
    have hnext := hwindow.next h.quotes hm hx
    refine only_ite (fun _ => only_pure) fun hgoes => ?_
    -- all of the order is found at once
    have hleaves : c.Leaves matchPrice x := by
      rcases hnext with rfl | ⟨hleaves, -⟩
      · rcases hwindow.all with rfl | hleaves
        · exact absurd ⟨rfl, .inr rfl⟩ hgoes
        · exact hleaves
      · exact hleaves
    have hnonneg := paidFor_nonneg hleaves.paid
    refine only_bind (only_of_ok ⟨(), fcAssert_eq_ok.mpr ⟨hleaves.toPay_lt, hleaves.toCover_lt⟩⟩) fun _ _ => ?_
    refine only_bind (h.isGood hleaves.toPay_lt) fun good _ => only_ite (fun _ => ?_) fun _ => ?_
    · refine only_ite (fun _ => only_pure) fun hne => ?_
      rcases hnext with rfl | ⟨-, hpay, hcover, -⟩
      · exact absurd rfl hne
      · exact ih ⟨hwindow.toPay_nonneg, hwindow.toCover_nonneg, hpay, hcover, .inr hleaves⟩
    · refine only_ite (fun _ => only_pure) fun hne => ?_
      rcases hnext with rfl | ⟨-, -, -, hpay, hcover⟩
      · exact absurd rfl hne
      · exact ih ⟨hnonneg, hleaves.toCover_nonneg, hpay, hcover, hwindow.all⟩

/-- A cover that brings the order above its target -/
def Reaches (c : CallOrder) (matchPrice feedPrice : Price) (tcr : Nat) (covered : Int) : Prop :=
  ∃ x, c.Leaves matchPrice x ∧ c.isGood feedPrice tcr x = .ok true ∧ x.toCover = covered

theorem binarySearch_finds {maxIsOk : Bool} {r : Int ⊕ Cover}
    (h : c.binarySearch matchPrice feedPrice tcr fuel lo hi maxIsOk = .ok r) (hp : c.Quotes matchPrice)
    (hwindow : c.Window matchPrice lo hi)
    (hmax : maxIsOk = true → c.Leaves matchPrice hi ∧ c.isGood feedPrice tcr hi = .ok true) :
    (∀ covered, r = .inl covered → covered = c.debt ∨ c.Reaches matchPrice feedPrice tcr covered) ∧
      ∀ x, r = .inr x → c.Leaves matchPrice x := by
  induction fuel generalizing lo hi maxIsOk with
  | zero => exact (throw_ne_ok.mp h).elim
  | succ fuel ih =>
    simp only [CallOrder.binarySearch, bind_eq_ok] at h
    obtain ⟨m, hm, h⟩ := h
    generalize hx : (if m.toPay ≤ lo.toPay ∨ m.toCover ≤ lo.toCover ∨ m.toPay > hi.toPay ∨ m.toCover > hi.toCover then hi
      else m) = x at h
    have hnext := hwindow.next hp hm hx
    split at h
    · rename_i hends
      obtain rfl := pure_eq_ok.mp h
      refine ⟨fun covered heq => ?_, by simp⟩
      obtain rfl := Sum.inl.inj heq
      rcases hnext with rfl | ⟨-, -, -, hpay, -⟩
      · rcases hends.2 with hgood | hall
        · exact .inr ⟨x, (hmax hgood).1, (hmax hgood).2, rfl⟩
        · rcases hwindow.all with rfl | hleaves
          · exact .inl rfl
          · exact absurd hall hleaves.toPay_lt.ne
      · exact absurd hends.1 hpay.ne
    · rename_i hgoes
      have hleaves : c.Leaves matchPrice x := by
        rcases hnext with rfl | ⟨hleaves, -⟩
        · rcases hwindow.all with rfl | hleaves
          · exact absurd ⟨rfl, .inr rfl⟩ hgoes
          · exact hleaves
        · exact hleaves
      have hnonneg := paidFor_nonneg hleaves.paid
      simp only [bind_eq_ok] at h
      obtain ⟨-, -, good, hgood, h⟩ := h
      cases good with
      | true =>
        simp only [if_true] at h
        split at h
        · obtain rfl := pure_eq_ok.mp h
          refine ⟨fun covered heq => ?_, by simp⟩
          exact .inr ⟨x, hleaves, hgood, Sum.inl.inj heq⟩
        · rename_i hne
          rcases hnext with rfl | ⟨-, hpay, hcover, -⟩
          · exact absurd rfl hne
          · exact ih h ⟨hwindow.toPay_nonneg, hwindow.toCover_nonneg, hpay, hcover, .inr hleaves⟩ fun _ => ⟨hleaves, hgood⟩
      | false =>
        simp only [Bool.false_eq_true, if_false] at h
        split at h
        · obtain rfl := pure_eq_ok.mp h
          refine ⟨by simp, fun y heq => ?_⟩
          obtain rfl := Sum.inr.inj heq
          exact hleaves
        · rename_i hne
          rcases hnext with rfl | ⟨-, -, -, hpay, hcover⟩
          · exact absurd rfl hne
          · exact ih h ⟨hnonneg, hleaves.toCover_nonneg, hpay, hcover, hwindow.all⟩ hmax

theorem Searched.searchForward {d₂ d₃ : Int} (h : c.Searched matchPrice) (h₂ : 0 < d₂) (h₃ : 0 < d₃) (hpay : 0 ≤ x.toPay)
    (hcover : 0 ≤ x.toCover) : Only .outOfFuel (c.searchForward matchPrice feedPrice tcr fuel d₂ d₃ x) := by
  induction fuel generalizing d₂ d₃ x with
  | zero => exact only_throw
  | succ fuel ih =>
    rw [CallOrder.searchForward]
    refine only_ite (fun _ => only_ite (fun _ => only_ok) fun hless => ?_) fun _ => only_ite (fun _ => only_ok) fun hless => ?_
    · -- the steps are of collateral
      refine only_bind (only_of_ok (h.coveredBy (by omega) (by omega))) fun toCover hcovered => only_ite (fun _ => only_pure) fun _ => ?_
      have hnonneg := coveredBy_nonneg hcovered
      have hall : (x.toPay + d₂) * matchPrice.quote.amount ≤ c.collateral * matchPrice.quote.amount :=
        Int.mul_le_mul_of_nonneg_right (by omega) h.quotes.valid.quote_pos.le
      refine only_bind (only_of_ok (h.paidFor hnonneg ((coveredBy_worth hcovered h.quotes (by omega)).1.trans hall))) fun toPay hpaid => ?_
      refine only_ite (fun _ => only_pure) fun hpay' => only_bind (h.isGood (not_le.mp hpay')) fun good _ => ?_
      exact only_ite (fun _ => only_pure) fun _ => ih h₃ (by omega) (paidFor_nonneg hpaid) hnonneg
    · -- the steps are of debt
      refine only_bind (only_of_ok (h.paidFor_of_le (by omega) (by omega))) fun toPay hpaid => only_ite (fun _ => only_pure) fun hpay' => ?_
      have hnonneg := paidFor_nonneg hpaid
      refine only_bind (only_of_ok (h.coveredBy hnonneg (by omega))) fun toCover hcovered => only_ite (fun _ => only_pure) fun _ => ?_
      refine only_bind (h.isGood (not_le.mp hpay')) fun good _ => ?_
      exact only_ite (fun _ => only_pure) fun _ => ih h₃ (by omega) hnonneg (coveredBy_nonneg hcovered)

theorem searchForward_finds {d₂ d₃ : Int} (h : c.searchForward matchPrice feedPrice tcr fuel d₂ d₃ x = .ok covered)
    (hp : c.Quotes matchPrice) : covered = c.debt ∨ c.Reaches matchPrice feedPrice tcr covered := by
  induction fuel generalizing d₂ d₃ x with
  | zero => exact (throw_ne_ok.mp h).elim
  | succ fuel ih =>
    rw [CallOrder.searchForward] at h
    split at h
    · split at h
      · exact .inl (Except.ok.inj h).symm
      · obtain ⟨toCover, hcovered, h⟩ := bind_eq_ok.mp h
        split at h
        · exact .inl (pure_eq_ok.mp h).symm
        · rename_i hcover
          obtain ⟨toPay, hpaid, h⟩ := bind_eq_ok.mp h
          split at h
          · exact .inl (pure_eq_ok.mp h).symm
          · rename_i hpay
            obtain ⟨good, hgood, h⟩ := bind_eq_ok.mp h
            split at h
            · rename_i htrue
              rw [htrue] at hgood
              exact .inr ⟨⟨toPay, toCover⟩, ⟨hpaid, not_le.mp hpay, not_le.mp hcover, coveredBy_nonneg hcovered⟩, hgood, pure_eq_ok.mp h⟩
            · exact ih h
    · split at h
      · exact .inl (Except.ok.inj h).symm
      · obtain ⟨toPay, hpaid, h⟩ := bind_eq_ok.mp h
        split at h
        · exact .inl (pure_eq_ok.mp h).symm
        · rename_i hpay
          obtain ⟨toCover, hcovered, h⟩ := bind_eq_ok.mp h
          split at h
          · exact .inl (pure_eq_ok.mp h).symm
          · rename_i hcover
            obtain ⟨good, hgood, h⟩ := bind_eq_ok.mp h
            split at h
            · rename_i htrue
              rw [htrue] at hgood
              have hleast := paidFor_stable hpaid hcovered hp
              exact .inr ⟨⟨toPay, toCover⟩, ⟨hleast, not_le.mp hpay, not_le.mp hcover, coveredBy_nonneg hcovered⟩, hgood, pure_eq_ok.mp h⟩
            · exact ih h

/-! ### The bounds of the search -/

theorem Searched.upperCover {amount : Int} (h : c.Searched matchPrice) (hpos : 0 ≤ amount) (hle : amount ≤ c.debt) :
    ∃ r, c.upperCover matchPrice amount = .ok r := by
  have hcoll := h.collateral_pos
  have hpaid : ∃ pay, 0 ≤ pay ∧ (if amount = c.debt then .ok c.collateral else c.paidFor matchPrice amount : Eval Int) = .ok pay := by
    split
    · exact ⟨c.collateral, hcoll.le, rfl⟩
    · obtain ⟨pay, hpaid⟩ := h.paidFor_of_le hpos hle
      exact ⟨pay, paidFor_nonneg hpaid, hpaid⟩
  obtain ⟨pay, hpay, hpaid⟩ := hpaid
  have hcovered : ∃ cover, (if min pay c.collateral = c.collateral then .ok c.debt
      else c.coveredBy matchPrice (min pay c.collateral) : Eval Int) = .ok cover := by
    split
    · exact ⟨c.debt, rfl⟩
    · exact h.coveredBy (by omega) (by omega)
  obtain ⟨cover, hcovered⟩ := hcovered
  exact ⟨if cover ≥ c.debt then ⟨c.collateral, c.debt⟩ else ⟨min pay c.collateral, cover⟩,
    by simp only [CallOrder.upperCover, hpaid, ok_bind, hcovered]; rfl⟩

theorem upperCover_spec {amount : Int} (h : c.upperCover matchPrice amount = .ok hi) (hp : c.Quotes matchPrice) :
    hi = ⟨c.collateral, c.debt⟩ ∨ c.Leaves matchPrice hi := by
  simp only [CallOrder.upperCover, bind_eq_ok, pure_eq_ok] at h
  obtain ⟨paid, hpaid, covered, hcovered, rfl⟩ := h
  split
  · exact .inl rfl
  · rename_i hless
    by_cases hall : min paid c.collateral = c.collateral
    · rw [if_pos hall] at hcovered
      exact absurd (Except.ok.inj hcovered).le hless
    · rw [if_neg hall] at hcovered
      have hpay : paid < c.collateral := by omega
      rw [min_eq_left hpay.le] at hcovered ⊢
      have hdebt : amount ≠ c.debt := by
        intro heq
        rw [if_pos heq] at hpaid
        exact hpay.ne (Except.ok.inj hpaid).symm
      rw [if_neg hdebt] at hpaid
      exact .inr ⟨paidFor_stable hpaid hcovered hp, hpay, not_le.mp hless, coveredBy_nonneg hcovered⟩

theorem search_finds (h : c.search matchPrice feedPrice fuel tcr lo hi = .ok covered) (hp : c.Quotes matchPrice)
    (hwindow : c.Window matchPrice lo hi) : covered = c.debt ∨ c.Reaches matchPrice feedPrice tcr covered := by
  simp only [search, bind_eq_ok] at h
  obtain ⟨r, hr, h⟩ := h
  obtain ⟨hfound, -⟩ := binarySearch_finds hr hp hwindow (by simp)
  cases r with
  | inl toCover => exact hfound covered (congrArg Sum.inl (pure_eq_ok.mp h))
  | inr x => exact searchForward_finds h hp

theorem Searched.search (h : c.Searched matchPrice) (hwindow : c.Window matchPrice lo hi) :
    Only .outOfFuel (c.search matchPrice feedPrice fuel tcr lo hi) := by
  refine only_bind (h.binarySearch hwindow) fun r hr => ?_
  obtain ⟨-, hrest⟩ := binarySearch_finds hr h.quotes hwindow (by simp)
  cases r with
  | inl toCover => exact only_pure
  | inr x =>
    have hleaves := hrest x rfl
    exact h.searchForward Int.one_pos Int.one_pos (paidFor_nonneg hleaves.paid) hleaves.toCover_nonneg

/-! ### The first guess -/

/-- The guess is below the debt only if the debt is worth less than the collateral at the match price. -/
theorem solvent_of_guess (hden : 0 < denominator matchPrice feedPrice tcr) (hfeed : 0 < feedPrice.quote.amount)
    (hguess : c.numerator matchPrice feedPrice tcr / denominator matchPrice feedPrice tcr < c.debt) :
    c.debt * matchPrice.base.amount ≤ c.collateral * matchPrice.quote.amount := by
  have hlt := (Int.ediv_lt_iff_lt_mul hden).mp hguess
  rw [numerator, denominator] at hlt
  have hscale : (0 : Int) < feedPrice.quote.amount * collateralRatioDenom := Int.mul_pos hfeed (by decide)
  refine Int.le_of_mul_le_mul_left ?_ hscale
  linarith

/-- The amounts of an order, and that nothing its collateral is worth at the match price exceeds the greatest share supply -/
structure Fitting (c : CallOrder) (p : Price) : Prop where
  debt_pos : 0 < c.debt
  collateral_pos : 0 < c.collateral
  debt_le : c.debt ≤ maxShareSupply
  collateral_le : c.collateral ≤ maxShareSupply
  fits : c.collateral * p.quote.amount < (maxShareSupply + 1) * p.base.amount

/-- The first guess, rounded to what it costs -/
theorem leaves_of_roundUp {toCover toPay : Asset} (h : multiplyAndRoundUp toCover matchPrice = .ok toPay)
    (hid : toCover.assetId = c.debtType) (hpay : toPay.amount < c.collateral) (hcover : toCover.amount < c.debt)
    (hnonneg : 0 ≤ toCover.amount) : c.Leaves matchPrice ⟨toPay.amount, toCover.amount⟩ where
  paid := by rw [CallOrder.paidFor, ← hid, h, ok_bind]; rfl
  toPay_lt := hpay
  toCover_lt := hcover
  toCover_nonneg := hnonneg

theorem coverToTarget_only (h : c.Fitting matchPrice) (hp : c.Quotes matchPrice) (hfeed : feedPrice.Valid) :
    Only .outOfFuel (c.coverToTarget matchPrice feedPrice fuel tcr) := by
  have hbase := hp.valid.base_pos
  have hquote := hp.valid.quote_pos
  simp only [coverToTarget, ← numerator.eq_1, ← denominator.eq_1]
  refine only_ite (fun _ => only_pure) fun hnum => only_ite (fun _ => only_pure) fun hden => only_ite (fun _ => only_pure) fun hguess => ?_
  rw [not_lt] at hnum
  rw [not_le] at hden hguess
  have hsearched : c.Searched matchPrice :=
    ⟨hp, h.debt_pos, h.collateral_pos, h.debt_le, h.collateral_le, solvent_of_guess hden hfeed.quote_pos hguess, h.fits⟩
  have hguess' : 0 ≤ c.numerator matchPrice feedPrice tcr / denominator matchPrice feedPrice tcr := Int.ediv_nonneg hnum hden.le
  have hworth : c.numerator matchPrice feedPrice tcr / denominator matchPrice feedPrice tcr * matchPrice.base.amount ≤
      c.collateral * matchPrice.quote.amount :=
    (Int.mul_le_mul_of_nonneg_right hguess.le hbase.le).trans hsearched.solvent
  have hfraction : 0 ≤ (c.numerator matchPrice feedPrice tcr + feedPrice.base.amount * matchPrice.quote.amount * tcr) /
      denominator matchPrice feedPrice tcr :=
    Int.ediv_nonneg (Int.add_nonneg hnum (Int.mul_nonneg (Int.mul_pos hfeed.base_pos hquote).le (Int.natCast_nonneg _))) hden.le
  generalize c.numerator matchPrice feedPrice tcr / denominator matchPrice feedPrice tcr = guess at *
  refine only_bind (only_of_ok ((sides_quote hp.valid).mul_total hp.quote.symm hguess' ?_)) fun toPay htoPay => ?_
  · have := Int.mul_le_mul_of_nonneg_right h.collateral_le hquote.le
    rw [Int.add_mul]
    dsimp only
    omega
  obtain ⟨hid, hpay, hpaid, -⟩ := mul_of_quote htoPay hp.quote.symm hp.valid.assets hguess' hbase.le
  have hpaid' : toPay.amount ≤ c.collateral := Int.le_of_mul_le_mul_right (hpaid.trans hworth) hquote
  refine only_bind (only_of_ok ((sides_base hp.valid).mul_total hid hpay ?_)) fun toCover htoCover => ?_
  · exact lt_of_le_of_lt (Int.mul_le_mul_of_nonneg_right hpaid' hquote.le) h.fits
  obtain ⟨hid', hcover, hcovered, -⟩ := mul_of_base htoCover hid hpay hquote.le
  refine only_bind (only_of_ok ((sides_base hp.valid).roundUp_total hid' hcover hcovered (hpaid'.trans h.collateral_le)))
    fun toPay' htoPay' => ?_
  refine only_ite (fun _ => only_pure) fun hless => ?_
  rw [not_or, not_le, not_le] at hless
  refine only_bind (hsearched.isGood hless.2) fun good _ => only_ite (fun _ => only_pure) fun _ => ?_
  have hdebt := h.debt_pos
  refine only_bind (only_of_ok (hsearched.upperCover (by omega) (min_le_right _ _))) fun hi hhi => only_ite (fun _ => only_pure) fun hmore => ?_
  rw [not_or, not_le, not_le] at hmore
  exact hsearched.search ⟨multiplyAndRoundUp_nonneg htoPay', hcover, hmore.1, hmore.2, upperCover_spec hhi hp⟩

/-- Nothing is covered of an order that is above its target. Else all of it is covered, or enough to bring it above its target. -/
theorem coverToTarget_finds (h : c.coverToTarget matchPrice feedPrice fuel tcr = .ok covered) (hp : c.Quotes matchPrice) :
    (c.numerator matchPrice feedPrice tcr < 0 ∧ covered = 0) ∨ covered = c.debt ∨ c.Reaches matchPrice feedPrice tcr covered := by
  simp only [coverToTarget, ← numerator.eq_1, ← denominator.eq_1] at h
  split at h
  · rename_i hnum
    exact .inl ⟨hnum, (pure_eq_ok.mp h).symm⟩
  · rename_i hnum
    rw [not_lt] at hnum
    refine .inr ?_
    split at h
    · exact .inl (pure_eq_ok.mp h).symm
    · rename_i hden
      split at h
      · exact .inl (pure_eq_ok.mp h).symm
      · have hguess : 0 ≤ c.numerator matchPrice feedPrice tcr / denominator matchPrice feedPrice tcr :=
          Int.ediv_nonneg hnum (not_le.mp hden).le
        obtain ⟨toPay, htoPay, h⟩ := bind_eq_ok.mp h
        obtain ⟨toCover, htoCover, h⟩ := bind_eq_ok.mp h
        obtain ⟨toPay', htoPay', h⟩ := bind_eq_ok.mp h
        obtain ⟨hid, hpay, -, -⟩ := mul_of_quote htoPay hp.quote.symm hp.valid.assets hguess hp.valid.base_pos.le
        obtain ⟨hid', hcover, -, -⟩ := mul_of_base htoCover hid hpay hp.valid.quote_pos.le
        split at h
        · exact .inl (pure_eq_ok.mp h).symm
        · rename_i hless
          rw [not_or, not_le, not_le] at hless
          obtain ⟨good, hgood, h⟩ := bind_eq_ok.mp h
          cases good with
          | true => exact .inr ⟨_, leaves_of_roundUp htoPay' (hid'.trans hp.quote) hless.2 hless.1 hcover, hgood, pure_eq_ok.mp h⟩
          | false =>
            obtain ⟨hi, hhi, h⟩ := bind_eq_ok.mp h
            split at h
            · exact .inl (pure_eq_ok.mp h).symm
            · rename_i hmore
              rw [not_or, not_le, not_le] at hmore
              exact search_finds h hp ⟨multiplyAndRoundUp_nonneg htoPay', hcover, hmore.1, hmore.2, upperCover_spec hhi hp⟩

/-! ### All of it -/

/-- The price is one of the order's two assets, in either direction. -/
structure Between (c : CallOrder) (p : Price) : Prop where
  valid : p.Valid
  assets : (p.base.assetId = c.collateralType ∧ p.quote.assetId = c.debtType) ∨
    (p.base.assetId = c.debtType ∧ p.quote.assetId = c.collateralType)

theorem Between.quotes {p : Price} (h : c.Between p) : c.Quotes (c.inCollateral p) := by
  unfold inCollateral
  rcases h.assets with ⟨hbase, hquote⟩ | ⟨hbase, hquote⟩
  · rw [if_neg (not_not.mpr hbase)]
    exact ⟨h.valid, hbase, hquote⟩
  · rw [if_pos fun hcoll => h.valid.assets (hcoll.trans hquote.symm)]
    exact ⟨h.valid.inv, hquote, hbase⟩

/-- The exact collateral ratio at the feed price is above the target. -/
def Above (c : CallOrder) (feedPrice : Price) (tcr : Nat) : Prop :=
  c.debt * tcr * feedPrice.base.amount < c.collateral * collateralRatioDenom * feedPrice.quote.amount

/-- The call price at the target ratio, as it is rounded, is above the feed price. -/
def CallsAbove (c : CallOrder) (feedPrice : Price) (tcr : Nat) : Prop :=
  ∃ p, Market.callPrice c.getDebt c.getCollateral tcr = .ok p ∧ p.gt feedPrice

/-- What is left of the order after a cover -/
def after (c : CallOrder) (x : Cover) : CallOrder := { c with debt := c.debt - x.toCover, collateral := c.collateral - x.toPay }

theorem above_of_numerator (h : c.numerator matchPrice feedPrice tcr < 0) (hquote : 0 < matchPrice.quote.amount) :
    c.Above feedPrice tcr := by
  rw [numerator] at h
  refine Int.lt_of_mul_lt_mul_left ?_ hquote.le
  linarith

theorem isGood_eq_true : c.isGood feedPrice tcr x = .ok true ↔ (c.after x).CallsAbove feedPrice tcr := by
  simp only [CallOrder.isGood, CallsAbove, bind_eq_ok, pure_eq_ok]
  rfl

theorem getMaxDebtToCover_only {mcr : Nat} (h : c.Fitting (c.inCollateral matchPrice)) (hmatch : c.Between matchPrice)
    (hfeed : c.Between feedPrice) : Only .outOfFuel (c.getMaxDebtToCover matchPrice feedPrice fuel mcr) := by
  have hfeed' := hfeed.quotes
  have hmatch' := hmatch.quotes
  unfold getMaxDebtToCover
  refine only_bind (only_of_ok ⟨(), fcAssert_eq_ok.mpr ⟨hfeed'.base, hfeed'.quote⟩⟩) fun _ _ => only_ite (fun _ => only_pure) fun _ => ?_
  split
  · exact only_pure
  · refine only_bind (only_of_ok ⟨(), fcAssert_eq_ok.mpr ⟨hmatch'.base, hmatch'.quote⟩⟩) fun _ _ => ?_
    exact coverToTarget_only h hmatch' hfeed'.valid

theorem getMaxDebtToCover_finds {mcr : Nat} (h : c.getMaxDebtToCover matchPrice feedPrice fuel mcr = .ok covered)
    (hmatch : c.Between matchPrice) : (c.callPrice.gt (c.inCollateral feedPrice) ∧ covered = 0) ∨ covered = c.debt ∨
      ∃ target ∈ c.targetCollateralRatio, (c.Above (c.inCollateral feedPrice) (max target mcr) ∧ covered = 0) ∨
        c.Reaches (c.inCollateral matchPrice) (c.inCollateral feedPrice) (max target mcr) covered := by
  simp only [getMaxDebtToCover, bind_eq_ok] at h
  obtain ⟨-, -, h⟩ := h
  split at h
  · rename_i hprotected
    exact .inl ⟨hprotected, (pure_eq_ok.mp h).symm⟩
  · refine .inr ?_
    split at h
    · exact .inl (pure_eq_ok.mp h).symm
    · rename_i target htarget
      obtain ⟨-, -, h⟩ := bind_eq_ok.mp h
      rcases coverToTarget_finds h hmatch.quotes with ⟨hnum, hnone⟩ | hall | hreaches
      · exact .inr ⟨target, htarget, .inl ⟨above_of_numerator hnum hmatch.quotes.valid.quote_pos, hnone⟩⟩
      · exact .inl hall
      · exact .inr ⟨target, htarget, .inr hreaches⟩

/-- A cover of nothing costs nothing. -/
theorem Leaves.toPay_eq_zero (h : c.Leaves matchPrice x) (hnone : x.toCover = 0) : x.toPay = 0 := by
  have hpaid := h.paid
  simp only [CallOrder.paidFor, bind_eq_ok, pure_eq_ok] at hpaid
  obtain ⟨r, hr, hamount⟩ := hpaid
  rw [← hamount]
  exact roundUp_of_zero hr hnone

/-- The search for what a margin call covers ends. It does not fail when what the collateral is worth at the match price does not
    exceed the greatest share supply. It finds nothing to cover only if the order is protected or above its target, as the call price
    is rounded, and a part only if what is left is above the target. -/
theorem getMaxDebtToCover_target {mcr : Nat} (hdebt : 0 < c.debt) (hdebt' : c.debt ≤ maxShareSupply) (hcoll : 0 < c.collateral)
    (hcoll' : c.collateral ≤ maxShareSupply) (htarget : ∀ t ∈ c.targetCollateralRatio, t < 2 ^ 16) (hmcr : mcr < 2 ^ 16)
    (hmatch : c.Between matchPrice) (hfeed : c.Between feedPrice) (hfuel : 2 ^ 65 ≤ fuel) :
    Halts (c.getMaxDebtToCover matchPrice feedPrice fuel mcr) ∧
    (c.collateral * (c.inCollateral matchPrice).quote.amount < (maxShareSupply + 1) * (c.inCollateral matchPrice).base.amount →
      ∃ r, c.getMaxDebtToCover matchPrice feedPrice fuel mcr = .ok r) ∧
    ∀ r, c.getMaxDebtToCover matchPrice feedPrice fuel mcr = .ok r → 0 ≤ r ∧ r ≤ c.debt ∧
      (r = 0 → c.callPrice.gt (c.inCollateral feedPrice) ∨ ∃ target ∈ c.targetCollateralRatio,
        c.Above (c.inCollateral feedPrice) (max target mcr) ∨ c.CallsAbove (c.inCollateral feedPrice) (max target mcr)) ∧
      (0 < r → r < c.debt → ∃ target ∈ c.targetCollateralRatio, ∃ toPay,
        multiplyAndRoundUp ⟨r, c.debtType⟩ (c.inCollateral matchPrice) = .ok toPay ∧ toPay.amount < c.collateral ∧
          (c.after ⟨toPay.amount, r⟩).CallsAbove (c.inCollateral feedPrice) (max target mcr)) := by
  have hconst : maxShareSupply < 2 ^ 63 := by decide
  have hhalts : Halts (c.getMaxDebtToCover matchPrice feedPrice fuel mcr) :=
    halts_getMaxDebtToCover ⟨by omega, by omega, htarget⟩ hmcr hmatch.valid hdebt hcoll hfuel
  refine ⟨hhalts, fun hfits => ?_, fun r hr => ?_⟩
  · exact hhalts.total (getMaxDebtToCover_only ⟨hdebt, hcoll, hdebt', hcoll', hfits⟩ hmatch hfeed)
  · have hle := getMaxDebtToCover_le hr hdebt.le
    have hnonneg := getMaxDebtToCover_nonneg hr hmatch.valid hdebt hcoll
    refine ⟨hnonneg, hle, fun hnone => ?_, fun hsome hpart => ?_⟩
    · rcases getMaxDebtToCover_finds hr hmatch with ⟨hprotected, -⟩ | hall | ⟨target, htarget', ⟨habove, -⟩ | ⟨x, hleaves, hgood, rfl⟩⟩
      · exact .inl hprotected
      · omega
      · exact .inr ⟨target, htarget', .inl habove⟩
      · refine .inr ⟨target, htarget', .inr ?_⟩
        have hafter := isGood_eq_true.mp hgood
        rw [after, hnone, hleaves.toPay_eq_zero hnone, sub_zero, sub_zero] at hafter
        exact hafter
    · rcases getMaxDebtToCover_finds hr hmatch with ⟨-, hnone⟩ | hall | ⟨target, htarget', ⟨-, hnone⟩ | ⟨x, hleaves, hgood, rfl⟩⟩
      · omega
      · omega
      · omega
      · have hpaid := hleaves.paid
        simp only [CallOrder.paidFor, bind_eq_ok, pure_eq_ok] at hpaid
        obtain ⟨toPay, htoPay, hamount⟩ := hpaid
        refine ⟨target, htarget', toPay, htoPay, hamount ▸ hleaves.toPay_lt, ?_⟩
        rw [hamount]
        exact isGood_eq_true.mp hgood

namespace Sample

def small : CallOrder := ⟨0, 0, 1750, 1000, ⟨⟨1, 0⟩, ⟨1, 1⟩⟩, some 2000⟩

/-- As much debt as there can be -/
def greatest : CallOrder := ⟨0, 0, 3, 1000000000000000000, ⟨⟨1, 0⟩, ⟨1000000000000000000, 1⟩⟩, some 2000⟩

/-- The call price at 200.1 percent is rounded to that of a debt of little more than a half. -/
def rounded : CallOrder := ⟨0, 0, 1, 400000000000000001, ⟨⟨1, 0⟩, ⟨800000000000000002, 1⟩⟩, some 2001⟩

end Sample

open Sample

/-- A part is covered, for a target of 200 percent at a feed price of one to one. -/
theorem getMaxDebtToCover_target_small :
    small.getMaxDebtToCover ⟨⟨11, 0⟩, ⟨10, 1⟩⟩ ⟨⟨1, 1⟩, ⟨1, 0⟩⟩ (2 ^ 65) 1750 = .ok 279 ∧
      ∃ target ∈ small.targetCollateralRatio, ∃ toPay, multiplyAndRoundUp ⟨279, 1⟩ ⟨⟨11, 0⟩, ⟨10, 1⟩⟩ = .ok toPay ∧
        toPay.amount < 1750 ∧ (small.after ⟨toPay.amount, 279⟩).CallsAbove ⟨⟨1, 0⟩, ⟨1, 1⟩⟩ (max target 1750) := by
  have hmatch : small.Between ⟨⟨11, 0⟩, ⟨10, 1⟩⟩ := ⟨by decide, by decide⟩
  have hfeed : small.Between ⟨⟨1, 1⟩, ⟨1, 0⟩⟩ := ⟨by decide, by decide⟩
  have hcovers : small.getMaxDebtToCover ⟨⟨11, 0⟩, ⟨10, 1⟩⟩ ⟨⟨1, 1⟩, ⟨1, 0⟩⟩ (2 ^ 65) 1750 = .ok 279 := by decide +kernel
  have hmcr : 1750 < 2 ^ 16 := by decide
  obtain ⟨-, -, hfound⟩ := getMaxDebtToCover_target (c := small) (by decide) (by decide) (by decide) (by decide) (by decide) hmcr hmatch
    hfeed (le_refl (2 ^ 65))
  exact ⟨hcovers, (hfound 279 hcovers).2.2.2 (by decide) (by decide)⟩

/-- The search fails on an amount above the greatest share supply. An order with a ratio of 197 percent at the feed price is not called
    to its target. -/
theorem getMaxDebtToCover_fails :
    greatest.getMaxDebtToCover ⟨⟨1, 0⟩, ⟨700000000000000000, 1⟩⟩ ⟨⟨1, 0⟩, ⟨215300000000000000, 1⟩⟩ (2 ^ 65) 1750 =
      .error .productTooLarge ∧
    rounded.getMaxDebtToCover ⟨⟨1, 0⟩, ⟨800000000000000000, 1⟩⟩ ⟨⟨1, 0⟩, ⟨790000000000000000, 1⟩⟩ (2 ^ 65) 2000 = .ok 0 ∧
    rounded.callPrice.gt ⟨⟨1, 0⟩, ⟨790000000000000000, 1⟩⟩ = false ∧ ¬rounded.Above ⟨⟨1, 0⟩, ⟨790000000000000000, 1⟩⟩ 2001 := by
  refine ⟨by decide +kernel, by decide +kernel, by decide, ?_⟩
  rw [Above]
  decide

end CallOrder

end Khc.Market
