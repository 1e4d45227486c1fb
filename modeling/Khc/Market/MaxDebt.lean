import Khc.Market.Objects

/-! How much debt of a call order a margin call covers (`market_object.cpp`). The loops are given the number of rounds
    they may take. -/

namespace Khc.Market

open Chain (Asset Price)

/-- An amount of collateral to pay and the amount of debt to cover with it -/
structure Cover where
  toPay : Int
  toCover : Int
  deriving DecidableEq, Repr

namespace CallOrder
variable (c : CallOrder) (matchPrice feedPrice : Price)

/-- `asset( to_pay ) * match_price` -/
def coveredBy (toPay : Int) : Eval Int := do return (← mul ⟨toPay, c.collateralType⟩ matchPrice).amount

/-- `asset( to_cover ).multiply_and_round_up( match_price )` -/
def paidFor (toCover : Int) : Eval Int := do return (← multiplyAndRoundUp ⟨toCover, c.debtType⟩ matchPrice).amount

/-- `new_call_price > feed_price` after the cover -/
def isGood (tcr : Nat) (x : Cover) : Eval Bool := do
  let newCallPrice ← Market.callPrice ⟨c.debt - x.toCover, c.debtType⟩ ⟨c.collateral - x.toPay, c.collateralType⟩ tcr
  return newCallPrice.gt feedPrice

/-- "get the mean" -/
def mean (lo hi : Cover) : Eval Cover :=
  if matchPrice.base.amount < matchPrice.quote.amount then
    -- step of collateral is smaller
    if (lo.toPay + hi.toPay + 1) / 2 = hi.toPay then .ok hi
    else do
      let toCover ← c.coveredBy matchPrice ((lo.toPay + hi.toPay + 1) / 2)
      if toCover ≥ hi.toCover then return hi
      let toPay ← c.paidFor matchPrice toCover
      fcAssert (toPay < hi.toPay) .maxDebtToCover
      return ⟨toPay, toCover⟩
  else
    -- step of debt is smaller or equal
    if (lo.toCover + hi.toCover) / 2 = hi.toCover then .ok hi
    else do
      let toPay ← c.paidFor matchPrice ((lo.toCover + hi.toCover) / 2)
      if toPay ≥ hi.toPay then return hi
      let toCover ← c.coveredBy matchPrice toPay
      if toCover ≥ hi.toCover then return hi
      return ⟨toPay, toCover⟩

/-- The binary search: the amount to return, or the cover to search forward from -/
def binarySearch (tcr : Nat) : Nat → Cover → Cover → Bool → Eval (Int ⊕ Cover)
  | 0, _, _, _ => throw .outOfFuel
  | fuel + 1, lo, hi, maxIsOk => do
    let m ← c.mean matchPrice lo hi
    let x := if m.toPay ≤ lo.toPay ∨ m.toCover ≤ lo.toCover ∨ m.toPay > hi.toPay ∨ m.toCover > hi.toCover then hi else m
    if x.toPay = hi.toPay ∧ (maxIsOk ∨ x.toPay = c.collateral) then return .inl x.toCover
    fcAssert (x.toPay < c.collateral ∧ x.toCover < c.debt) .maxDebtToCover
    let good ← c.isGood feedPrice tcr x
    if good then
      if x.toPay = hi.toPay then return .inl x.toCover
      binarySearch tcr fuel lo x true
    else
      if x.toPay = hi.toPay then return .inr x
      binarySearch tcr fuel x hi maxIsOk

/-- "search forward", in steps 1, 1, 2, 3, 5, 8 and so on -/
def searchForward (tcr : Nat) : Nat → Int → Int → Cover → Eval Int
  | 0, _, _, _ => throw .outOfFuel
  | fuel + 1, d₂, d₃, x =>
    if matchPrice.base.amount > matchPrice.quote.amount then
      -- step of debt is smaller
      if x.toPay + d₂ ≥ c.collateral then .ok c.debt
      else do
        let toCover ← c.coveredBy matchPrice (x.toPay + d₂)
        if toCover ≥ c.debt then return c.debt
        let toPay ← c.paidFor matchPrice toCover
        if toPay ≥ c.collateral then return c.debt
        let good ← c.isGood feedPrice tcr ⟨toPay, toCover⟩
        if good then return toCover
        searchForward tcr fuel d₃ (d₂ + d₃) ⟨toPay, toCover⟩
    else
      -- step of collateral is smaller or equal
      if x.toCover + d₂ ≥ c.debt then .ok c.debt
      else do
        let toPay ← c.paidFor matchPrice (x.toCover + d₂)
        if toPay ≥ c.collateral then return c.debt
        let toCover ← c.coveredBy matchPrice toPay
        if toCover ≥ c.debt then return c.debt
        let good ← c.isGood feedPrice tcr ⟨toPay, toCover⟩
        if good then return toCover
        searchForward tcr fuel d₃ (d₂ + d₃) ⟨toPay, toCover⟩

/-- The two searches, one after the other -/
def search (fuel tcr : Nat) (lo hi : Cover) : Eval Int := do
  match ← c.binarySearch matchPrice feedPrice tcr fuel lo hi false with
  | .inl toCover => return toCover
  | .inr x => c.searchForward matchPrice feedPrice tcr fuel 1 1 x

/-- The bounds of the search when the first guess is too small: "deal with the fraction" -/
def upperCover (toCoverAmt : Int) : Eval Cover := do
  let maxToPay ← (if toCoverAmt = c.debt then .ok c.collateral else c.paidFor matchPrice toCoverAmt)
  let maxToPay := min maxToPay c.collateral
  let maxToCover ← (if maxToPay = c.collateral then .ok c.debt else c.coveredBy matchPrice maxToPay)
  return if maxToCover ≥ c.debt then ⟨c.collateral, c.debt⟩ else ⟨maxToPay, maxToCover⟩

/-- The part of `get_max_debt_to_cover` for an order with a target collateral ratio; the prices are collateral per
    debt. -/
def coverToTarget (fuel tcr : Nat) : Eval Int := do
  let mpDebtAmt := matchPrice.quote.amount
  let mpCollAmt := matchPrice.base.amount
  let fpDebtAmt := feedPrice.quote.amount
  let fpCollAmt := feedPrice.base.amount
  let numerator := fpCollAmt * mpDebtAmt * c.debt * tcr - fpDebtAmt * mpDebtAmt * c.collateral * collateralRatioDenom
  if numerator < 0 then return 0
  let denominator := fpCollAmt * mpDebtAmt * tcr - fpDebtAmt * mpCollAmt * collateralRatioDenom
  if denominator ≤ 0 then return c.debt
  if numerator / denominator ≥ c.debt then return c.debt
  let toPay ← mul ⟨numerator / denominator, c.debtType⟩ matchPrice
  let toCover ← mul toPay matchPrice
  let toPay ← multiplyAndRoundUp toCover matchPrice
  let x : Cover := ⟨toPay.amount, toCover.amount⟩
  if x.toCover ≥ c.debt ∨ x.toPay ≥ c.collateral then return c.debt
  let good ← c.isGood feedPrice tcr x
  if good then return x.toCover
  let hi ← c.upperCover matchPrice
    (min ((numerator + fpCollAmt * mpDebtAmt * tcr) / denominator + 1) c.debt)
  if hi.toPay ≤ x.toPay ∨ hi.toCover ≤ x.toCover then return c.debt
  c.search matchPrice feedPrice fuel tcr x hi

/-- A price turned into one of collateral per debt -/
def inCollateral (p : Price) : Price := if p.base.assetId ≠ c.collateralType then p.inv else p

/-- `call_order_object::get_max_debt_to_cover` -/
def getMaxDebtToCover (fuel maintenanceCollateralRatio : Nat) : Eval Int := do
  let feedPrice := c.inCollateral feedPrice
  fcAssert (feedPrice.base.assetId = c.collateralType ∧ feedPrice.quote.assetId = c.debtType) .maxDebtToCover
  if c.callPrice.gt feedPrice then return 0
  match c.targetCollateralRatio with
  | none => return c.debt
  | some target =>
    let matchPrice := c.inCollateral matchPrice
    fcAssert (matchPrice.base.assetId = c.collateralType ∧ matchPrice.quote.assetId = c.debtType) .maxDebtToCover
    c.coverToTarget matchPrice feedPrice fuel (max target maintenanceCollateralRatio)

end CallOrder

end Khc.Market

/-! A margin call covers no more than what is owed. -/

namespace Khc.Market

open Lib
open Chain (Asset Price)

namespace CallOrder
variable {c : CallOrder} {matchPrice feedPrice : Price} {fuel tcr : Nat} {lo hi x : Cover} {covered : Int}

/-- What the binary search finds covers no more than its upper bound. -/
theorem binarySearch_le {maxIsOk : Bool} {r : Int ⊕ Cover}
    (h : c.binarySearch matchPrice feedPrice tcr fuel lo hi maxIsOk = .ok r) : r.elim (·) Cover.toCover ≤ hi.toCover := by
  induction fuel generalizing lo hi maxIsOk with
  | zero => exact (throw_ne_ok.mp h).elim
  | succ fuel ih =>
    simp only [binarySearch, bind_eq_ok] at h
    obtain ⟨m, -, h⟩ := h
    generalize hx : (if m.toPay ≤ lo.toPay ∨ m.toCover ≤ lo.toCover ∨ m.toPay > hi.toPay ∨ m.toCover > hi.toCover then hi
      else m) = x at h
    have hle : x.toCover ≤ hi.toCover := by
      rw [← hx]
      split
      · exact le_refl _
      · omega
    split at h
    · rw [← pure_eq_ok.mp h]
      exact hle
    · simp only [bind_eq_ok] at h
      obtain ⟨-, -, good, -, h⟩ := h
      cases good with
      | true =>
        simp only [if_true] at h
        split at h
        · rw [← pure_eq_ok.mp h]
          exact hle
        · exact (ih h).trans hle
      | false =>
        simp only [Bool.false_eq_true, if_false] at h
        split at h
        · rw [← pure_eq_ok.mp h]
          exact hle
        · exact ih h

theorem searchForward_le {d₂ d₃ : Int} (h : c.searchForward matchPrice feedPrice tcr fuel d₂ d₃ x = .ok covered) :
    covered ≤ c.debt := by
  induction fuel generalizing d₂ d₃ x with
  | zero => exact (throw_ne_ok.mp h).elim
  | succ fuel ih =>
    rw [searchForward] at h
    split at h
    · -- the steps are of collateral
      split at h
      · exact (Except.ok.inj h).ge
      · obtain ⟨toCover, -, h⟩ := bind_eq_ok.mp h
        split at h
        · exact (pure_eq_ok.mp h).ge
        · rename_i hless
          obtain ⟨toPay, -, h⟩ := bind_eq_ok.mp h
          split at h
          · exact (pure_eq_ok.mp h).ge
          · obtain ⟨good, -, h⟩ := bind_eq_ok.mp h
            split at h
            · rw [← pure_eq_ok.mp h]
              omega
            · exact ih h
    · -- the steps are of debt
      split at h
      · exact (Except.ok.inj h).ge
      · obtain ⟨toPay, -, h⟩ := bind_eq_ok.mp h
        split at h
        · exact (pure_eq_ok.mp h).ge
        · obtain ⟨toCover, -, h⟩ := bind_eq_ok.mp h
          split at h
          · exact (pure_eq_ok.mp h).ge
          · rename_i hless
            obtain ⟨good, -, h⟩ := bind_eq_ok.mp h
            split at h
            · rw [← pure_eq_ok.mp h]
              omega
            · exact ih h

theorem upperCover_le {amount : Int} (h : c.upperCover matchPrice amount = .ok x) : x.toCover ≤ c.debt := by
  simp only [upperCover, bind_eq_ok, pure_eq_ok] at h
  obtain ⟨maxToPay, -, maxToCover, -, rfl⟩ := h
  split
  · exact le_refl _
  · show maxToCover ≤ c.debt
    omega

theorem search_le (h : c.search matchPrice feedPrice fuel tcr lo hi = .ok covered) (hhi : hi.toCover ≤ c.debt) :
    covered ≤ c.debt := by
  simp only [search, bind_eq_ok] at h
  obtain ⟨r, hr, h⟩ := h
  have hle := binarySearch_le hr
  cases r with
  | inl toCover =>
    obtain rfl := pure_eq_ok.mp h
    exact hle.trans hhi
  | inr x => exact searchForward_le h

theorem coverToTarget_le (h : c.coverToTarget matchPrice feedPrice fuel tcr = .ok covered) (hdebt : 0 ≤ c.debt) :
    covered ≤ c.debt := by
  simp only [coverToTarget] at h
  split at h
  · rwa [← pure_eq_ok.mp h]
  · split at h
    · exact (pure_eq_ok.mp h).ge
    · split at h
      · exact (pure_eq_ok.mp h).ge
      · simp only [bind_eq_ok] at h
        obtain ⟨toPay, -, toCover, -, toPay', -, h⟩ := h
        split at h
        · exact (pure_eq_ok.mp h).ge
        · rename_i hless
          obtain ⟨good, -, h⟩ := bind_eq_ok.mp h
          split at h
          · rw [← pure_eq_ok.mp h]
            omega
          · obtain ⟨hi, hhi, h⟩ := bind_eq_ok.mp h
            split at h
            · exact (pure_eq_ok.mp h).ge
            · exact search_le h (upperCover_le hhi)

/-- A margin call never covers more than what is owed. -/
theorem getMaxDebtToCover_le {mcr : Nat} (h : c.getMaxDebtToCover matchPrice feedPrice fuel mcr = .ok covered)
    (hdebt : 0 ≤ c.debt) : covered ≤ c.debt := by
  simp only [getMaxDebtToCover, bind_eq_ok] at h
  obtain ⟨-, -, h⟩ := h
  split at h
  · rwa [← pure_eq_ok.mp h]
  · split at h
    · exact (pure_eq_ok.mp h).ge
    · obtain ⟨-, -, h⟩ := bind_eq_ok.mp h
      exact coverToTarget_le h hdebt

end CallOrder

end Khc.Market
