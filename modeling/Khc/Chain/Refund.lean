import Khc.Chain.WellFormed

/-! When a refund is accepted: its loops neither overflow nor run out of escrow. -/

namespace Khc.Chain

open Lib Database

namespace RefundInvestment
variable {d d' : Database} {o : RefundInvestmentOperation} {objs : List Khc.Chain.AssetInvestment} {a : AssetObject}
  {khd : AssetId}

theorem amountOf_cons (r : Khc.Chain.AssetInvestment) (objs : List Khc.Chain.AssetInvestment) :
    amountOf (r :: objs) = r.investmentKhdAmount.amount + amountOf objs := by
  simp [amountOf]

theorem amountOf_nonneg {l : List Khc.Chain.AssetInvestment} (h : ∀ r ∈ l, 0 ≤ r.investmentKhdAmount.amount) :
    0 ≤ amountOf l := by
  refine List.sum_nonneg fun n hn => ?_
  obtain ⟨r, hr, rfl⟩ := List.mem_map.mp hn
  exact h r hr

/-- The loop over the investments of the account does not overflow. -/
theorem scan_ok (asset : AssetId) {s : Scan} (h : ∀ r ∈ objs, 0 ≤ r.investmentKhdAmount.amount)
    (hs : 0 ≤ s.totalInvestment) (hmax : s.totalInvestment + amountOf (objs.filter (refundable asset)) ≤ maxInt64) :
    ∃ s', objs.foldlM (scan asset) s = .ok s' := by
  induction objs generalizing s with
  | nil => exact ⟨s, rfl⟩
  | cons r objs ih =>
    have hr := h r List.mem_cons_self
    have hrest := fun r' hr' => h r' (List.mem_cons_of_mem _ hr')
    have htail := amountOf_nonneg (l := objs.filter (refundable asset)) fun r' hr' =>
      hrest r' (List.mem_filter.mp hr').1
    rw [List.foldlM_cons]
    by_cases hsel : refundable asset r = true
    · rw [List.filter_cons_of_pos hsel, amountOf_cons] at hmax
      have hsel' : r.investmentAssetId = asset ∧ r.returnFinancingFlag = false := by simpa [refundable] using hsel
      have hint : InInt64 (s.totalInvestment + r.investmentKhdAmount.amount) := by
        rw [InInt64]
        simp only [maxInt64] at hmax
        omega
      have hstep : scan asset s r = .ok { s with
          totalInvestment := s.totalInvestment + r.investmentKhdAmount.amount
          investmentObjects := s.investmentObjects ++ [r] } := by
        simp only [scan, hsel', and_self, Bool.false_eq_true, not_false_eq_true, if_true, safe, if_pos hint]
        rfl
      rw [hstep]
      exact ih hrest (by simp only; omega) (by simp only; omega)
    · rw [List.filter_cons_of_neg hsel] at hmax
      have hsel' : ¬(r.investmentAssetId = asset ∧ ¬r.returnFinancingFlag = true) := by
        simpa [refundable] using hsel
      unfold scan
      rw [if_neg hsel']
      split
      · exact ih hrest hs hmax
      · exact ih hrest hs hmax

/-- A refund that meets the checks of the source is admitted. -/
theorem doEvaluate_ok (h : Admitted d o a) (hnonneg : ∀ r ∈ d.investments, 0 ≤ r.investmentKhdAmount.amount)
    (hmax : a.dynamicData.financingCurrentSupply ≤ maxInt64) :
    doEvaluate d o = .ok (refundables d o.accountId o.investmentAssetId) := by
  have hmine : ∀ r ∈ d.investmentsByAccount o.accountId, 0 ≤ r.investmentKhdAmount.amount :=
    fun r hr => hnonneg r (List.mem_filter.mp hr).1
  have hcov := h.covered
  obtain ⟨s, hscan⟩ := scan_ok o.investmentAssetId (s := {}) hmine (le_refl _)
    (by simp only [zero_add]; exact hcov.trans hmax)
  obtain ⟨hobjs, htotal⟩ := scan_inv hscan
  simp only [List.nil_append, zero_add] at hobjs htotal
  have hpo := isPublicOffering_eq_ok.mpr ⟨h.project, h.publicOffering⟩
  have htotal' : s.totalInvestment = amountOf (refundables d o.accountId o.investmentAssetId) := htotal
  have howed : 0 ≤ amountOf (refundables d o.accountId o.investmentAssetId) :=
    amountOf_nonneg fun r hr => hmine r (List.mem_filter.mp hr).1
  have hleft : InInt64 (a.dynamicData.financingCurrentSupply - s.totalInvestment) := by
    rw [InInt64, htotal']
    simp only [maxInt64] at hmax
    omega
  have hcovered : a.dynamicData.financingCurrentSupply - s.totalInvestment ≥ 0 := by omega
  have hany : refundables d o.accountId o.investmentAssetId ≠ [] := h.any
  have hfound : s.investmentObjects = refundables d o.accountId o.investmentAssetId := hobjs
  unfold doEvaluate
  simp only [getAsset_eq_ok.mpr h.asset, hpo, h.failed, hscan, safe, if_pos hleft, fcAssert, if_pos hcovered,
    hfound, if_pos hany, bind, Except.bind, if_true, pure, Except.pure, ite_self]

/-- One round of the loop pays an investment out. -/
theorem refundOne_ok {r : Khc.Chain.AssetInvestment} (ha : d.assets[o.investmentAssetId]? = some a)
    (hcurrent : InInt64 (a.dynamicData.financingCurrentSupply - r.investmentKhdAmount.amount))
    (hr : 0 ≤ r.investmentKhdAmount.amount)
    (hpaid : InInt64 (d.balances o.accountId r.investmentKhdAmount.assetId + r.investmentKhdAmount.amount)) :
    refundOne o d r = .ok (((d.modifyDynamic o.investmentAssetId fun data =>
      { data with
        financingCurrentSupply := a.dynamicData.financingCurrentSupply - r.investmentKhdAmount.amount }).credit
          o.accountId r.investmentKhdAmount).modifyInvestment r.id fun s => { s with returnFinancingFlag := true }) := by
  simp only [refundOne, bind_eq_ok, getAsset_eq_ok, safe_eq_ok, pure_eq_ok, adjustBalance_eq_ok]
  exact ⟨a, ha, _, ⟨hcurrent, rfl⟩, _, ⟨fun hneg => absurd hneg (not_lt.mpr hr), fun _ => hpaid, rfl⟩, rfl⟩

/-- The loop over the investments pays each of them out. -/
theorem doApply_ok (ha : d.assets[o.investmentAssetId]? = some a)
    (hkhd : ∀ r ∈ objs, r.investmentKhdAmount.assetId = khd) (hnonneg : ∀ r ∈ objs, 0 ≤ r.investmentKhdAmount.amount)
    (hcov : amountOf objs ≤ a.dynamicData.financingCurrentSupply)
    (hmax : a.dynamicData.financingCurrentSupply ≤ maxInt64) (hbal : 0 ≤ d.balances o.accountId khd)
    (hroom : d.balances o.accountId khd + amountOf objs ≤ maxInt64) : ∃ d', doApply d o objs = .ok d' := by
  unfold doApply
  induction objs generalizing d a with
  | nil => exact ⟨d, rfl⟩
  | cons r objs ih =>
    have hr := hnonneg r List.mem_cons_self
    obtain rfl := hkhd r List.mem_cons_self
    have hrest := amountOf_nonneg fun r' hr' => hnonneg r' (List.mem_cons_of_mem r hr')
    rw [amountOf_cons] at hcov hroom
    have hcurrent : InInt64 (a.dynamicData.financingCurrentSupply - r.investmentKhdAmount.amount) := by
      rw [InInt64]
      simp only [maxInt64] at hmax
      omega
    have hpaid : InInt64 (d.balances o.accountId r.investmentKhdAmount.assetId + r.investmentKhdAmount.amount) := by
      rw [InInt64]
      simp only [maxInt64] at hroom
      omega
    rw [List.foldlM_cons, refundOne_ok ha hcurrent hr hpaid]
    refine ih (a := refundedAsset r.investmentKhdAmount.amount a) ?_
      (fun r' hr' => hkhd r' (List.mem_cons_of_mem _ hr')) (fun r' hr' => hnonneg r' (List.mem_cons_of_mem _ hr'))
      ?_ ?_ ?_ ?_
    · simp only [modifyInvestment_assets, credit_assets, modifyDynamic, modifyAsset_self, ha]
      rfl
    · simp only [refundedAsset]
      omega
    · simp only [refundedAsset]
      omega
    · simp only [modifyInvestment_balances, credit_balances, modifyDynamic, modifyAsset_balances, and_self, if_true]
      omega
    · simp only [modifyInvestment_balances, credit_balances, modifyDynamic, modifyAsset_balances, and_self, if_true]
      omega

end RefundInvestment

end Khc.Chain
