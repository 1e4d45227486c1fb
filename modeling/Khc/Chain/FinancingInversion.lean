import Khc.Chain.Inversion

/-! What the evaluators of the financing of a project check and do. -/

namespace Khc.Chain

open Lib Database

/-! ### asset_investment -/

namespace AssetInvestment
variable {d d' : Database} {now : Nat} {o : AssetInvestmentOperation} {u : Unit}

/-- The checks of an investment. -/
structure Admitted (d : Database) (o : AssetInvestmentOperation) (a : AssetObject) : Prop where
  asset : d.assets[o.investmentAssetId]? = some a
  khd : ∃ k, d.assets[o.amount.assetId]? = some k ∧ k.symbol = khdAssetSymbol
  positive : 0 < o.amount.amount
  covered : o.amount.amount ≤ d.balances o.accountId o.amount.assetId
  project : a.isProjectAsset = true
  publicOffering : a.projOptions.financingType = khcPublicOffering
  belowMax : a.dynamicData.financingCurrentSupply < a.projOptions.maxFinancingAmount
  started : a.projOptions.startFinancingBlockNum ≤ d.headBlockNumber
  notEnded : d.headBlockNumber ≤ a.projOptions.endFinancingBlockNum

theorem doEvaluate_inv (h : doEvaluate d o = .ok u) : ∃ a, Admitted d o a := by
  unfold doEvaluate at h
  simp only [bind_eq_ok, fcAssert_eq_ok, getAsset_eq_ok] at h
  obtain ⟨k, hk, -, hsym, -, -, -, hpos, -, -, a, ha, -, -, -, hbal, -, -, -, -, _, hpo, -, rfl, -, hmax, hwin⟩ := h
  obtain ⟨hproj, hpub⟩ := isPublicOffering_eq_ok.mp hpo
  exact ⟨a, ha, ⟨k, hk, hsym⟩, hpos, hbal, hproj, hpub, hmax, hwin.1, hwin.2⟩

/-- The KHD that an investment puts in: the last one is cut down to what is left to the maximum. -/
def investedAmount (asked : Int) (a : AssetObject) : Int :=
  if a.projOptions.maxFinancingAmount ≤ a.dynamicData.financingCurrentSupply + asked then
    a.projOptions.maxFinancingAmount - a.dynamicData.financingCurrentSupply
  else asked

/-- A project after an investment. -/
def investedAsset (head now : Nat) (asked : Int) (a : AssetObject) : AssetObject :=
  let advanceEnd := decide (a.projOptions.maxFinancingAmount ≤ a.dynamicData.financingCurrentSupply + asked)
  { a with
    projOptions := if advanceEnd then advancedEnd head now a.projOptions else a.projOptions
    dynamicData := { a.dynamicData with
      financingCurrentSupply := a.dynamicData.financingCurrentSupply + investedAmount asked a
      financingConfidentialSupply := a.dynamicData.financingConfidentialSupply + investedAmount asked a
      state := investedState advanceEnd a.dynamicData.state } }

/-- The state after an investment of `amount`. -/
def invested (d : Database) (now : Nat) (o : AssetInvestmentOperation) (amount : Int) : Database :=
  ((d.modifyAsset o.investmentAssetId (investedAsset d.headBlockNumber now o.amount.amount)).createInvestment
    (newInvestment d o amount)).credit o.accountId ⟨-amount, o.amount.assetId⟩

/-- Ending the offering, recording the investment and counting it, one after the other, as the source does. -/
theorem invested_eq {a : AssetObject} (ha : d.assets[o.investmentAssetId]? = some a) {b : Bool}
    (hadv : b =
      decide (a.projOptions.maxFinancingAmount ≤ a.dynamicData.financingCurrentSupply + o.amount.amount)) :
    ((((if b then
        d.modifyAsset o.investmentAssetId fun a =>
          { a with projOptions := advancedEnd d.headBlockNumber now a.projOptions }
      else d).createInvestment (newInvestment d o (investedAmount o.amount.amount a))).modifyDynamic o.investmentAssetId
        fun data => { data with
          financingCurrentSupply := a.dynamicData.financingCurrentSupply + investedAmount o.amount.amount a
          financingConfidentialSupply := a.dynamicData.financingConfidentialSupply + investedAmount o.amount.amount a
          state := investedState b data.state }).credit o.accountId
            ⟨-investedAmount o.amount.amount a, o.amount.assetId⟩) =
      invested d now o (investedAmount o.amount.amount a) := by
  simp only [invested]
  cases b with
  | true =>
    rw [modifyAsset_congr (f := investedAsset _ _ _) (g := _ ∘ _) ha ?_, ← modifyAsset_modifyAsset]
    · rfl
    · simp [investedAsset, ← hadv]
  | false =>
    rw [modifyAsset_congr (f := investedAsset _ _ _) ha ?_]
    · rfl
    · simp [investedAsset, ← hadv]

theorem doApply_inv (h : doApply d now o = .ok d') :
    ∃ a, d.assets[o.investmentAssetId]? = some a ∧
      InInt64 (a.dynamicData.financingConfidentialSupply + investedAmount o.amount.amount a) ∧
      (0 < investedAmount o.amount.amount a →
        investedAmount o.amount.amount a ≤ d.balances o.accountId o.amount.assetId) ∧
      d' = invested d now o (investedAmount o.amount.amount a) := by
  unfold doApply at h
  simp only [bind_eq_ok, safe_eq_ok, getAsset_eq_ok, ge_iff_le] at h
  obtain ⟨a, ha, asked, ⟨-, rfl⟩, h⟩ := h
  by_cases hadv : a.projOptions.maxFinancingAmount ≤ a.dynamicData.financingCurrentSupply + o.amount.amount
  · -- the offering ends with this investment
    simp only [hadv, decide_true, if_true, bind_eq_ok, safe_eq_ok, adjustBalance_eq_ok] at h
    obtain ⟨amount, ⟨-, hamount⟩, current, ⟨-, rfl⟩, confidential, ⟨hconf, rfl⟩, hbal, -, rfl⟩ := h
    obtain rfl : amount = investedAmount o.amount.amount a := by rw [investedAmount, if_pos hadv, hamount]
    refine ⟨a, ha, hconf, fun hpos => ?_, invested_eq ha (b := true) (by simp [hadv])⟩
    have hcov := hbal (by omega)
    rw [neg_neg] at hcov
    exact hcov
  · simp only [hadv, decide_false, Bool.false_eq_true, if_false, bind_eq_ok, pure_eq_ok, safe_eq_ok,
      adjustBalance_eq_ok] at h
    obtain ⟨amount, hamount, current, ⟨-, rfl⟩, confidential, ⟨hconf, rfl⟩, hbal, -, rfl⟩ := h
    obtain rfl : amount = investedAmount o.amount.amount a := by rw [investedAmount, if_neg hadv, hamount]
    refine ⟨a, ha, hconf, fun hpos => ?_, invested_eq ha (b := false) (by simp [hadv])⟩
    have hcov := hbal (by omega)
    rw [neg_neg] at hcov
    exact hcov

end AssetInvestment

/-! ### issue_asset_to_investors -/

namespace IssueAssetToInvestors
variable {d d' : Database} {o : IssueAssetToInvestorsOperation} {e : Evaluated}

/-- The loop gives each investment an amount, and its sum is the sum of the amounts. -/
theorem addShare_inv {total raised : Int} {objs : List Khc.Chain.AssetInvestment} {t t' : Totals}
    (h : objs.foldlM (addShare d total raised) t = .ok t') (ht : t.issueAmounts.sum = t.totalIssueTmp) :
    t'.issueAmounts.length = t.issueAmounts.length + objs.length ∧ t'.issueAmounts.sum = t'.totalIssueTmp := by
  induction objs generalizing t with
  | nil =>
    obtain rfl := pure_eq_ok.mp h
    exact ⟨rfl, ht⟩
  | cons obj objs ih =>
    rw [List.foldlM_cons, bind_eq_ok] at h
    obtain ⟨t₁, h₁, h⟩ := h
    simp only [addShare, bind_eq_ok, fcAssert_eq_ok, safe_eq_ok, pure_eq_ok] at h₁
    obtain ⟨-, -, -, -, -, -, -, ⟨-, rfl⟩, share, -, -, ⟨-, rfl⟩, rfl⟩ := h₁
    obtain ⟨hlen, hsum⟩ := ih h (by simp [ht])
    refine ⟨?_, hsum⟩
    rw [hlen, List.length_append, List.length_singleton, List.length_cons]
    omega

theorem addToLast_inv {amounts amounts' : List Int} {rest : Int} (h : addToLast amounts rest = .ok amounts') :
    amounts'.length = amounts.length ∧ amounts'.sum = amounts.sum + rest := by
  unfold addToLast at h
  split at h
  · simp at h
  · rename_i last hlast
    obtain ⟨xs, rfl⟩ := List.getLast?_eq_some_iff.mp hlast
    simp only [bind_eq_ok, safe_eq_ok, pure_eq_ok] at h
    obtain ⟨-, ⟨-, rfl⟩, rfl⟩ := h
    simp [add_assoc]

/-- The checks of an issue to the investors, and the amounts that it finds. -/
structure Admitted (d : Database) (o : IssueAssetToInvestorsOperation) (e : Evaluated) (a : AssetObject) : Prop where
  asset : d.assets[o.investmentAssetId]? = some a
  project : a.isProjectAsset = true
  publicOffering : a.projOptions.financingType = khcPublicOffering
  ended : a.dynamicData.state = .projectInProgress ∨ a.dynamicData.state = .projectEnd
  notClaimed : a.dynamicData.financingConfidentialSupply = a.dynamicData.financingCurrentSupply
  noSupply : a.dynamicData.currentSupply = 0
  objects : e.investmentObjects = d.investmentsByAsset o.investmentAssetId
  length : e.issueAmounts.length = (d.investmentsByAsset o.investmentAssetId).length
  sum : e.issueAmounts.sum = e.totalIssue
  nonneg : 0 ≤ e.totalIssue
  belowMaxSupply : e.totalIssue ≤ a.options.maxSupply

theorem doEvaluate_inv (h : doEvaluate d o = .ok e) : ∃ a, Admitted d o e a := by
  unfold doEvaluate at h
  simp only [bind_eq_ok, fcAssert_eq_ok, getAsset_eq_ok, safe_eq_ok, pure_eq_ok] at h
  obtain ⟨-, -, a, ha, _, hpo, -, rfl, -, -, _, hend, -, rfl, khd, -, -, hraised, -, hsupply, khdAmount, -, tokens,
    htokens, totals, hfold, -, -, rest, ⟨-, rfl⟩, amounts, hlast, -, -, supply, ⟨-, rfl⟩, -, hmax, rfl⟩ := h
  obtain ⟨hproj, hpub⟩ := isPublicOffering_eq_ok.mp hpo
  obtain ⟨hlen, hsum⟩ := addShare_inv hfold rfl
  obtain ⟨hlen', hsum'⟩ := addToLast_inv hlast
  rw [hsupply, zero_add] at hmax
  refine ⟨a, ha, hproj, hpub, (isFinancingEnd_eq_ok.mp hend).2, hraised, hsupply, rfl, ?_, ?_,
    (Asset.mul_bounds htokens).1, hmax⟩
  · simp only [hlen', hlen, List.length_nil, zero_add]
  · simp only [hsum', hsum]
    omega

/-- A project after its tokens are issued. -/
def issuedAsset (totalIssue : Int) (a : AssetObject) : AssetObject :=
  { a with dynamicData := { a.dynamicData with
      currentSupply := a.dynamicData.currentSupply + totalIssue
      investmentConfidentialSupply := totalIssue
      investmentCurrentSupply := totalIssue } }

theorem giveTokens_eq (shares : List (Khc.Chain.AssetInvestment × Int)) :
    giveTokens d shares = { d with investments := shares.foldl (fun l s => updateKey (·.id) s.1.id
      (fun obj => { obj with hasReceiveToken := false, investmentTokens := s.2 }) l) d.investments } := by
  unfold giveTokens
  induction shares generalizing d with
  | nil => rfl
  | cons s shares ih =>
    rw [List.foldl_cons, ih]
    rfl

theorem doApply_inv (h : doApply d o e = .ok d') :
    ∃ a, d.assets[o.investmentAssetId]? = some a ∧
      d' = (giveTokens d (e.investmentObjects.zip e.issueAmounts)).modifyAsset o.investmentAssetId
        (issuedAsset e.totalIssue) := by
  unfold doApply at h
  simp only [bind_eq_ok, getAsset_eq_ok, safe_eq_ok, pure_eq_ok, giveTokens_eq] at h
  obtain ⟨a, ha, -, ⟨-, rfl⟩, rfl⟩ := h
  refine ⟨a, ha, ?_⟩
  rw [giveTokens_eq]
  exact modifyAsset_congr ha rfl

end IssueAssetToInvestors

/-! ### refund_investment -/

namespace RefundInvestment
variable {d d' : Database} {o : RefundInvestmentOperation} {objs : List Khc.Chain.AssetInvestment}

/-- The investment in the asset is not refunded yet. -/
def refundable (asset : AssetId) (r : Khc.Chain.AssetInvestment) : Bool :=
  r.investmentAssetId = asset ∧ r.returnFinancingFlag = false

theorem scan_inv {asset : AssetId} {s s' : Scan} (h : objs.foldlM (scan asset) s = .ok s') :
    s'.investmentObjects = s.investmentObjects ++ objs.filter (refundable asset) ∧
      s'.totalInvestment =
        s.totalInvestment + ((objs.filter (refundable asset)).map (·.investmentKhdAmount.amount)).sum := by
  induction objs generalizing s with
  | nil =>
    obtain rfl := pure_eq_ok.mp h
    simp
  | cons r objs ih =>
    rw [List.foldlM_cons, bind_eq_ok] at h
    obtain ⟨s₁, h₁, h⟩ := h
    obtain ⟨hobjs, htotal⟩ := ih h
    unfold scan at h₁
    by_cases hr : refundable asset r = true
    · have hr' : r.investmentAssetId = asset ∧ r.returnFinancingFlag = false := by simpa [refundable] using hr
      simp only [hr', and_self, Bool.false_eq_true, not_false_eq_true, if_true, bind_eq_ok, safe_eq_ok, pure_eq_ok] at h₁
      obtain ⟨-, ⟨-, rfl⟩, rfl⟩ := h₁
      rw [List.filter_cons_of_pos hr, hobjs, htotal, List.append_assoc, List.map_cons, List.sum_cons, ← add_assoc]
      exact ⟨rfl, rfl⟩
    · have hr' : ¬(r.investmentAssetId = asset ∧ ¬r.returnFinancingFlag = true) := by simpa [refundable] using hr
      rw [if_neg hr'] at h₁
      rw [List.filter_cons_of_neg hr]
      split at h₁
      · obtain rfl := pure_eq_ok.mp h₁
        exact ⟨hobjs, htotal⟩
      · obtain rfl := pure_eq_ok.mp h₁
        exact ⟨hobjs, htotal⟩

/-- The investments of an account in an asset that are not refunded yet. -/
def refundables (d : Database) (account : AccountId) (asset : AssetId) : List Khc.Chain.AssetInvestment :=
  (d.investmentsByAccount account).filter (refundable asset)

/-- The KHD amount of investments. -/
def amountOf (objs : List Khc.Chain.AssetInvestment) : Int := (objs.map (·.investmentKhdAmount.amount)).sum

/-- The checks of a refund. -/
structure Admitted (d : Database) (o : RefundInvestmentOperation) (a : AssetObject) : Prop where
  asset : d.assets[o.investmentAssetId]? = some a
  project : a.isProjectAsset = true
  publicOffering : a.projOptions.financingType = khcPublicOffering
  failed : a.dynamicData.state = .financingFailue
  covered : amountOf (refundables d o.accountId o.investmentAssetId) ≤ a.dynamicData.financingCurrentSupply
  any : refundables d o.accountId o.investmentAssetId ≠ []

theorem doEvaluate_inv (h : doEvaluate d o = .ok objs) :
    objs = refundables d o.accountId o.investmentAssetId ∧ ∃ a, Admitted d o a := by
  unfold doEvaluate at h
  simp only [bind_eq_ok, fcAssert_eq_ok, getAsset_eq_ok, safe_eq_ok] at h
  obtain ⟨a, ha, _, hpo, -, rfl, -, hfail, s, hscan, left, ⟨-, rfl⟩, -, hleft, h⟩ := h
  obtain ⟨hproj, hpub⟩ := isPublicOffering_eq_ok.mp hpo
  obtain ⟨hobjs, htotal⟩ := scan_inv hscan
  simp only [List.nil_append, zero_add] at hobjs htotal
  obtain ⟨hne, hfound⟩ : s.investmentObjects ≠ [] ∧ s.investmentObjects = objs := by
    split at h
    · simp only [bind_eq_ok, fcAssert_eq_ok, pure_eq_ok] at h
      obtain ⟨-, hne, hobjs'⟩ := h
      exact ⟨hne, hobjs'⟩
    · simp only [bind_eq_ok, fcAssert_eq_ok, pure_eq_ok] at h
      obtain ⟨-, hne, hobjs'⟩ := h
      exact ⟨hne, hobjs'⟩
  rw [hobjs] at hne hfound
  refine ⟨hfound.symm, a, ha, hproj, hpub, hfail, ?_, hne⟩
  have : amountOf (refundables d o.accountId o.investmentAssetId) = s.totalInvestment := htotal.symm
  omega

/-- The investments with these ids are marked as refunded. -/
def markRefunded (d : Database) (ids : List Nat) : Database :=
  { d with investments := d.investments.map fun s => if s.id ∈ ids then { s with returnFinancingFlag := true } else s }

theorem markRefunded_singleton (id : Nat) :
    markRefunded d [id] = d.modifyInvestment id fun s => { s with returnFinancingFlag := true } := by
  simp only [markRefunded, modifyInvestment, List.mem_singleton]

/-- A project after a refund. -/
def refundedAsset (amount : Int) (a : AssetObject) : AssetObject :=
  { a with dynamicData := { a.dynamicData with
      financingCurrentSupply := a.dynamicData.financingCurrentSupply - amount } }

/-- The state after a refund of the investments, made in the asset `khd`. -/
def refunded (d : Database) (o : RefundInvestmentOperation) (khd : AssetId)
    (objs : List Khc.Chain.AssetInvestment) : Database :=
  markRefunded ((d.modifyAsset o.investmentAssetId (refundedAsset (amountOf objs))).credit o.accountId
    ⟨amountOf objs, khd⟩) (objs.map (·.id))

theorem refunded_cons (khd : AssetId) (r : Khc.Chain.AssetInvestment) (objs : List Khc.Chain.AssetInvestment) :
    refunded (refunded d o khd [r]) o khd objs = refunded d o khd (r :: objs) := by
  simp only [refunded, markRefunded, credit, modifyAsset, List.modify_modify_eq, amountOf, List.map_cons, List.sum_cons,
    List.map_nil, List.sum_nil, add_zero, List.map_map]
  congr 1
  · congr 1
    funext a
    simp only [Function.comp_apply, refundedAsset, sub_sub]
  · funext y q
    by_cases hy : y = o.accountId ∧ q = khd
    · simp only [hy, and_self, if_true, add_assoc]
    · simp only [hy, if_false, add_zero]
  · refine List.map_congr_left fun s _ => ?_
    by_cases hs : s.id = r.id
    · simp [hs]
    · simp [hs]

theorem doApply_inv {khd : AssetId} (hkhd : ∀ r ∈ objs, r.investmentKhdAmount.assetId = khd)
    (h : doApply d o objs = .ok d') : d' = refunded d o khd objs := by
  unfold doApply at h
  induction objs generalizing d with
  | nil =>
    obtain rfl := pure_eq_ok.mp h
    have hsame : refundedAsset 0 = fun a => a := funext fun a => by simp [refundedAsset]
    simp [refunded, markRefunded, amountOf, hsame, modifyAsset_id, credit_zero]
  | cons r objs ih =>
    rw [List.foldlM_cons, bind_eq_ok] at h
    obtain ⟨d₁, h₁, h⟩ := h
    simp only [refundOne, bind_eq_ok, getAsset_eq_ok, safe_eq_ok, pure_eq_ok, adjustBalance_eq_ok] at h₁
    obtain ⟨a, ha, -, ⟨-, rfl⟩, d₂, ⟨-, -, rfl⟩, rfl⟩ := h₁
    rw [ih (fun s hs => hkhd s (List.mem_cons_of_mem _ hs)) h, ← refunded_cons]
    congr 1
    obtain rfl : r.investmentKhdAmount.assetId = khd := hkhd r List.mem_cons_self
    rw [modifyDynamic, modifyAsset_congr (g := refundedAsset r.investmentKhdAmount.amount) ha ?_]
    · simp [refunded, amountOf, markRefunded_singleton]
    · rfl

end RefundInvestment

/-! ### claim_bitasset_investment -/

namespace ClaimBitassetInvestment
variable {d d' : Database} {o : ClaimBitassetInvestmentOperation} {e : Evaluated}

/-- The amount of a claim, given the first and the second share. -/
def amountAt (claimTimes : Nat) (raised share : Int) : Int :=
  if claimTimes < 2 then share else raised - share - share

/-- The first block of a claim. -/
def blockAt (options : ProjectAssetOptions) (blockInterval claimTimes : Nat) : Nat :=
  if claimTimes = 0 then options.startProjectBlockNum
  else if claimTimes = 1 then options.startProjectBlockNum + options.projectCycle / blockInterval / 2
  else options.startProjectBlockNum + options.projectCycle / blockInterval

/-- Thirty percent of an amount in range. -/
theorem share_eq {raised share : Int} (h0 : 0 ≤ raised) (hint : InInt64 raised)
    (h : uint128MulDiv raised khcFirstClaimInvestmentRatio khc100Percent = .ok share) : share = raised * 30 / 100 := by
  have hmax := hint.2
  have hprod : toU128 (toU128 raised * toU128 30) = raised * 30 := by
    rw [toU128_of_nonneg h0 hint]
    exact Int.emod_eq_of_lt (by norm_num [toU128]; omega) (by norm_num [toU128]; omega)
  have hhundred : toU128 100 = 100 := by decide
  have hlt : ¬raised * 30 / 100 ≥ 2 ^ 64 := by omega
  have hlt' : ¬raised * 30 / 100 ≥ 2 ^ 63 := by omega
  have hne : ¬(100 : Int) = 0 := by decide
  simp only [uint128MulDiv, khcFirstClaimInvestmentRatio, khc100Percent, hprod, hhundred, hlt, hlt', hne, if_false,
    pure_eq_ok] at h
  exact h.symm

theorem claim_inv {options : ProjectAssetOptions} {blockInterval : Nat} {dyn : AssetDynamicData} {amount : Int}
    {block : Nat} (h : claim options blockInterval dyn = .ok (amount, block)) :
    ∃ share, uint128MulDiv dyn.financingConfidentialSupply khcFirstClaimInvestmentRatio khc100Percent = .ok share ∧
      amount = amountAt dyn.claimTimes dyn.financingConfidentialSupply share ∧
      block = blockAt options blockInterval dyn.claimTimes := by
  unfold claim at h
  simp only [bind_eq_ok] at h
  obtain ⟨first, hfirst, second, hsecond, h⟩ := h
  obtain rfl : first = second := Except.ok.inj (hfirst.symm.trans hsecond)
  refine ⟨first, hfirst, ?_⟩
  unfold amountAt blockAt
  split at h
  · rename_i h0
    obtain ⟨rfl, rfl⟩ := Prod.mk.inj (pure_eq_ok.mp h)
    simp [h0]
  · rename_i h0
    split at h
    · rename_i h1
      obtain ⟨rfl, rfl⟩ := Prod.mk.inj (pure_eq_ok.mp h)
      simp [h1]
    · rename_i h1
      simp only [bind_eq_ok, safe_eq_ok, pure_eq_ok, Prod.mk.injEq] at h
      obtain ⟨-, ⟨-, rfl⟩, -, ⟨-, rfl⟩, rfl, rfl⟩ := h
      have h2 : ¬dyn.claimTimes < 2 := by omega
      simp [h0, h1, h2]

/-- The checks of a claim of the issuer, and the claim. -/
structure Admitted (d : Database) (o : ClaimBitassetInvestmentOperation) (e : Evaluated) (a : AssetObject) : Prop where
  asset : d.assets[o.assetId]? = some a
  project : a.isProjectAsset = true
  publicOffering : a.projOptions.financingType = khcPublicOffering
  running : a.dynamicData.state = .projectInProgress ∨ a.dynamicData.state = .projectEnd
  notAll : a.dynamicData.claimTimes < 3
  left : 0 < a.dynamicData.financingCurrentSupply
  issued : 0 < a.dynamicData.investmentConfidentialSupply
  ended : a.projOptions.endFinancingBlockNum ≤ d.headBlockNumber
  amount : ∃ share,
    uint128MulDiv a.dynamicData.financingConfidentialSupply khcFirstClaimInvestmentRatio khc100Percent = .ok share ∧
    e.khdAmount.amount = amountAt a.dynamicData.claimTimes a.dynamicData.financingConfidentialSupply share
  block : blockAt a.projOptions d.parameters.blockInterval a.dynamicData.claimTimes ≤ d.headBlockNumber
  covered : e.khdAmount.amount ≤ a.dynamicData.financingCurrentSupply
  khd : d.findSymbol khdAssetSymbol = some e.khdAmount.assetId
  times : e.claimTimes = a.dynamicData.claimTimes + 1

theorem le_blockAt (options : ProjectAssetOptions) (blockInterval claimTimes : Nat) :
    options.startProjectBlockNum ≤ blockAt options blockInterval claimTimes := by
  unfold blockAt
  split
  · exact le_refl _
  · split
    · exact Nat.le_add_right _ _
    · exact Nat.le_add_right _ _

theorem Admitted.started {a : AssetObject} (h : Admitted d o e a) :
    a.projOptions.startProjectBlockNum ≤ d.headBlockNumber :=
  (le_blockAt _ _ _).trans h.block

/-- A claim takes no less than nothing. -/
theorem Admitted.amount_nonneg {a : AssetObject} (h : Admitted d o e a)
    (h0 : 0 ≤ a.dynamicData.financingConfidentialSupply) (hint : InInt64 a.dynamicData.financingConfidentialSupply) :
    0 ≤ e.khdAmount.amount := by
  obtain ⟨share, hshare, hamount⟩ := h.amount
  rw [hamount, share_eq h0 hint hshare, amountAt]
  split <;> omega

theorem doEvaluate_inv (h : doEvaluate d o = .ok e) : ∃ a, Admitted d o e a := by
  unfold doEvaluate at h
  simp only [bind_eq_ok, fcAssert_eq_ok, getAsset_eq_ok, safe_eq_ok, pure_eq_ok, Prod.exists] at h
  obtain ⟨a, ha, _, hpo, -, rfl, -, hstate, -, htimes, -, hleft, _, hissued, -, rfl, -, -, -, hended, amount, block,
    hclaim, -, hblock, left, ⟨-, rfl⟩, -, hcov, khd, hkhd, rfl⟩ := h
  obtain ⟨hproj, hpub⟩ := isPublicOffering_eq_ok.mp hpo
  obtain ⟨share, hshare, rfl, rfl⟩ := claim_inv hclaim
  exact ⟨a, ha, hproj, hpub, running_of_toNat hstate, htimes, hleft, (isIssueToInvestors_eq_ok.mp hissued).2, hended,
    ⟨share, hshare, rfl⟩, hblock, by simp only; omega, getAssetId_eq_ok.mp hkhd, rfl⟩

theorem claim_eq_error {options : ProjectAssetOptions} {blockInterval : Nat} {dyn : AssetDynamicData} {err : Error}
    (h : claim options blockInterval dyn = .error err) : err = .divideByZero ∨ err = .to_uint64 ∨ err = .overflow := by
  unfold claim at h
  simp only [bind_eq_error] at h
  rcases h with h | ⟨first, -, h | ⟨second, -, h⟩⟩
  · exact (uint128MulDiv_eq_error h).imp_right .inl
  · exact (uint128MulDiv_eq_error h).imp_right .inl
  · split at h
    · exact absurd h pure_eq_error.mp
    · split at h
      · exact absurd h pure_eq_error.mp
      · simp only [bind_eq_error, pure_eq_error, and_false, exists_false, or_false] at h
        rcases h with h | ⟨rest, -, h⟩
        · exact .inr (.inr (safe_eq_error h))
        · exact .inr (.inr (safe_eq_error h))

/-- What a claim that is refused for lack of funds has found. -/
structure Lacking (d : Database) (o : ClaimBitassetInvestmentOperation) (a : AssetObject) : Prop where
  asset : d.assets[o.assetId]? = some a
  project : a.isProjectAsset = true
  running : a.dynamicData.state = .projectInProgress ∨ a.dynamicData.state = .projectEnd
  lack : a.dynamicData.financingCurrentSupply ≤ 0 ∨ ∃ share,
    uint128MulDiv a.dynamicData.financingConfidentialSupply khcFirstClaimInvestmentRatio khc100Percent = .ok share ∧
      a.dynamicData.financingCurrentSupply <
        amountAt a.dynamicData.claimTimes a.dynamicData.financingConfidentialSupply share

/-- Two checks refuse a claim for lack of funds; every other error says something else. -/
theorem doEvaluate_lack {err : Error} (h : doEvaluate d o = .error err)
    (herr : err = .noInvestmentLess ∨ err = .claimTooLarge) : ∃ a, Lacking d o a := by
  unfold doEvaluate at h
  simp only [bind_eq_error, fcAssert_eq_error, fcAssert_eq_ok, getAsset_eq_ok, safe_eq_ok, Prod.exists, pure_eq_error,
    and_false, exists_false, or_false] at h
  rcases h with h | ⟨a, ha, h⟩
  · obtain rfl := getAsset_eq_error h
    simp at herr
  rcases h with h | ⟨_, hpo, h⟩
  · obtain rfl := isPublicOffering_eq_error h
    simp at herr
  rcases h with ⟨-, rfl⟩ | ⟨-, rfl, ⟨-, rfl⟩ | ⟨-, hstate, h⟩⟩
  · simp at herr
  · simp at herr
  refine ⟨a, ha, (isPublicOffering_eq_ok.mp hpo).1, running_of_toNat hstate, ?_⟩
  rcases h with ⟨-, rfl⟩ | ⟨-, -, ⟨hleft, -⟩ | ⟨-, -, h⟩⟩
  · simp at herr
  · exact .inl (not_lt.mp hleft)
  rcases h with h | ⟨_, -, h⟩
  · obtain rfl := isIssueToInvestors_eq_error h
    simp at herr
  rcases h with ⟨-, rfl⟩ | ⟨-, -, ⟨-, rfl⟩ | ⟨-, -, ⟨-, rfl⟩ | ⟨-, -, h⟩⟩⟩
  · simp at herr
  · simp at herr
  · simp at herr
  rcases h with h | ⟨amount, block, hclaim, h⟩
  · rcases claim_eq_error h with rfl | rfl | rfl <;> simp at herr
  rcases h with ⟨-, rfl⟩ | ⟨-, -, h | ⟨left, ⟨-, rfl⟩, ⟨hleft, -⟩ | ⟨-, -, h⟩⟩⟩
  · simp at herr
  · obtain rfl := safe_eq_error h
    simp at herr
  · obtain ⟨share, hshare, rfl, -⟩ := claim_inv hclaim
    exact .inr ⟨share, hshare, by omega⟩
  · obtain rfl := getAssetId_eq_error h
    simp at herr

/-- A project after a claim of the issuer. -/
def claimedAsset (amount : Int) (claimTimes : Nat) (a : AssetObject) : AssetObject :=
  { a with dynamicData := { a.dynamicData with
      financingCurrentSupply := a.dynamicData.financingCurrentSupply - amount
      claimTimes := claimTimes } }

theorem doApply_inv (h : doApply d o e = .ok d') :
    d' = (d.credit o.accountId e.khdAmount).modifyAsset o.assetId (claimedAsset e.khdAmount.amount e.claimTimes) := by
  unfold doApply at h
  simp only [bind_eq_ok, getAsset_eq_ok, safe_eq_ok, pure_eq_ok, adjustBalance_eq_ok] at h
  obtain ⟨-, ⟨-, -, rfl⟩, a, ha, -, ⟨-, rfl⟩, rfl⟩ := h
  exact modifyAsset_congr ha rfl

end ClaimBitassetInvestment

/-! ### claim_asset_investment -/

namespace ClaimAssetInvestment
variable {d d' : Database} {o : ClaimAssetInvestmentOperation} {e : Evaluated}

theorem scan_inv {asset : AssetId} {objs : List Khc.Chain.AssetInvestment} {e e' : Evaluated}
    (h : objs.foldlM (scan d asset) e = .ok e') :
    e'.investmentObjects = e.investmentObjects ++ objs.filter (·.investmentAssetId = asset) ∧
      e'.tokens = e.tokens + ((objs.filter (·.investmentAssetId = asset)).map (·.investmentTokens)).sum ∧
      ∀ r ∈ objs.filter (·.investmentAssetId = asset), r.hasReceiveToken = false := by
  induction objs generalizing e with
  | nil =>
    obtain rfl := pure_eq_ok.mp h
    simp
  | cons r objs ih =>
    rw [List.foldlM_cons, bind_eq_ok] at h
    obtain ⟨e₁, h₁, h⟩ := h
    obtain ⟨hobjs, htokens, hall⟩ := ih h
    simp only [scan, bind_eq_ok, fcAssert_eq_ok] at h₁
    obtain ⟨-, -, -, -, -, -, h₁⟩ := h₁
    by_cases hr : r.investmentAssetId = asset
    · simp only [hr, if_true, bind_eq_ok, fcAssert_eq_ok, safe_eq_ok, pure_eq_ok] at h₁
      obtain ⟨-, hrec, -, ⟨-, rfl⟩, rfl⟩ := h₁
      rw [List.filter_cons_of_pos (by simpa using hr), hobjs, htokens, List.append_assoc, List.map_cons, List.sum_cons,
        ← add_assoc]
      refine ⟨rfl, rfl, fun s hs => ?_⟩
      rcases List.mem_cons.mp hs with rfl | hs
      · exact hrec
      · exact hall s hs
    · rw [if_neg hr, pure_eq_ok] at h₁
      subst h₁
      rw [List.filter_cons_of_neg (by simpa using hr)]
      exact ⟨hobjs, htokens, hall⟩

/-- The investments of an account in an asset. -/
def investmentsOf (d : Database) (account : AccountId) (asset : AssetId) : List Khc.Chain.AssetInvestment :=
  (d.investmentsByAccount account).filter (·.investmentAssetId = asset)

/-- The checks of a claim of tokens, and the claim. -/
structure Admitted (d : Database) (o : ClaimAssetInvestmentOperation) (e : Evaluated) (a : AssetObject) : Prop where
  asset : d.assets[o.assetId]? = some a
  project : a.isProjectAsset = true
  publicOffering : a.projOptions.financingType = khcPublicOffering
  running : a.dynamicData.state = .projectInProgress ∨ a.dynamicData.state = .projectEnd
  issued : 0 < a.dynamicData.investmentConfidentialSupply
  objects : e.investmentObjects = investmentsOf d o.accountId o.assetId
  tokens : e.tokens = ((investmentsOf d o.accountId o.assetId).map (·.investmentTokens)).sum
  notReceived : ∀ r ∈ investmentsOf d o.accountId o.assetId, r.hasReceiveToken = false
  positive : 0 < e.tokens
  covered : e.tokens ≤ a.dynamicData.investmentCurrentSupply

theorem doEvaluate_inv (h : doEvaluate d o = .ok e) : ∃ a, Admitted d o e a := by
  unfold doEvaluate at h
  simp only [bind_eq_ok, fcAssert_eq_ok, getAsset_eq_ok, pure_eq_ok] at h
  obtain ⟨a, ha, _, hpo, -, rfl, -, hstate, -, hissued, e, hscan, -, hpos, -, hcov, rfl⟩ := h
  obtain ⟨hproj, hpub⟩ := isPublicOffering_eq_ok.mp hpo
  obtain ⟨hobjs, htokens, hall⟩ := scan_inv hscan
  simp only [List.nil_append, zero_add] at hobjs htokens
  exact ⟨a, ha, hproj, hpub, running_of_toNat hstate, hissued, hobjs, htokens, hall, hpos, hcov⟩

/-- A project after a claim of tokens. -/
def receivedAsset (tokens : Int) (a : AssetObject) : AssetObject :=
  { a with dynamicData := { a.dynamicData with
      investmentCurrentSupply := a.dynamicData.investmentCurrentSupply - tokens } }

/-- The investments with these ids are marked as received. -/
def markReceived (d : Database) (ids : List Nat) : Database :=
  { d with investments := d.investments.map fun s => if s.id ∈ ids then { s with hasReceiveToken := true } else s }

theorem receive_eq (objs : List Khc.Chain.AssetInvestment) : receive d objs = markReceived d (objs.map (·.id)) := by
  have hloop : receive d objs = { d with
      investments := List.foldl
        (fun l id => updateKey (·.id) id (fun s => { s with hasReceiveToken := true }) l) d.investments
        (objs.map (·.id)) } := by
    unfold receive
    induction objs generalizing d with
    | nil => rfl
    | cons r objs ih =>
      rw [List.foldl_cons, ih]
      rfl
  rw [hloop, foldl_updateKey (f := fun s : Khc.Chain.AssetInvestment => { s with hasReceiveToken := true })
    (fun _ => rfl) (fun _ => rfl)]
  rfl

theorem doApply_inv (h : doApply d o e = .ok d') :
    d' = markReceived ((d.credit o.accountId ⟨e.tokens, o.assetId⟩).modifyAsset o.assetId (receivedAsset e.tokens))
      (e.investmentObjects.map (·.id)) := by
  unfold doApply at h
  simp only [bind_eq_ok, getAsset_eq_ok, safe_eq_ok, pure_eq_ok, adjustBalance_eq_ok, receive_eq] at h
  obtain ⟨-, ⟨-, -, rfl⟩, a, ha, -, ⟨-, rfl⟩, rfl⟩ := h
  rw [modifyDynamic, modifyAsset_congr (g := receivedAsset e.tokens) ha ?_]
  rfl

end ClaimAssetInvestment

end Khc.Chain
