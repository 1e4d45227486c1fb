import Khc.Chain.Refund

/-! When an issue to the investors is accepted: its loop neither overflows nor gives away more than the total, so it asks for
    nothing of an investor but the right to hold the asset. -/

namespace Khc.Chain

open Lib Database

namespace IssueAssetToInvestors
variable {d d' : Database} {o : IssueAssetToInvestorsOperation} {e : Evaluated} {objs : List Khc.Chain.AssetInvestment}
  {a : AssetObject} {total raised : Int} {t t' : Totals}

/-- The investor may hold the asset of the investment. -/
def Authorised (d : Database) (r : Khc.Chain.AssetInvestment) : Prop :=
  ∃ account a, d.accounts[r.investmentAccountId]? = some account ∧ d.assets[r.investmentAssetId]? = some a ∧
    d.isAuthorizedAsset account r.investmentAssetId a = true

instance (d : Database) (r : Khc.Chain.AssetInvestment) : Decidable (Authorised d r) :=
  decidable_of_iff ((d.accounts[r.investmentAccountId]?).any (fun account => (d.assets[r.investmentAssetId]?).any fun a =>
    d.isAuthorizedAsset account r.investmentAssetId a) = true) (by simp [Authorised, Option.any_eq_true])

/-- The loop passes only investors who may hold the asset. -/
theorem authorised_of_addShare (h : objs.foldlM (addShare d total raised) t = .ok t') : ∀ r ∈ objs, Authorised d r := by
  induction objs generalizing t with
  | nil => exact fun r hr => absurd hr List.not_mem_nil
  | cons obj objs ih =>
    rw [List.foldlM_cons, bind_eq_ok] at h
    obtain ⟨t₁, h₁, h⟩ := h
    simp only [addShare, bind_eq_ok, fcAssert_eq_ok, getAccount_eq_ok, getAsset_eq_ok] at h₁
    obtain ⟨account, hx, a, ha, -, hauth, -⟩ := h₁
    intro r hr
    rcases List.mem_cons.mp hr with rfl | hr
    · exact ⟨account, a, hx, ha, hauth⟩
    · exact ih h r hr

theorem authorised_of_doEvaluate (h : doEvaluate d o = .ok e) : ∀ r ∈ d.investmentsByAsset o.investmentAssetId, Authorised d r := by
  unfold doEvaluate at h
  simp only [bind_eq_ok] at h
  obtain ⟨-, -, a, -, _, -, -, -, -, -, _, -, -, -, khd, -, -, -, -, -, core, -, tokens, -, totals, hfold, -⟩ := h
  exact authorised_of_addShare hfold

/-- What the sums of the loop stay within: the tokens are in proportion to the investments. -/
structure Proportional (total raised : Int) (t : Totals) : Prop where
  invested : 0 ≤ t.totalInvestment
  amounts : ∀ n ∈ t.issueAmounts, 0 ≤ n
  sum : t.issueAmounts.sum = t.totalIssueTmp
  share : t.totalIssueTmp * raised ≤ total * t.totalInvestment

theorem Proportional.issued (h : Proportional total raised t) : 0 ≤ t.totalIssueTmp := h.sum ▸ List.sum_nonneg h.amounts

/-- What is given away is within the total as long as the investments are within what is raised. -/
theorem Proportional.le (h : Proportional total raised t) (htotal : 0 ≤ total) (hraised : 0 < raised)
    (hsum : t.totalInvestment ≤ raised) : t.totalIssueTmp ≤ total :=
  le_of_mul_le_mul_right (h.share.trans (mul_le_mul_of_nonneg_left hsum htotal)) hraised

/-- One round of the loop takes the share of an investment. -/
theorem addShare_ok {obj : Khc.Chain.AssetInvestment} (hauth : Authorised d obj) (ht : Proportional total raised t)
    (htotal : 0 ≤ total) (htotal' : total ≤ maxInt64) (hraised : 0 < raised) (hraised' : raised ≤ maxInt64)
    (hobj : 0 ≤ obj.investmentKhdAmount.amount) (hsum : t.totalInvestment + obj.investmentKhdAmount.amount ≤ raised) :
    ∃ t', addShare d total raised t obj = .ok t' ∧ Proportional total raised t' ∧
      t'.totalInvestment = t.totalInvestment + obj.investmentKhdAmount.amount ∧
      t'.issueAmounts.length = t.issueAmounts.length + 1 := by
  obtain ⟨account, a, hx, ha, hallowed⟩ := hauth
  have hinvested := ht.invested
  have hpart := uint128MulDiv_part htotal htotal' hobj (by omega : obj.investmentKhdAmount.amount ≤ raised) hraised hraised'
  have hshare : 0 ≤ total * obj.investmentKhdAmount.amount / raised := Int.ediv_nonneg (mul_nonneg htotal hobj) hraised.le
  have hnext : Proportional total raised ⟨t.totalInvestment + obj.investmentKhdAmount.amount,
      t.totalIssueTmp + total * obj.investmentKhdAmount.amount / raised,
      t.issueAmounts ++ [total * obj.investmentKhdAmount.amount / raised]⟩ := by
    refine ⟨add_nonneg hinvested hobj, fun n hn => ?_, by simp [ht.sum], ?_⟩
    · rcases List.mem_append.mp hn with hn | hn
      · exact ht.amounts n hn
      · exact List.mem_singleton.mp hn ▸ hshare
    have hdiv := Int.ediv_mul_le (total * obj.investmentKhdAmount.amount) hraised.ne'
    calc (t.totalIssueTmp + total * obj.investmentKhdAmount.amount / raised) * raised
        = t.totalIssueTmp * raised + total * obj.investmentKhdAmount.amount / raised * raised := by ring
      _ ≤ total * t.totalInvestment + total * obj.investmentKhdAmount.amount := add_le_add ht.share hdiv
      _ = total * (t.totalInvestment + obj.investmentKhdAmount.amount) := by ring
  have hwithin := hnext.le htotal hraised hsum
  have hissued := ht.issued
  unfold maxInt64 at htotal' hraised'
  refine ⟨_, ?_, hnext, rfl, by simp⟩
  simp only [addShare, bind_eq_ok, getAccount_eq_ok, getAsset_eq_ok, fcAssert_eq_ok, safe_eq_ok, pure_eq_ok]
  refine ⟨account, hx, a, ha, (), hallowed, _, ⟨⟨by omega, by omega⟩, rfl⟩, _, hpart, _, ⟨⟨by omega, ?_⟩, rfl⟩, rfl⟩
  exact hwithin.trans htotal'

/-- The loop takes all shares. -/
theorem addShares_ok (hauth : ∀ r ∈ objs, Authorised d r) (ht : Proportional total raised t)
    (htotal : 0 ≤ total) (htotal' : total ≤ maxInt64) (hraised : 0 < raised) (hraised' : raised ≤ maxInt64)
    (hobjs : ∀ r ∈ objs, 0 ≤ r.investmentKhdAmount.amount)
    (hsum : t.totalInvestment + (objs.map (·.investmentKhdAmount.amount)).sum ≤ raised) :
    ∃ t', objs.foldlM (addShare d total raised) t = .ok t' ∧ Proportional total raised t' ∧
      t'.totalInvestment = t.totalInvestment + (objs.map (·.investmentKhdAmount.amount)).sum ∧
      t'.issueAmounts.length = t.issueAmounts.length + objs.length := by
  induction objs generalizing t with
  | nil => exact ⟨t, rfl, ht, by simp, rfl⟩
  | cons obj objs ih =>
    have hrest : 0 ≤ (objs.map (·.investmentKhdAmount.amount)).sum := List.sum_nonneg fun n hn => by
      obtain ⟨r, hr, rfl⟩ := List.mem_map.mp hn
      exact hobjs r (List.mem_cons_of_mem _ hr)
    rw [List.map_cons, List.sum_cons] at hsum
    obtain ⟨t₁, h₁, ht₁, hinvested, hlen⟩ := addShare_ok (hauth obj List.mem_cons_self) ht htotal htotal' hraised hraised'
      (hobjs obj List.mem_cons_self) (by omega)
    obtain ⟨t', h', ht', hinvested', hlen'⟩ := ih (fun r hr => hauth r (List.mem_cons_of_mem _ hr)) ht₁
      (fun r hr => hobjs r (List.mem_cons_of_mem _ hr)) (by omega)
    refine ⟨t', ?_, ht', ?_, ?_⟩
    · rw [List.foldlM_cons, h₁]
      exact h'
    · rw [hinvested', hinvested, List.map_cons, List.sum_cons, add_assoc]
    · rw [hlen', hlen, List.length_cons]
      omega

theorem addToLast_ok {amounts : List Int} {rest : Int} (hne : amounts ≠ []) (hrest : InInt64 (amounts.getLast hne + rest)) :
    addToLast amounts rest = .ok (amounts.dropLast ++ [amounts.getLast hne + rest]) := by
  rw [addToLast, List.getLast?_eq_some_getLast hne]
  simp only [bind_eq_ok, safe_eq_ok, pure_eq_ok]
  exact ⟨_, ⟨hrest, rfl⟩, rfl⟩

/-- What an issue asks for besides the right of the investors to hold the asset -/
structure Due (d : Database) (o : IssueAssetToInvestorsOperation) (a : AssetObject) (khd : AssetId) (core tokens : Asset) : Prop where
  fee : 0 ≤ o.fee.amount
  asset : d.assets[o.investmentAssetId]? = some a
  project : a.isProjectAsset = true
  publicOffering : a.projOptions.financingType = khcPublicOffering
  notMarketIssued : a.isMarketIssued = false
  ended : a.dynamicData.state = .projectInProgress ∨ a.dynamicData.state = .projectEnd
  symbol : d.findSymbol khdAssetSymbol = some khd
  notClaimed : a.dynamicData.financingConfidentialSupply = a.dynamicData.financingCurrentSupply
  noSupply : a.dynamicData.currentSupply = 0
  converted : (Asset.mk a.dynamicData.financingConfidentialSupply khd).mul a.projOptions.khdExchangeRate = .ok core
  issue : core.mul a.options.coreExchangeRate = .ok tokens
  belowMaxSupply : tokens.amount ≤ a.options.maxSupply
  invested : d.investmentsByAsset o.investmentAssetId ≠ []
  positive : ∀ r ∈ d.investmentsByAsset o.investmentAssetId, 0 < r.investmentKhdAmount.amount
  raised : ((d.investmentsByAsset o.investmentAssetId).map (·.investmentKhdAmount.amount)).sum =
    a.dynamicData.financingConfidentialSupply
  range : a.dynamicData.financingConfidentialSupply ≤ maxInt64

theorem doEvaluate_ok {khd : AssetId} {core tokens : Asset} (h : Due d o a khd core tokens)
    (hauth : ∀ r ∈ d.investmentsByAsset o.investmentAssetId, Authorised d r) :
    ∃ e, doEvaluate d o = .ok e ∧ e.totalIssue = tokens.amount := by
  obtain ⟨htotal, htotal'⟩ := Asset.mul_bounds h.issue
  have hmax : tokens.amount ≤ maxInt64 := htotal'.trans (by decide)
  have hraised : 0 < a.dynamicData.financingConfidentialSupply := by
    rw [← h.raised]
    refine List.sum_pos _ (fun n hn => ?_) (by simpa using h.invested)
    obtain ⟨r, hr, rfl⟩ := List.mem_map.mp hn
    exact h.positive r hr
  obtain ⟨t, hfold, ht, hinvested, hlen⟩ := addShares_ok (t := {}) hauth ⟨le_refl _, by simp, rfl, by simp⟩ htotal hmax hraised h.range
    (fun r hr => (h.positive r hr).le) (by simpa using h.raised.le)
  simp only [zero_add, List.length_nil] at hinvested hlen
  rw [h.raised] at hinvested
  have hwithin := ht.le htotal hraised hinvested.le
  have hissued := ht.issued
  have hne : t.issueAmounts ≠ [] := fun hnil => by
    rw [hnil, List.length_nil] at hlen
    exact h.invested (List.length_eq_zero_iff.mp hlen.symm)
  have hlast : 0 ≤ t.issueAmounts.getLast hne := ht.amounts _ (List.getLast_mem hne)
  have hlast' : t.issueAmounts.getLast hne ≤ t.totalIssueTmp :=
    ht.sum ▸ List.single_le_sum ht.amounts _ (List.getLast_mem hne)
  unfold maxInt64 at hmax
  refine ⟨⟨tokens.amount, d.investmentsByAsset o.investmentAssetId,
    t.issueAmounts.dropLast ++ [t.issueAmounts.getLast hne + (tokens.amount - t.totalIssueTmp)]⟩, ?_, rfl⟩
  simp only [doEvaluate, bind_eq_ok, fcAssert_eq_ok, getAsset_eq_ok, getAssetId_eq_ok, safe_eq_ok, pure_eq_ok]
  refine ⟨(), h.fee, a, h.asset, true, isPublicOffering_eq_ok.mpr ⟨h.project, h.publicOffering⟩, (), rfl, (), by simp [h.notMarketIssued], true,
    isFinancingEnd_eq_ok.mpr ⟨h.project, h.ended⟩, (), rfl, khd, h.symbol, (), h.notClaimed, (), h.noSupply, core, h.converted, tokens, h.issue, t, hfold, (), hwithin,
    _, ⟨⟨by omega, by omega⟩, rfl⟩, _, addToLast_ok hne ⟨by omega, by omega⟩, (), hinvested, _, ⟨⟨?_, ?_⟩, rfl⟩, (), ?_, rfl⟩
  all_goals rw [h.noSupply, zero_add]
  · omega
  · omega
  · exact h.belowMaxSupply

theorem doApply_ok (ha : d.assets[o.investmentAssetId]? = some a) (hsupply : InInt64 (a.dynamicData.currentSupply + e.totalIssue)) :
    ∃ d', doApply d o e = .ok d' ∧ d'.balances = d.balances := by
  have hok : ∃ d', doApply d o e = .ok d' := by
    simp only [doApply, giveTokens_eq, bind_eq_ok, getAsset_eq_ok, safe_eq_ok, pure_eq_ok]
    exact ⟨_, a, ha, _, ⟨hsupply, rfl⟩, rfl⟩
  obtain ⟨d', hap⟩ := hok
  obtain ⟨-, -, rfl⟩ := doApply_inv hap
  exact ⟨_, hap, by rw [modifyAsset_balances, giveTokens_eq]⟩

end IssueAssetToInvestors

end Khc.Chain
