import Khc.Chain.Issue
import Khc.Project.Sound

/-! When the tokens of a project can be issued: as long as none are, nothing but an investor who may not hold the asset keeps
    the issue, and with it the escrow, from being paid out. -/

namespace Khc.Chain

open Lib Database

namespace Project
variable {P : Project} {e : Event}

/-- As long as no tokens are issued, there are none, and nothing has left the escrow of a project that has not failed. -/
structure Unissued (P : Project) : Prop extends P.Sound where
  unissued : P.issued ≤ 0 → P.state ≠ .financingFailue → P.supply = 0 ∧ P.current = P.raised

theorem Unissued.of_initial (h : P.Initial) : P.Unissued where
  toSound := .of_initial h
  unissued _ _ := ⟨h.supply, by rw [h.current, h.raised]⟩

theorem Unissued.apply (h : P.Unissued) (he : P.Enabled e) : (P.apply e).Unissued := by
  refine ⟨h.toSound.apply he, fun hissued hstate => ?_⟩
  have hbefore : P.state ≠ .financingFailue := fun hfail => hstate (h.stays_failed he hfail)
  cases e with
  | invest r asked now =>
    obtain ⟨hsupply, hcurrent⟩ := h.unissued hissued hbefore
    refine ⟨hsupply, ?_⟩
    simp only [Project.apply, hcurrent]
  | issue total amounts =>
    obtain ⟨-, -, hraised, hsupply, -, -, hnonneg, -⟩ := he
    have htotal : total ≤ 0 := hissued
    refine ⟨?_, hraised.symm⟩
    simp only [Project.apply]
    omega
  | refund x => exact absurd he.2.1 hbefore
  | claim amount => exact absurd he.2.2.2.2.1 (not_lt.mpr hissued)
  | receive x => exact absurd he.2.2.1 (not_lt.mpr hissued)
  | mint amount => exact absurd he.2.1 (not_lt.mpr hissued)
  | burn amount =>
    obtain ⟨hsupply, -⟩ := h.unissued hissued hbefore
    obtain ⟨hpos, hle⟩ := he
    omega
  | block maintained => cases maintained <;> exact h.unissued hissued hbefore
  | _ => exact h.unissued hissued hbefore

end Project

/-- The fee of the issue can be paid. -/
structure IssueAssetToInvestors.PaysFee (d : Database) (o : IssueAssetToInvestorsOperation) : Prop where
  converted : ∃ core d₁, d.prepareFee o.issue o.fee = .ok core ∧
    d.parameters.currentFees (.issueAssetToInvestors o) ≤ core ∧ d.convertFee o.fee core = .ok d₁
  paid : ∃ d₂, d.adjustBalance o.issue o.fee.neg = .ok d₂

/-- A project whose tokens are to be issued: its financing has succeeded, somebody has invested, no tokens are issued, and
    what it raised comes to between one token and the maximal supply at its rates. -/
structure ToIssue (d : Database) (p : AssetId) (a : AssetObject) : Prop where
  asset : d.assets[p]? = some a
  project : a.isProjectAsset = true
  publicOffering : a.projOptions.financingType = khcPublicOffering
  ended : a.dynamicData.state = .projectInProgress ∨ a.dynamicData.state = .projectEnd
  invested : d.investmentsByAsset p ≠ []
  notIssued : ¬0 < a.dynamicData.investmentConfidentialSupply
  converts : ∃ khd core tokens, d.findSymbol khdAssetSymbol = some khd ∧
    (Asset.mk a.dynamicData.financingConfidentialSupply khd).mul a.projOptions.khdExchangeRate = .ok core ∧
    core.mul a.options.coreExchangeRate = .ok tokens ∧ 1 ≤ tokens.amount ∧ tokens.amount ≤ a.options.maxSupply

section
variable {d d₀ : Database} {p : AssetId} {P : Project} {a : AssetObject} {now : Nat} {o : IssueAssetToInvestorsOperation}
  {steps : List Step}

theorem Start.unissued (h₀ : Start d₀) (hP : (d₀.run steps).project p = some P) : P.Unissued :=
  run_project (C := fun _ _ => True) (fun _ => .of_initial) (fun _ _ _ _ _ _ he h => h.apply he) h₀
    (along_iff_at.mpr fun _ _ _ => trivial) hP

/-- Nothing but the rights of the investors is missing for an issue. -/
theorem Start.due (h₀ : Start d₀) (h : ToIssue (d₀.run steps) o.investmentAssetId a) (hfee : 0 ≤ o.fee.amount) :
    ∃ khd core tokens, IssueAssetToInvestors.Due (d₀.run steps) o a khd core tokens ∧ 1 ≤ tokens.amount := by
  have hwf := h₀.wellFormed.run steps
  have hunissued := h₀.unissued (project_eq_some.mpr ⟨a, h.asset, h.project, rfl⟩)
  have hnotFailed : a.dynamicData.state ≠ .financingFailue := by
    rcases h.ended with hstate | hstate <;> rw [hstate] <;> decide
  obtain ⟨hsupply, hcurrent⟩ := hunissued.unissued (not_lt.mp h.notIssued) hnotFailed
  obtain ⟨khd, core, tokens, hkhd, hcore, htokens, hmin, hmax⟩ := h.converts
  have hmarket : a.isMarketIssued = false := by
    rw [← Bool.not_eq_true]
    intro hissued
    have hproj := hwf.registry.notBoth a.kind (mem_kinds (mem_of_getElem? h.asset)) hissued
    exact absurd (hproj.symm.trans h.project) Bool.false_ne_true
  exact ⟨khd, core, tokens, ⟨hfee, h.asset, h.project, h.publicOffering, hmarket, h.ended, hkhd, hcurrent.symm, hsupply, hcore,
    htokens, hmax, h.invested, hunissued.positive, hunissued.raised.symm, hunissued.range.2⟩, hmin⟩

/-- An issue that is due is accepted if all investors may hold the asset. -/
theorem applyOperation_issue {khd : AssetId} {core tokens : Asset} (h : IssueAssetToInvestors.Due d o a khd core tokens)
    (hpays : IssueAssetToInvestors.PaysFee d o)
    (hauth : ∀ r ∈ d.investmentsByAsset o.investmentAssetId, IssueAssetToInvestors.Authorised d r) :
    ∃ d' e, d.applyOperation now (.issueAssetToInvestors o) = .ok d' ∧ IssueAssetToInvestors.doEvaluate d o = .ok e ∧
      e.totalIssue = tokens.amount := by
  obtain ⟨e, heval, htotal⟩ := IssueAssetToInvestors.doEvaluate_ok h hauth
  obtain ⟨⟨paid, d₁, hprep, hfee, hconv⟩, d₂, hpaid⟩ := hpays
  obtain rfl := convertFee_inv hconv
  obtain ⟨fees, pool, ha⟩ := charge_getElem? o.fee paid h.asset
  obtain ⟨hcovered, hrange, -⟩ := adjustBalance_eq_ok.mp hpaid
  obtain ⟨hnonneg, hle⟩ := Asset.mul_bounds h.issue
  have hsupply : InInt64 (a.dynamicData.currentSupply + e.totalIssue) := by
    rw [h.noSupply, zero_add, htotal, InInt64]
    unfold maxShareSupply at hle
    omega
  obtain ⟨d₃, hap, hbal⟩ := IssueAssetToInvestors.doApply_ok (o := o) ha hsupply
  rw [charge_balances] at hbal
  refine ⟨d₃.credit o.issue o.fee.neg, e, ?_, heval, htotal⟩
  simp only [Database.applyOperation, Operation.validate, bind_eq_ok, fcAssert_eq_ok, Database.startEvaluate, Operation.feePayer,
    Operation.fee, adjustBalance_eq_ok]
  exact ⟨(), (prepareFee_inv hprep).2.2, paid, hprep, (), hfee, e, heval, _, hconv, d₃, hap, hbal ▸ hcovered, hbal ▸ hrange, rfl⟩

end

/-- The tokens of a project that are to be issued are issued, whoever pays for it, if and only if all of its investors may
    hold the asset. -/
theorem issue_accepted_iff {d₀ : Database} (h₀ : Start d₀) {steps : List Step} {now : Nat} {o : IssueAssetToInvestorsOperation}
    {a : AssetObject} (h : ToIssue (d₀.run steps) o.investmentAssetId a) (hpays : IssueAssetToInvestors.PaysFee (d₀.run steps) o) :
    (d₀.run steps).accepts now (.issueAssetToInvestors o) = true ↔
      ∀ r ∈ (d₀.run steps).investmentsByAsset o.investmentAssetId, IssueAssetToInvestors.Authorised (d₀.run steps) r := by
  rw [accepts_iff]
  constructor
  · rintro ⟨d', hs⟩
    simp only [Database.applyOperation, bind_eq_ok] at hs
    obtain ⟨-, -, hs⟩ := hs
    obtain ⟨core, e, d₂, -, heval, -, -, -⟩ := startEvaluate_inv hs
    exact IssueAssetToInvestors.authorised_of_doEvaluate heval
  · intro hauth
    obtain ⟨core, d₁, hprep, -⟩ := hpays.converted
    obtain ⟨khd, core, tokens, hdue, -⟩ := h₀.due h (prepareFee_inv hprep).2.2
    obtain ⟨d', e, hs, -⟩ := applyOperation_issue hdue hpays hauth
    exact ⟨d', hs⟩

section
open Sample

/-- Account 0 has put account 3 on its blacklist. -/
def Sample.listed : Database :=
  { genesis with accounts := [⟨none, [], []⟩, ⟨none, [], []⟩, ⟨none, [], []⟩, ⟨none, [], [0]⟩] }

theorem Sample.listed_start : Start listed := { genesis_start with }

/-- The first account registers an offering, for which it may use lists. -/
def Sample.createListing : Step :=
  .operation 0 (.assetCreate
    { fee := noFee, issuer := 1, symbol := "PRJ", precision := 4, commonOptions := { options with issuerPermissions := whiteList },
      projectAssetOpts := some offering, power := some 1000000000000 })

/-- It makes the blacklist of account 0 one of its asset. -/
def Sample.blacklist : Step :=
  .operation 0 (.assetUpdate ⟨noFee, 1, 2, none, { options with
    issuerPermissions := whiteList, flags := whiteList, coreExchangeRate := ⟨⟨1, 0⟩, ⟨1000, 2⟩⟩, blacklistAuthorities := [0] }⟩)

/-- It does so after accounts 2 and 3 have invested, or account 2 alone. -/
def Sample.both : List Step := [createListing, maintain, invest 2 100, invest 3 100, blacklist, maintain]
def Sample.alone : List Step := [createListing, maintain, invest 2 200, blacklist, maintain]

/-- Of two investors, one is on the blacklist. -/
theorem issue_blocked : ¬∀ (d₀ : Database) (steps : List Step) (now : Nat) (o : IssueAssetToInvestorsOperation) (a : AssetObject),
    Start d₀ → ToIssue (d₀.run steps) o.investmentAssetId a → IssueAssetToInvestors.PaysFee (d₀.run steps) o →
    (d₀.run steps).accepts now (.issueAssetToInvestors o) = true := by
  intro h
  have hissue : ∃ a, ToIssue (listed.run both) 2 a :=
    ⟨_, (Option.some_get (by decide +kernel)).symm, by decide +kernel, by decide +kernel, .inl (by decide +kernel), by decide +kernel,
      by decide +kernel, 1, ⟨200, 0⟩, ⟨200000, 2⟩, by decide +kernel, by decide +kernel, by decide +kernel, by decide, by decide +kernel⟩
  obtain ⟨a, ha⟩ := hissue
  exact absurd (h listed _ 0 ⟨noFee, 1, 2⟩ a listed_start ha ⟨⟨0, _, by decide +kernel, by decide +kernel, rfl⟩, _, rfl⟩)
    (by decide +kernel)

/-- The other one gets the tokens if it invests alone. -/
theorem issue_accepted_alone : (listed.run alone).accepts 0
    (.issueAssetToInvestors ⟨noFee, 1, 2⟩) = true := by
  have hissue : ∃ a, ToIssue (listed.run alone) 2 a :=
    ⟨_, (Option.some_get (by decide +kernel)).symm, by decide +kernel, by decide +kernel, .inl (by decide +kernel), by decide +kernel,
      by decide +kernel, 1, ⟨200, 0⟩, ⟨200000, 2⟩, by decide +kernel, by decide +kernel, by decide +kernel, by decide, by decide +kernel⟩
  obtain ⟨a, ha⟩ := hissue
  refine (issue_accepted_iff listed_start ha ⟨⟨0, _, by decide +kernel, by decide +kernel, rfl⟩, _, rfl⟩).mpr fun r hr => ?_
  have hinvestor : ∀ r ∈ (listed.run alone).investmentsByAsset 2,
      r.investmentAccountId = 2 ∧ r.investmentAssetId = 2 := by decide +kernel
  obtain ⟨haccount, hasset⟩ := hinvestor r hr
  refine ⟨⟨none, [], []⟩, a, by rw [haccount]; decide +kernel, hasset ▸ ha.asset, ?_⟩
  rw [hasset]
  have hoptions : ∀ a ∈ (listed.run alone).assets[2]?,
      (listed.run alone).isAuthorizedAsset ⟨none, [], []⟩ 2 a = true := by
    decide +kernel
  exact hoptions a ha.asset

end

end Khc.Chain
