import Khc.Theorems.StuckEscrow

/-! What a claim of tokens reads of the other investments of the account. Its loop asks for the right to hold the asset of every investment,
before it looks whether the investment is one in the asset that is claimed. -/

namespace Khc.Chain

open Lib Database
open IssueAssetToInvestors (Authorised)

namespace ClaimAssetInvestment
variable {d d' d₁ d₂ : Database} {o : ClaimAssetInvestmentOperation} {e e' : Evaluated} {q : AssetId} {n : Int}
  {objs : List Khc.Chain.AssetInvestment}

/-- The tokens of the investments -/
def tokensOf (objs : List Khc.Chain.AssetInvestment) : Int := (objs.map (·.investmentTokens)).sum

/-- The tokens that the claim pays out, or none where it is rejected -/
def outcome (d : Database) (o : ClaimAssetInvestmentOperation) : Option Int := do
  let e ← (doEvaluate d o).toOption
  let _ ← (doApply d o e).toOption
  return e.tokens

/-- The states agree on the asset, the investments of the account in it, and whether the account may hold it. -/
structure Agree (d₁ d₂ : Database) (o : ClaimAssetInvestmentOperation) : Prop where
  asset : d₁.assets[o.assetId]? = d₂.assets[o.assetId]?
  records : investmentsOf d₁ o.accountId o.assetId = investmentsOf d₂ o.accountId o.assetId
  authorised : ∀ r ∈ investmentsOf d₁ o.accountId o.assetId, Authorised d₁ r ↔ Authorised d₂ r

/-- Nothing about the asset or the investments of the account in it speaks against the claim. -/
structure Claimable (d : Database) (o : ClaimAssetInvestmentOperation) (a : AssetObject) : Prop where
  asset : d.assets[o.assetId]? = some a
  project : a.isProjectAsset = true
  publicOffering : a.projOptions.financingType = khcPublicOffering
  financed : ProjectState.projectInProgress.toNat ≤ a.dynamicData.state.toNat
  issued : 0 < a.dynamicData.investmentConfidentialSupply
  authorised : ∀ r ∈ investmentsOf d o.accountId o.assetId, Authorised d r
  notReceived : ∀ r ∈ investmentsOf d o.accountId o.assetId, r.hasReceiveToken = false
  adds : ∀ l, l <+: investmentsOf d o.accountId o.assetId → InInt64 (tokensOf l)
  positive : 0 < tokensOf (investmentsOf d o.accountId o.assetId)
  covered : tokensOf (investmentsOf d o.accountId o.assetId) ≤ a.dynamicData.investmentCurrentSupply
  left : InInt64 (a.dynamicData.investmentCurrentSupply - tokensOf (investmentsOf d o.accountId o.assetId))

/-- Nothing else does: the account may hold the assets of its other investments, and has room for the tokens. -/
structure Unhindered (d : Database) (o : ClaimAssetInvestmentOperation) : Prop where
  others : ∀ r ∈ d.investmentsByAccount o.accountId, r.investmentAssetId ≠ o.assetId → Authorised d r
  room : InInt64 (d.balances o.accountId o.assetId + tokensOf (investmentsOf d o.accountId o.assetId))

/-! ### The loop -/

@[simp] theorem tokensOf_nil : tokensOf [] = 0 := rfl

@[simp] theorem tokensOf_cons (r : Khc.Chain.AssetInvestment) : tokensOf (r :: objs) = r.investmentTokens + tokensOf objs := by
  rw [tokensOf, List.map_cons, List.sum_cons]
  rfl

/-- What the loop asks for: the right to hold the asset of every investment, and the rest of those in the asset alone. -/
structure Scans (d : Database) (q : AssetId) (objs : List Khc.Chain.AssetInvestment) (e e' : Evaluated) : Prop where
  authorised : ∀ r ∈ objs, Authorised d r
  notReceived : ∀ r ∈ objs.filter (·.investmentAssetId = q), r.hasReceiveToken = false
  adds : ∀ l, l <+: objs.filter (·.investmentAssetId = q) → InInt64 (e.tokens + tokensOf l)
  tokens : e'.tokens = e.tokens + tokensOf (objs.filter (·.investmentAssetId = q))
  objects : e'.investmentObjects = e.investmentObjects ++ objs.filter (·.investmentAssetId = q)

theorem scan_eq_ok {r : Khc.Chain.AssetInvestment} : scan d q e r = .ok e' ↔ Authorised d r ∧
    if r.investmentAssetId = q then r.hasReceiveToken = false ∧ InInt64 (e.tokens + r.investmentTokens) ∧
      e' = ⟨e.tokens + r.investmentTokens, e.investmentObjects ++ [r]⟩
    else e' = e := by
  unfold scan Authorised
  simp only [bind_eq_ok, getAccount_eq_ok, getAsset_eq_ok, fcAssert_eq_ok]
  split
  · simp only [bind_eq_ok, fcAssert_eq_ok, safe_eq_ok, pure_eq_ok]
    constructor
    · rintro ⟨account, hx, a, ha, _, hauth, _, hrec, _, ⟨hsum, rfl⟩, rfl⟩
      exact ⟨⟨account, a, hx, ha, hauth⟩, hrec, hsum, rfl⟩
    · rintro ⟨⟨account, a, hx, ha, hauth⟩, hrec, hsum, rfl⟩
      exact ⟨account, hx, a, ha, (), hauth, (), hrec, _, ⟨hsum, rfl⟩, rfl⟩
  · simp only [pure_eq_ok]
    constructor
    · rintro ⟨account, hx, a, ha, _, hauth, rfl⟩
      exact ⟨⟨account, a, hx, ha, hauth⟩, rfl⟩
    · rintro ⟨⟨account, a, hx, ha, hauth⟩, rfl⟩
      exact ⟨account, hx, a, ha, (), hauth, rfl⟩

theorem scans_nil (he : InInt64 e.tokens) : Scans d q [] e e' ↔ e' = e := by
  constructor
  · rintro ⟨-, -, -, htokens, hobjects⟩
    obtain ⟨tokens, objects⟩ := e'
    rw [List.filter_nil, tokensOf_nil, add_zero] at htokens
    rw [List.filter_nil, List.append_nil] at hobjects
    subst htokens hobjects
    rfl
  · rintro rfl
    refine ⟨by simp, by simp, fun l hl => ?_, by simp, by simp⟩
    rw [List.prefix_nil.mp hl, tokensOf_nil, add_zero]
    exact he

/-- An investment in the asset -/
theorem scans_cons_own {r : Khc.Chain.AssetInvestment} (hr : r.investmentAssetId = q) (he : InInt64 e.tokens) :
    Scans d q (r :: objs) e e' ↔ Authorised d r ∧ r.hasReceiveToken = false ∧ InInt64 (e.tokens + r.investmentTokens) ∧
      Scans d q objs ⟨e.tokens + r.investmentTokens, e.investmentObjects ++ [r]⟩ e' := by
  have hfilter : (r :: objs).filter (·.investmentAssetId = q) = r :: objs.filter (·.investmentAssetId = q) :=
    List.filter_cons_of_pos (by simpa using hr)
  constructor
  · rintro ⟨hauth, hrec, hadds, htokens, hobjects⟩
    rw [hfilter] at hrec hadds htokens hobjects
    obtain ⟨hauth, hauths⟩ := List.forall_mem_cons.mp hauth
    obtain ⟨hrec, hrecs⟩ := List.forall_mem_cons.mp hrec
    refine ⟨hauth, hrec, ?_, hauths, hrecs, fun l hl => ?_, ?_, ?_⟩
    · simpa using hadds [r] (List.prefix_cons_iff.mpr (.inr ⟨[], rfl, List.nil_prefix⟩))
    · rw [add_assoc, ← tokensOf_cons]
      exact hadds _ (List.prefix_cons_iff.mpr (.inr ⟨l, rfl, hl⟩))
    · rw [htokens, tokensOf_cons, add_assoc]
    · rw [hobjects, List.append_assoc]
      rfl
  · rintro ⟨hauth, hrec, -, hauths, hrecs, hadds, htokens, hobjects⟩
    refine ⟨List.forall_mem_cons.mpr ⟨hauth, hauths⟩, ?_, ?_, ?_, ?_⟩ <;> rw [hfilter]
    · exact List.forall_mem_cons.mpr ⟨hrec, hrecs⟩
    · intro l hl
      rcases List.prefix_cons_iff.mp hl with rfl | ⟨rest, rfl, hrest⟩
      · simpa using he
      · rw [tokensOf_cons, ← add_assoc]
        exact hadds rest hrest
    · rw [htokens, tokensOf_cons, add_assoc]
    · rw [hobjects, List.append_assoc]
      rfl

/-- An investment in another asset -/
theorem scans_cons_other {r : Khc.Chain.AssetInvestment} (hr : r.investmentAssetId ≠ q) :
    Scans d q (r :: objs) e e' ↔ Authorised d r ∧ Scans d q objs e e' := by
  have hfilter : (r :: objs).filter (·.investmentAssetId = q) = objs.filter (·.investmentAssetId = q) :=
    List.filter_cons_of_neg (by simpa using hr)
  constructor
  · rintro ⟨hauth, hrecs, hadds, htokens, hobjects⟩
    rw [hfilter] at hrecs hadds htokens hobjects
    obtain ⟨hauth, hauths⟩ := List.forall_mem_cons.mp hauth
    exact ⟨hauth, hauths, hrecs, hadds, htokens, hobjects⟩
  · rintro ⟨hauth, hauths, hrecs, hadds, htokens, hobjects⟩
    rw [← hfilter] at hrecs hadds htokens hobjects
    exact ⟨List.forall_mem_cons.mpr ⟨hauth, hauths⟩, hrecs, hadds, htokens, hobjects⟩

theorem scans_iff (he : InInt64 e.tokens) : objs.foldlM (scan d q) e = .ok e' ↔ Scans d q objs e e' := by
  induction objs generalizing e with
  | nil =>
    rw [scans_nil he]
    exact pure_eq_ok.trans eq_comm
  | cons r objs ih =>
    rw [List.foldlM_cons, bind_eq_ok]
    simp only [scan_eq_ok]
    by_cases hr : r.investmentAssetId = q
    · rw [scans_cons_own hr he]
      simp only [if_pos hr]
      constructor
      · rintro ⟨_, ⟨hauth, hrec, hsum, rfl⟩, h⟩
        exact ⟨hauth, hrec, hsum, (ih hsum).mp h⟩
      · rintro ⟨hauth, hrec, hsum, h⟩
        exact ⟨_, ⟨hauth, hrec, hsum, rfl⟩, (ih hsum).mpr h⟩
    · rw [scans_cons_other hr]
      simp only [if_neg hr]
      constructor
      · rintro ⟨_, ⟨hauth, rfl⟩, h⟩
        exact ⟨hauth, (ih he).mp h⟩
      · rintro ⟨hauth, h⟩
        exact ⟨e, ⟨hauth, rfl⟩, (ih he).mpr h⟩

/-! ### The outcome -/

/-- What the loop asks of the investments in the asset, and of the others -/
theorem scans_investments : Scans d o.assetId (d.investmentsByAccount o.accountId) {} e ↔
    ((∀ r ∈ investmentsOf d o.accountId o.assetId, Authorised d r) ∧
      (∀ r ∈ d.investmentsByAccount o.accountId, r.investmentAssetId ≠ o.assetId → Authorised d r)) ∧
    (∀ r ∈ investmentsOf d o.accountId o.assetId, r.hasReceiveToken = false) ∧
    (∀ l, l <+: investmentsOf d o.accountId o.assetId → InInt64 (tokensOf l)) ∧
    e = ⟨tokensOf (investmentsOf d o.accountId o.assetId), investmentsOf d o.accountId o.assetId⟩ := by
  constructor
  · rintro ⟨hauth, hrecs, hadds, htokens, hobjects⟩
    simp only [zero_add, List.nil_append] at hadds htokens hobjects
    refine ⟨⟨fun r hr => hauth r (List.mem_of_mem_filter hr), fun r hr _ => hauth r hr⟩, hrecs, hadds, ?_⟩
    obtain ⟨tokens, objects⟩ := e
    subst htokens hobjects
    rfl
  · rintro ⟨⟨hown, hother⟩, hrecs, hadds, rfl⟩
    refine ⟨fun r hr => ?_, hrecs, fun l hl => by simpa using hadds l hl, by simp [investmentsOf], by simp [investmentsOf]⟩
    by_cases hq : r.investmentAssetId = o.assetId
    · exact hown r (List.mem_filter.mpr ⟨hr, by simpa using hq⟩)
    · exact hother r hr hq

theorem doEvaluate_eq_ok : doEvaluate d o = .ok e ↔ ∃ a, d.assets[o.assetId]? = some a ∧
    (a.isProjectAsset = true ∧ a.projOptions.financingType = khcPublicOffering) ∧
    ProjectState.projectInProgress.toNat ≤ a.dynamicData.state.toNat ∧ 0 < a.dynamicData.investmentConfidentialSupply ∧
    Scans d o.assetId (d.investmentsByAccount o.accountId) {} e ∧ 0 < e.tokens ∧ e.tokens ≤ a.dynamicData.investmentCurrentSupply := by
  have hloop := @scans_iff d {} e o.assetId (d.investmentsByAccount o.accountId) ⟨by decide, by decide⟩
  unfold doEvaluate
  simp only [bind_eq_ok, getAsset_eq_ok, fcAssert_eq_ok, pure_eq_ok]
  constructor
  · rintro ⟨a, ha, _, hpub, _, rfl, _, hstate, _, hissued, e, hscan, _, hpos, _, hcov, rfl⟩
    exact ⟨a, ha, isPublicOffering_eq_ok.mp hpub, hstate, hissued, hloop.mp hscan, hpos, hcov⟩
  · rintro ⟨a, ha, hpub, hstate, hissued, hscan, hpos, hcov⟩
    exact ⟨a, ha, true, isPublicOffering_eq_ok.mpr hpub, (), rfl, (), hstate, (), hissued, e, hloop.mpr hscan, (), hpos, (), hcov, rfl⟩

theorem doApply_eq_ok {a : AssetObject} (ha : d.assets[o.assetId]? = some a) (hpos : 0 < e.tokens) : (∃ d', doApply d o e = .ok d') ↔
    InInt64 (d.balances o.accountId o.assetId + e.tokens) ∧ InInt64 (a.dynamicData.investmentCurrentSupply - e.tokens) := by
  unfold doApply
  simp only [bind_eq_ok, adjustBalance_eq_ok, getAsset_eq_ok, safe_eq_ok, pure_eq_ok]
  constructor
  · rintro ⟨_, _, ⟨-, hroom, rfl⟩, b, hb, _, ⟨hleft, rfl⟩, rfl⟩
    obtain rfl := Option.some.inj (ha.symm.trans hb)
    exact ⟨hroom hpos.ne', hleft⟩
  · rintro ⟨hroom, hleft⟩
    exact ⟨_, _, ⟨fun hneg => absurd hneg hpos.not_gt, fun _ => hroom, rfl⟩, a, ha, _, ⟨hleft, rfl⟩, rfl⟩

theorem outcome_eq_some : outcome d o = some n ↔
    (∃ a, Claimable d o a) ∧ Unhindered d o ∧ n = tokensOf (investmentsOf d o.accountId o.assetId) := by
  have hrun : outcome d o = some n ↔ ∃ e, doEvaluate d o = .ok e ∧ (∃ d', doApply d o e = .ok d') ∧ n = e.tokens := by
    unfold outcome
    cases doEvaluate d o with
    | error err => simp [Except.toOption]
    | ok e =>
      show ((doApply d o e).toOption.bind fun _ => some e.tokens) = some n ↔ _
      cases happly : doApply d o e with
      | error err => simp [Except.toOption, happly]
      | ok d' => simp [Except.toOption, happly, eq_comm]
  rw [hrun]
  constructor
  · rintro ⟨e, he, happly, rfl⟩
    obtain ⟨a, ha, ⟨hproj, hpub⟩, hstate, hissued, hscan, hpos, hcov⟩ := doEvaluate_eq_ok.mp he
    obtain ⟨hroom, hleft⟩ := (doApply_eq_ok ha hpos).mp happly
    obtain ⟨⟨hown, hothers⟩, hrecs, hadds, rfl⟩ := scans_investments.mp hscan
    exact ⟨⟨a, ha, hproj, hpub, hstate, hissued, hown, hrecs, hadds, hpos, hcov, hleft⟩, ⟨hothers, hroom⟩, rfl⟩
  · rintro ⟨⟨a, h⟩, hfree, rfl⟩
    have hscan := scans_investments.mpr ⟨⟨h.authorised, hfree.others⟩, h.notReceived, h.adds, rfl⟩
    exact ⟨_, doEvaluate_eq_ok.mpr ⟨a, h.asset, ⟨h.project, h.publicOffering⟩, h.financed, h.issued, hscan, h.positive, h.covered⟩,
      (doApply_eq_ok h.asset h.positive).mpr ⟨hfree.room, h.left⟩, rfl⟩

theorem Agree.symm (h : Agree d₁ d₂ o) : Agree d₂ d₁ o where
  asset := h.asset.symm
  records := h.records.symm
  authorised r hr := (h.authorised r (h.records ▸ hr)).symm

theorem Agree.claimable {a : AssetObject} (h : Agree d₁ d₂ o) (hc : Claimable d₁ o a) : Claimable d₂ o a := by
  obtain ⟨ha, hproj, hpub, hstate, hissued, hown, hrecs, hadds, hpos, hcov, hleft⟩ := hc
  refine ⟨h.asset ▸ ha, hproj, hpub, hstate, hissued, fun r hr => ?_, h.records ▸ hrecs, h.records ▸ hadds, h.records ▸ hpos,
    h.records ▸ hcov, h.records ▸ hleft⟩
  rw [← h.records] at hr
  exact (h.authorised r hr).mp (hown r hr)

/-- The outcome is the same in two states that agree on the asset and the account's part in it, where nothing else keeps the tokens from the
    account in either state, or something does in both, or the claim has no chance. -/
theorem outcome_eq_iff (h : Agree d₁ d₂ o) :
    outcome d₁ o = outcome d₂ o ↔ ((∃ a, Claimable d₁ o a) → (Unhindered d₁ o ↔ Unhindered d₂ o)) := by
  have hsome : ∀ n, outcome d₂ o = some n ↔
      (∃ a, Claimable d₁ o a) ∧ Unhindered d₂ o ∧ n = tokensOf (investmentsOf d₁ o.accountId o.assetId) := by
    intro n
    rw [outcome_eq_some, h.records]
    exact and_congr_left fun _ => exists_congr fun a => Iff.intro h.symm.claimable h.claimable
  constructor
  · intro heq hc
    constructor
    · intro hfree
      exact ((hsome _).mp (heq ▸ outcome_eq_some.mpr ⟨hc, hfree, rfl⟩)).2.1
    · intro hfree
      exact (outcome_eq_some.mp (heq ▸ (hsome _).mpr ⟨hc, hfree, rfl⟩)).2.1
  · intro hfree
    refine Option.ext fun n => ?_
    rw [hsome, outcome_eq_some]
    exact and_congr_right fun hc => and_congr_left fun _ => hfree hc

end ClaimAssetInvestment

section
open Sample ClaimAssetInvestment

/-- Besides the offering there is another project, in which account 3 has invested too; the tokens of the offering are issued. -/
def Sample.otherProject : List Step :=
  [create offering,
    .operation 0 (.assetCreate
      { fee := noFee, issuer := 1, symbol := "OTHER", precision := 4, commonOptions := { options with issuerPermissions := whiteList },
        projectAssetOpts := some { offering with name := "other" }, power := some 1000000000000 }),
    maintain, invest 3 200, .operation 0 (.assetInvestment ⟨noFee, 3, 3, ⟨100, 1⟩⟩), maintain, issue]

/-- The issuer of the other project makes the blacklist of account 0 one of its asset. -/
def Sample.blacklistOther : Step :=
  .operation 0 (.assetUpdate ⟨noFee, 1, 3, none, { options with
    issuerPermissions := whiteList, flags := whiteList, coreExchangeRate := ⟨⟨1, 0⟩, ⟨1000, 3⟩⟩, blacklistAuthorities := [0] }⟩)

theorem otherProject_agree : Agree (listed.run otherProject) (listed.run (otherProject ++ [blacklistOther])) ⟨noFee, 3, 2⟩ where
  asset := by decide +kernel
  records := by decide +kernel
  authorised := by decide +kernel

/-- The other project keeps account 3 from its tokens. -/
theorem outcome_differs : ¬∀ (d₁ d₂ : Database) (o : ClaimAssetInvestmentOperation), Agree d₁ d₂ o → outcome d₁ o = outcome d₂ o := by
  intro h
  exact absurd (h _ _ _ otherProject_agree) (by decide +kernel)

theorem outcome_eq_iff_other : ¬((∃ a, Claimable (listed.run otherProject) ⟨noFee, 3, 2⟩ a) →
    (Unhindered (listed.run otherProject) ⟨noFee, 3, 2⟩ ↔ Unhindered (listed.run (otherProject ++ [blacklistOther])) ⟨noFee, 3, 2⟩)) :=
  fun h => absurd ((outcome_eq_iff otherProject_agree).mpr h) (by decide +kernel)

end

end Khc.Chain
