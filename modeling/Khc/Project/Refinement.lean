import Khc.Project.Model

/-! The chain refines the projects: every step of a well-formed state is an enabled event for every project there,
    and leaves the project that the event makes of it. A project that a step registers is an initial one. -/

namespace Khc.Chain

open Lib Database

namespace Project
variable {P : Project} {e : Event} {n : Int}

@[simp] theorem hold_zero : P.hold 0 = P := by
  simp [hold]

theorem hold_hold (m : Int) : (P.hold m).hold n = P.hold (m + n) := by
  simp [hold, add_assoc]

/-- Tokens held do not matter to an event. -/
theorem apply_hold : (P.hold n).apply e = (P.apply e).hold n := by
  cases e with
  | receive x =>
    simp only [apply, hold, tokensOf]
    congr 1
    ring
  | mint amount =>
    simp only [apply, hold]
    congr 1
    ring
  | burn amount =>
    simp only [apply, hold]
    congr 1
    ring
  | block maintained =>
    cases maintained with
    | true => rfl
    | false => rfl
  | _ => rfl

end Project

section
variable {d d' d₁ d₂ : Database} {p : AssetId} {P P₁ : Project} {core : Int} {now : Nat}

theorem project_records (hP : d.project p = some P) : P.records = d.investmentsByAsset p := by
  obtain ⟨a, -, -, rfl⟩ := project_eq_some.mp hP
  rfl

theorem project_asset (hP : d.project p = some P) : ∃ a, d.assets[p]? = some a ∧ a.isProjectAsset = true ∧
    P = a.project d.headBlockNumber (d.held p) P.records := by
  obtain ⟨a, ha, hproj, rfl⟩ := project_eq_some.mp hP
  exact ⟨a, ha, hproj, rfl⟩

/-- The project of an asset that has been looked up. -/
theorem project_of_asset {a : AssetObject} (ha : d.assets[p]? = some a) (hP : d.project p = some P) :
    P = a.project d.headBlockNumber (d.held p) P.records := by
  obtain ⟨b, hb, -, hPb⟩ := project_asset hP
  rwa [← Option.some.inj (ha.symm.trans hb)] at hPb

theorem WellFormed.ids_nodup (h : WellFormed d) : (d.investments.map (·.id)).Nodup := by
  have hids := h.recorded.ids
  rw [origins, List.map_map] at hids
  have hids' : d.investments.map (·.id) = List.range _ := hids
  rw [hids']
  exact List.nodup_range

/-- The fee around an operation that is an event for a project. -/
theorem startEvaluate_project {α : Type} {op : Operation} {ev : Eval α} {ap : Database → Int → α → Eval Database}
    {e : Event} (h : WellFormed d) (hP : d.project p = some P)
    (hkeep : ∀ core r d₂ P₁, d.FeeTaken op → WellFormed (d.charge op.fee core) → ev = .ok r →
      ap (d.charge op.fee core) core r = .ok d₂ → (d.charge op.fee core).project p = some P₁ →
      (∃ n, P₁ = P.hold n) → d₂.accounts = d.accounts ∧ d₂.project p = some (P₁.apply e))
    (hs : d.startEvaluate op ev ap = .ok d') : d'.project p = some (P.apply e) := by
  obtain ⟨core, r, d₂, hfee, he, ha, -, rfl⟩ := startEvaluate_inv hs
  have hcharge := project_charge (c := core) hfee.asset (h.project_ne_zero hP) hP
  obtain ⟨hacc, hproj⟩ := hkeep core r d₂ _ hfee (h.charge hfee.nonneg) he ha hcharge ⟨_, rfl⟩
  have hpaid := project_credit (δ := op.fee.neg) (x := op.feePayer) (by rw [hacc]; exact hfee.payer) hproj
  rw [hpaid, Project.apply_hold, Project.hold_hold]
  have hzero : (if op.fee.assetId = p then op.fee.amount else 0) +
      (if op.fee.neg.assetId = p then op.fee.neg.amount else 0) = 0 := by
    by_cases hp : op.fee.assetId = p
    · simp [Asset.neg, hp]
    · simp [Asset.neg, hp]
  rw [hzero, Project.hold_zero]

/-! ### asset_investment -/

theorem AssetInvestment.project_doApply {o : AssetInvestmentOperation} (h : WellFormed d₁)
    (hP : d₁.project p = some P₁) (hkhd : ∃ k, d₁.assets[o.amount.assetId]? = some k ∧ k.symbol = khdAssetSymbol)
    (hx : o.accountId < d₁.accounts.length) (hs : AssetInvestment.doApply d₁ now o = .ok d₂) :
    d₂.accounts = d₁.accounts ∧ d₂.project p = some (P₁.apply (if o.investmentAssetId = p then
      .invest (AssetInvestment.newInvestment d₁ o (P₁.accepted o.amount.amount)) o.amount.amount now else .idle)) := by
  obtain ⟨a, ha, -, -, rfl⟩ := AssetInvestment.doApply_inv hs
  obtain ⟨k, hk, hsym⟩ := hkhd
  have hasset := project_modifyAsset (q := o.investmentAssetId) (g := fun P => { P with
      options := if P.Fills o.amount.amount then AssetInvestment.advancedEnd P.head now P.options else P.options
      raised := P.raised + P.accepted o.amount.amount
      current := P.current + P.accepted o.amount.amount
      state := AssetInvestment.investedState (decide (P.Fills o.amount.amount)) P.state }) hP
    (fun b => congrArg AssetKind.project
      (AssetInvestment.kind_investedAsset d₁.headBlockNumber now o.amount.amount b)) (fun _ => rfl) fun b n rs => by
      simp only [AssetInvestment.investedAsset, AssetObject.project, decide_eq_true_eq]
      rfl
  refine ⟨rfl, ?_⟩
  simp only [AssetInvestment.invested]
  rw [project_credit_ne (by exact hx) (h.khd_ne_project hP hk hsym), project_createInvestment _ hasset]
  by_cases hp : o.investmentAssetId = p
  · subst hp
    obtain ⟨b, hb, -, rfl⟩ := project_eq_some.mp hP
    obtain rfl := Option.some.inj (hb.symm.trans ha)
    simp only [AssetInvestment.newInvestment, if_true]
    rfl
  · have hrecords : P₁.records ++ [] = P₁.records := List.append_nil _
    simp only [AssetInvestment.newInvestment, hp, if_false, hrecords, Project.apply]

/-! ### issue_asset_to_investors -/

/-- The investments of an asset are the only ones that get tokens from it. -/
theorem records_giveTokens (h : WellFormed d) (q : AssetId) {amounts : List Int}
    (hlen : amounts.length = (d.investmentsByAsset q).length) :
    (IssueAssetToInvestors.giveTokens d ((d.investmentsByAsset q).zip amounts)).investmentsByAsset p =
      if q = p then List.zipWith AssetInvestment.give (d.investmentsByAsset q) amounts
      else d.investmentsByAsset p := by
  have hfilter : (IssueAssetToInvestors.giveTokens d ((d.investmentsByAsset q).zip amounts)).investmentsByAsset p =
      List.foldl (fun l (s : AssetInvestment × Int) => updateKey (fun r : AssetInvestment => r.id) s.1.id (·.give s.2) l)
        (d.investmentsByAsset p) ((d.investmentsByAsset q).zip amounts) := by
    rw [IssueAssetToInvestors.giveTokens_eq]
    refine foldl_filter (fun l s => ?_) _ _
    exact filter_updateKey (f := (AssetInvestment.give · s.2)) fun _ => rfl
  rw [hfilter]
  have hnodup := h.ids_nodup
  by_cases hq : q = p
  · subst hq
    rw [if_pos rfl]
    exact foldl_updateKey_zip (g := AssetInvestment.give) (fun _ _ => rfl) ((List.filter_sublist.map _).nodup hnodup) hlen
  · rw [if_neg hq]
    refine foldl_fixed_mem fun s hs => updateKey_of_notMem fun hid => ?_
    obtain ⟨r, hr, heq⟩ := List.mem_map.mp hid
    obtain ⟨hs', hsq⟩ := mem_investmentsByAsset.mp (List.of_mem_zip (a := s.1) (b := s.2) hs).1
    obtain ⟨hr', hrp⟩ := mem_investmentsByAsset.mp hr
    obtain rfl := List.inj_on_of_nodup_map hnodup hr' hs' heq
    exact hq (hsq.symm.trans hrp)

theorem IssueAssetToInvestors.project_doApply {o : IssueAssetToInvestorsOperation}
    {e : IssueAssetToInvestors.Evaluated} (h : WellFormed d₁) (hP : d₁.project p = some P₁)
    (hobjs : e.investmentObjects = d₁.investmentsByAsset o.investmentAssetId)
    (hlen : e.issueAmounts.length = (d₁.investmentsByAsset o.investmentAssetId).length)
    (hs : IssueAssetToInvestors.doApply d₁ o e = .ok d₂) :
    d₂.accounts = d₁.accounts ∧ d₂.project p = some (P₁.apply (if o.investmentAssetId = p then
      .issue e.totalIssue e.issueAmounts else .idle)) := by
  obtain ⟨a, -, rfl⟩ := IssueAssetToInvestors.doApply_inv hs
  rw [hobjs]
  have hrecords := records_giveTokens (p := p) h o.investmentAssetId hlen
  have hgive : (IssueAssetToInvestors.giveTokens d₁ ((d₁.investmentsByAsset o.investmentAssetId).zip
      e.issueAmounts)).project p = some { P₁ with
        records := (if o.investmentAssetId = p then
          List.zipWith AssetInvestment.give (d₁.investmentsByAsset o.investmentAssetId) e.issueAmounts
        else d₁.investmentsByAsset p) } := by
    rw [IssueAssetToInvestors.giveTokens_eq] at hrecords ⊢
    exact project_investments hP hrecords
  have hasset := project_modifyAsset (q := o.investmentAssetId)
    (f := IssueAssetToInvestors.issuedAsset e.totalIssue) (g := fun P => { P with
      supply := P.supply + e.totalIssue
      issued := e.totalIssue
      unclaimed := e.totalIssue }) hgive (fun _ => rfl) (fun _ => rfl) fun _ _ _ => rfl
  refine ⟨by rw [IssueAssetToInvestors.giveTokens_eq]; rfl, hasset.trans ?_⟩
  by_cases hp : o.investmentAssetId = p
  · subst hp
    simp only [if_true, Project.apply, project_records hP]
  · simp only [hp, if_false, Project.apply, ← project_records hP]

/-! ### refund_investment and claim_asset_investment -/

/-- The investments of an asset after a mark of some investments. -/
theorem records_mark {f : AssetInvestment → AssetInvestment} {q : AssetInvestment → Bool} (h : WellFormed d)
    (hf : ∀ r, (f r).investmentAssetId = r.investmentAssetId) :
    (d.investments.map fun r => if r.id ∈ (d.investments.filter q).map (·.id) then f r else r).filter
        (·.investmentAssetId = p) =
      (d.investmentsByAsset p).map fun r => if q r then f r else r := by
  rw [map_mark_keys h.ids_nodup, filter_mark fun r => by rw [hf]]
  rfl

theorem refundables_eq (x : AccountId) (q : AssetId) : RefundInvestment.refundables d x q =
    d.investments.filter fun r => RefundInvestment.refundable q r && decide (r.investmentAccountId = x) := by
  rw [RefundInvestment.refundables, investmentsByAccount, List.filter_filter]

/-- What an account can get back from a project is what the project owes it. -/
theorem refundables_records (hP : d.project p = some P) (x : AccountId) :
    RefundInvestment.refundables d x p = P.records.filter (·.owed x) := by
  rw [project_records hP, refundables_eq, investmentsByAsset, List.filter_filter]
  refine List.filter_congr fun r _ => ?_
  by_cases h₁ : r.investmentAssetId = p <;> by_cases h₂ : r.investmentAccountId = x <;>
    simp [RefundInvestment.refundable, AssetInvestment.owed, h₁, h₂]

theorem RefundInvestment.project_refunded {o : RefundInvestmentOperation} {khd : AssetId} (h : WellFormed d₁)
    (hP : d₁.project p = some P₁) (hkhd : d₁.findSymbol khdAssetSymbol = some khd)
    (hx : o.accountId < d₁.accounts.length) :
    (RefundInvestment.refunded d₁ o khd (RefundInvestment.refundables d₁ o.accountId o.investmentAssetId)).project p =
      some (P₁.apply (if o.investmentAssetId = p then .refund o.accountId else .idle)) := by
  obtain ⟨k, hk, hsym⟩ := findSymbol_eq_some hkhd
  have hasset := project_modifyAsset (q := o.investmentAssetId) (f := RefundInvestment.refundedAsset
      (RefundInvestment.amountOf (RefundInvestment.refundables d₁ o.accountId o.investmentAssetId)))
    (g := fun P => { P with current := P.current -
      RefundInvestment.amountOf (RefundInvestment.refundables d₁ o.accountId o.investmentAssetId) }) hP
    (fun _ => rfl) (fun _ => rfl) fun _ _ _ => rfl
  have hrecords := records_mark (p := p) (f := AssetInvestment.markRefunded)
    (q := fun r => RefundInvestment.refundable o.investmentAssetId r && decide (r.investmentAccountId = o.accountId))
    h fun _ => rfl
  rw [← refundables_eq] at hrecords
  have hpaid := (project_credit_ne (n := RefundInvestment.amountOf
    (RefundInvestment.refundables d₁ o.accountId o.investmentAssetId)) (by exact hx)
    (h.khd_ne_project hP hk hsym)).trans hasset
  refine (project_investments hpaid hrecords).trans ?_
  congr 1
  by_cases hp : o.investmentAssetId = p
  · subst hp
    have hamount : RefundInvestment.amountOf (RefundInvestment.refundables d₁ o.accountId o.investmentAssetId) =
        P₁.owedTo o.accountId := by
      rw [refundables_records hP]
      rfl
    simp only [if_true, Project.apply, hamount]
    congr 1
    rw [project_records hP]
    refine List.map_congr_left fun r hr => ?_
    have hrp := (mem_investmentsByAsset.mp hr).2
    by_cases hacc : r.investmentAccountId = o.accountId
    · by_cases hret : r.returnFinancingFlag = true
      · obtain ⟨⟩ := r
        simp_all [RefundInvestment.refundable, AssetInvestment.markRefunded]
      · simp [RefundInvestment.refundable, hrp, hacc, hret]
    · simp [hacc]
  · simp only [hp, if_false, Project.apply]
    have hsame : (d₁.investmentsByAsset p).map (fun r => if (RefundInvestment.refundable o.investmentAssetId r &&
        decide (r.investmentAccountId = o.accountId)) = true then r.markRefunded else r) = P₁.records := by
      rw [project_records hP]
      conv_rhs => rw [← List.map_id (d₁.investmentsByAsset p)]
      refine List.map_congr_left fun r hr => if_neg fun hsel => hp ?_
      have hrq : r.investmentAssetId = o.investmentAssetId := by
        simp only [RefundInvestment.refundable, Bool.and_eq_true, decide_eq_true_eq] at hsel
        exact hsel.1.1
      exact hrq.symm.trans (mem_investmentsByAsset.mp hr).2
    rw [hsame]

theorem investmentsOf_eq (x : AccountId) (q : AssetId) : ClaimAssetInvestment.investmentsOf d x q =
    d.investments.filter fun r => decide (r.investmentAssetId = q) && decide (r.investmentAccountId = x) := by
  rw [ClaimAssetInvestment.investmentsOf, investmentsByAccount, List.filter_filter]

theorem investmentsOf_records (hP : d.project p = some P) (x : AccountId) :
    ClaimAssetInvestment.investmentsOf d x p = P.records.filter (·.investmentAccountId = x) := by
  rw [project_records hP]
  exact investmentsByAccount_filter x p

theorem ClaimAssetInvestment.project_doApply {o : ClaimAssetInvestmentOperation} {e : ClaimAssetInvestment.Evaluated}
    (h : WellFormed d₁) (hP : d₁.project p = some P₁)
    (hobjs : e.investmentObjects = ClaimAssetInvestment.investmentsOf d₁ o.accountId o.assetId)
    (htokens : e.tokens =
      ((ClaimAssetInvestment.investmentsOf d₁ o.accountId o.assetId).map (·.investmentTokens)).sum)
    (hx : o.accountId < d₁.accounts.length) (hs : ClaimAssetInvestment.doApply d₁ o e = .ok d₂) :
    d₂.accounts = d₁.accounts ∧
      d₂.project p = some (P₁.apply (if o.assetId = p then .receive o.accountId else .idle)) := by
  obtain rfl := ClaimAssetInvestment.doApply_inv hs
  have hasset := project_modifyAsset (q := o.assetId) (f := ClaimAssetInvestment.receivedAsset e.tokens)
    (g := fun P => { P with unclaimed := P.unclaimed - e.tokens })
    (project_credit (δ := ⟨e.tokens, o.assetId⟩) hx hP) (fun _ => rfl) (fun _ => rfl) fun _ _ _ => rfl
  have hrecords := records_mark (p := p) (f := AssetInvestment.markReceived)
    (q := fun r => decide (r.investmentAssetId = o.assetId) && decide (r.investmentAccountId = o.accountId))
    h fun _ => rfl
  rw [← investmentsOf_eq, ← hobjs] at hrecords
  refine ⟨rfl, (project_investments hasset hrecords).trans ?_⟩
  congr 1
  by_cases hp : o.assetId = p
  · subst hp
    simp only [if_true, Project.apply, Project.hold, htokens, investmentsOf_records hP, Project.tokensOf]
    congr 1
    rw [project_records hP]
    refine List.map_congr_left fun r hr => ?_
    simp [(mem_investmentsByAsset.mp hr).2]
  · simp only [hp, if_false, Project.apply, Project.hold_zero]
    have hsame : (d₁.investmentsByAsset p).map (fun r => if (decide (r.investmentAssetId = o.assetId) &&
        decide (r.investmentAccountId = o.accountId)) = true then r.markReceived else r) = P₁.records := by
      rw [project_records hP]
      conv_rhs => rw [← List.map_id (d₁.investmentsByAsset p)]
      refine List.map_congr_left fun r hr => if_neg fun hsel => hp ?_
      simp only [Bool.and_eq_true, decide_eq_true_eq] at hsel
      exact hsel.1.symm.trans (mem_investmentsByAsset.mp hr).2
    rw [hsame]

/-! ### claim_bitasset_investment -/

theorem ClaimBitassetInvestment.project_doApply {o : ClaimBitassetInvestmentOperation}
    {e : ClaimBitassetInvestment.Evaluated} (h : WellFormed d₁) (hP : d₁.project p = some P₁)
    (hkhd : ∃ k, d₁.assets[e.khdAmount.assetId]? = some k ∧ k.symbol = khdAssetSymbol)
    (htimes : o.assetId = p → e.claimTimes = P₁.claimTimes + 1) (hx : o.accountId < d₁.accounts.length)
    (hs : ClaimBitassetInvestment.doApply d₁ o e = .ok d₂) :
    d₂.accounts = d₁.accounts ∧
      d₂.project p = some (P₁.apply (if o.assetId = p then .claim e.khdAmount.amount else .idle)) := by
  obtain rfl := ClaimBitassetInvestment.doApply_inv hs
  obtain ⟨k, hk, hsym⟩ := hkhd
  have hpaid := (project_credit_ne (n := e.khdAmount.amount) hx (h.khd_ne_project hP hk hsym)).trans hP
  have hasset := project_modifyAsset (q := o.assetId)
    (f := ClaimBitassetInvestment.claimedAsset e.khdAmount.amount e.claimTimes)
    (g := fun P => { P with current := P.current - e.khdAmount.amount, claimTimes := e.claimTimes }) hpaid
    (fun _ => rfl) (fun _ => rfl) fun _ _ _ => rfl
  refine ⟨rfl, hasset.trans ?_⟩
  by_cases hp : o.assetId = p
  · simp only [hp, if_true, htimes hp, Project.apply]
  · simp only [hp, if_false, Project.apply]

/-! ### The general asset operations -/

theorem AssetIssue.project_doApply {o : AssetIssueOperation} (hP : d₁.project p = some P₁)
    (hx : o.issueToAccount < d₁.accounts.length) (hs : AssetIssue.doApply d₁ o = .ok d₂) :
    d₂.accounts = d₁.accounts ∧ d₂.project p =
      some (P₁.apply (if o.assetToIssue.assetId = p then .mint o.assetToIssue.amount else .idle)) := by
  obtain rfl := AssetIssue.doApply_inv hs
  have hasset := project_modifyAsset (q := o.assetToIssue.assetId) (f := suppliedAsset o.assetToIssue.amount)
    (g := fun P => { P with supply := P.supply + o.assetToIssue.amount })
    (project_credit (δ := o.assetToIssue) hx hP) (fun _ => rfl) (fun _ => rfl) fun _ _ _ => rfl
  refine ⟨rfl, hasset.trans ?_⟩
  by_cases hp : o.assetToIssue.assetId = p
  · simp only [hp, if_true, Project.apply, Project.hold]
  · simp only [hp, if_false, Project.apply, Project.hold_zero]

theorem AssetReserve.project_doApply {o : AssetReserveOperation} (hP : d₁.project p = some P₁)
    (hpos : 0 < o.amountToReserve.amount) (hx : o.payer < d₁.accounts.length)
    (hs : AssetReserve.doApply d₁ o = .ok d₂) :
    d₂.accounts = d₁.accounts ∧ d₂.project p =
      some (P₁.apply (if o.amountToReserve.assetId = p then .burn o.amountToReserve.amount else .idle)) := by
  obtain ⟨-, rfl⟩ := AssetReserve.doApply_inv hpos hs
  have hasset := project_modifyAsset (q := o.amountToReserve.assetId) (f := suppliedAsset (-o.amountToReserve.amount))
    (g := fun P => { P with supply := P.supply + -o.amountToReserve.amount })
    (project_credit (δ := o.amountToReserve.neg) hx hP) (fun _ => rfl) (fun _ => rfl) fun _ _ _ => rfl
  refine ⟨rfl, hasset.trans ?_⟩
  by_cases hp : o.amountToReserve.assetId = p
  · simp only [hp, Asset.neg, if_true, Project.apply, Project.hold, Int.sub_eq_add_neg]
  · simp only [hp, Asset.neg, if_false, Project.apply, Project.hold_zero]

theorem AssetUpdate.project_doApply {o : AssetUpdateOperation} (hP : d₁.project p = some P₁)
    (hs : AssetUpdate.doApply d₁ o = .ok d₂) : d₂.accounts = d₁.accounts ∧ d₂.project p =
      some (P₁.apply (if o.assetToUpdate = p then .update o.newOptions.maxSupply else .idle)) := by
  obtain rfl := AssetUpdate.doApply_inv hs
  have hasset := project_modifyAsset (q := o.assetToUpdate) (f := updatedAsset o)
    (g := fun P => { P with maxSupply := o.newOptions.maxSupply }) hP (fun _ => rfl) (fun _ => rfl) fun _ _ _ => rfl
  refine ⟨rfl, hasset.trans ?_⟩
  by_cases hp : o.assetToUpdate = p
  · simp only [hp, if_true, Project.apply]
  · simp only [hp, if_false, Project.apply]

theorem AssetUpdateIssuer.project_doApply {o : AssetUpdateIssuerOperation} (hP : d₁.project p = some P₁)
    (hs : AssetUpdateIssuer.doApply d₁ o = .ok d₂) : d₂.accounts = d₁.accounts ∧ d₂.project p = some P₁ := by
  obtain rfl := AssetUpdateIssuer.doApply_inv hs
  have hasset := project_modifyAsset (q := o.assetToUpdate) (f := fun a => { a with issuer := o.newIssuer })
    (g := id) hP (fun _ => rfl) (fun _ => rfl) fun _ _ _ => rfl
  exact ⟨rfl, hasset.trans (by rw [id_eq, ite_self])⟩

theorem Transfer.project_doApply {o : TransferOperation} (hP : d₁.project p = some P₁)
    (hx : o.sender < d₁.accounts.length) (hy : o.receiver < d₁.accounts.length)
    (hs : Transfer.doApply d₁ o = .ok d₂) : d₂.accounts = d₁.accounts ∧ d₂.project p = some P₁ := by
  obtain rfl := Transfer.doApply_inv hs
  have hpaid := project_credit (x := o.receiver) (δ := o.amount) (by exact hy)
    (project_credit (δ := o.amount.neg) hx hP)
  refine ⟨rfl, hpaid.trans ?_⟩
  rw [Project.hold_hold]
  by_cases hp : o.amount.assetId = p
  · simp [Asset.neg, hp]
  · simp [Asset.neg, hp]

theorem AssetCreate.project_doApply {op : AssetCreateOperation} {state : ProjectState} (hp : p ≠ 0)
    (hP : d₁.project p = some P₁) (hs : AssetCreate.doApply d₁ op core state = .ok d₂) :
    d₂.accounts = d₁.accounts ∧ d₂.project p = some P₁ := by
  obtain ⟨pool, locks, rfl⟩ := AssetCreate.doApply_inv hs
  obtain ⟨n, hodd⟩ := AssetCreate.countOddFee_eq d₁ core
  rw [hodd]
  have hasset := project_modifyAsset (q := 0) (f := suppliedAsset n)
    (g := fun P => { P with supply := P.supply + n }) hP (fun _ => rfl) (fun _ => rfl) fun _ _ _ => rfl
  rw [if_neg hp.symm] at hasset
  refine ⟨rfl, ?_⟩
  rw [← hasset]
  obtain ⟨a, ha, -⟩ := project_asset hasset
  have hkept : (AssetCreate.addAsset (d₁.modifyAsset 0 (suppliedAsset n)) (AssetCreate.newAsset d₁ op state pool)
      locks).assets[p]? = (d₁.modifyAsset 0 (suppliedAsset n)).assets[p]? :=
    List.getElem?_append_left (lt_of_getElem? ha)
  exact project_congr hkept rfl (held_congr rfl rfl hkept) rfl

/-! ### The end of a block -/

theorem getD_stay (s t : ProjectState) : (if s = t then none else some t).getD s = t := by
  by_cases h : s = t
  · rw [if_pos h, Option.getD_none, h]
  · rw [if_neg h, Option.getD_some]

/-- The cascade of `update_asset_project_states` gives a project its next state. -/
theorem nextProjectState_getD {dyn : AssetDynamicData} (hstate : dyn.state = P.state)
    (hraised : dyn.financingConfidentialSupply = P.raised) :
    (nextProjectState P.head P.options (P.options.financingType == khcPublicOffering) dyn).getD P.state =
      P.nextState := by
  simp only [nextProjectState, Project.nextState, hstate, hraised, beq_iff_eq, ge_iff_le]
  by_cases hend : P.state = .projectEnd ∨ P.state = .financingFailue
  · rw [if_pos hend, if_pos hend, Option.getD_none]
  rw [if_neg hend, if_neg hend]
  by_cases hpub : P.options.financingType = khcPublicOffering
  · rw [if_pos hpub, if_pos hpub]
    by_cases hstart : P.head < P.options.startFinancingBlockNum
    · rw [if_pos hstart, if_pos hstart, getD_stay]
    rw [if_neg hstart, if_neg hstart]
    by_cases hwin : P.head < P.options.endFinancingBlockNum
    · rw [if_pos ⟨not_lt.mp hstart, hwin⟩, if_pos hwin]
      by_cases hmax : P.raised = P.options.maxFinancingAmount
      · rw [if_pos hmax, if_pos hmax, getD_stay]
      · rw [if_neg hmax, if_neg hmax, getD_stay]
    rw [if_neg fun h => hwin h.2, if_neg hwin]
    split
    · exact getD_stay _ _
    · split
      · exact getD_stay _ _
      · exact getD_stay _ _
  · rw [if_neg hpub, if_neg hpub]
    split
    · rfl
    · rfl

theorem updateProject_state {a : AssetObject} (hproj : a.isProjectAsset = true) (head : Nat) (n : Int)
    (rs : List AssetInvestment) : (updateProject head a).project head n rs =
      { a.project head n rs with state := (a.project head n rs).nextState } := by
  have hnext : (nextProjectState head a.projOptions (a.projOptions.financingType == khcPublicOffering)
      a.dynamicData).getD a.dynamicData.state = (a.project head n rs).nextState :=
    nextProjectState_getD (P := a.project head n rs) rfl rfl
  unfold updateProject
  rw [if_pos hproj]
  cases hstate : nextProjectState head a.projOptions (a.projOptions.financingType == khcPublicOffering)
      a.dynamicData with
  | none =>
    rw [hstate, Option.getD_none] at hnext
    rw [← hnext]
    rfl
  | some state =>
    rw [hstate, Option.getD_some] at hnext
    rw [← hnext]
    rfl

theorem project_endBlock (hP : d.project p = some P) (timestamp : Nat) (maintenance : Option ChainParameters) :
    (d.endBlock timestamp maintenance).project p = some (P.apply (.block maintenance.isSome)) := by
  obtain ⟨a, ha, hproj, rfl⟩ := project_eq_some.mp hP
  cases maintenance with
  | none => exact project_eq_some.mpr ⟨a, ha, hproj, rfl⟩
  | some parameters =>
    obtain ⟨state, hstate⟩ := updateProject_eq (d.headBlockNumber + 1) a
    have hasset : (d.endBlock timestamp (some parameters)).assets[p]? =
        some (updateProject (d.headBlockNumber + 1) a) := by
      simp only [Database.endBlock, updateAssetProjectStates, List.getElem?_map, ha, Option.map_some]
    have hheld : (d.endBlock timestamp (some parameters)).held p = d.held p := by
      rw [held, accumulatedFees_of hasset, hstate, held, accumulatedFees_of ha]
      rfl
    refine project_eq_some.mpr ⟨_, hasset, by rw [hstate]; exact hproj, ?_⟩
    rw [hheld]
    exact (updateProject_state hproj (d.headBlockNumber + 1) (d.held p) (d.investmentsByAsset p)).symm

/-! ### The refinement -/

theorem project_transfer {o : TransferOperation} (h : WellFormed d) (hP : d.project p = some P)
    (hs : d.applyOperation now (.transfer o) = .ok d') : d'.project p = some P := by
  simp only [Database.applyOperation, bind_eq_ok] at hs
  obtain ⟨-, -, hs⟩ := hs
  refine startEvaluate_project (e := .idle) h hP (fun core _ d₂ P₁ hfee _ he hap hP₁ _ => ?_) hs
  have hkept := Transfer.project_doApply hP₁ (by rw [charge_accounts]; exact hfee.payer)
    (by rw [charge_accounts]; exact (Transfer.doEvaluate_inv he).receiver) hap
  rwa [charge_accounts] at hkept

theorem project_assetCreate {o : AssetCreateOperation} (h : WellFormed d) (hP : d.project p = some P)
    (hs : d.applyOperation now (.assetCreate o) = .ok d') : d'.project p = some P := by
  simp only [Database.applyOperation, bind_eq_ok] at hs
  obtain ⟨-, -, hs⟩ := hs
  refine startEvaluate_project (e := .idle) h hP (fun core _ d₂ P₁ _ _ _ hap hP₁ _ => ?_) hs
  have hkept := AssetCreate.project_doApply (h.project_ne_zero hP) hP₁ hap
  rwa [charge_accounts] at hkept

theorem project_assetUpdate {o : AssetUpdateOperation} (h : WellFormed d) (hP : d.project p = some P)
    (hs : d.applyOperation now (.assetUpdate o) = .ok d') :
    d'.project p = some (P.apply (Operation.event d now p (.assetUpdate o))) := by
  simp only [Database.applyOperation, bind_eq_ok] at hs
  obtain ⟨-, -, hs⟩ := hs
  refine startEvaluate_project h hP (fun core _ d₂ P₁ _ _ _ hap hP₁ _ => ?_) hs
  have hkept := AssetUpdate.project_doApply hP₁ hap
  rwa [charge_accounts] at hkept

theorem project_assetUpdateIssuer {o : AssetUpdateIssuerOperation} (h : WellFormed d) (hP : d.project p = some P)
    (hs : d.applyOperation now (.assetUpdateIssuer o) = .ok d') : d'.project p = some P := by
  simp only [Database.applyOperation, bind_eq_ok] at hs
  obtain ⟨-, -, hs⟩ := hs
  refine startEvaluate_project (e := .idle) h hP (fun core _ d₂ P₁ _ _ _ hap hP₁ _ => ?_) hs
  have hkept := AssetUpdateIssuer.project_doApply hP₁ hap
  rwa [charge_accounts] at hkept

theorem project_assetIssue {o : AssetIssueOperation} (h : WellFormed d) (hP : d.project p = some P)
    (hs : d.applyOperation now (.assetIssue o) = .ok d') :
    P.Enabled (Operation.event d now p (.assetIssue o)) ∧
      d'.project p = some (P.apply (Operation.event d now p (.assetIssue o))) := by
  simp only [Database.applyOperation, bind_eq_ok] at hs
  obtain ⟨_, hval, hs⟩ := hs
  constructor
  · obtain ⟨core, _, d₂, hfee, he, hap, -⟩ := startEvaluate_inv hs
    obtain ⟨a, hadm⟩ := AssetIssue.doEvaluate_inv he
    by_cases hp : o.assetToIssue.assetId = p
    · subst hp
      obtain ⟨b, hb, hproj, rfl⟩ := project_eq_some.mp hP
      obtain rfl := Option.some.inj (hb.symm.trans hadm.asset)
      simp only [Operation.event, if_true]
      exact ⟨AssetIssueOperation.validate_inv hval, hadm.issued hproj, hadm.belowMaxSupply⟩
    · simp only [Operation.event, hp, if_false, Project.Enabled]
  · refine startEvaluate_project h hP (fun core _ d₂ P₁ _ _ he hap hP₁ _ => ?_) hs
    obtain ⟨a, hadm⟩ := AssetIssue.doEvaluate_inv he
    have hkept := AssetIssue.project_doApply hP₁ (by rw [charge_accounts]; exact hadm.account) hap
    rwa [charge_accounts] at hkept

theorem project_assetReserve {o : AssetReserveOperation} (h : WellFormed d) (hP : d.project p = some P)
    (hs : d.applyOperation now (.assetReserve o) = .ok d') :
    P.Enabled (Operation.event d now p (.assetReserve o)) ∧
      d'.project p = some (P.apply (Operation.event d now p (.assetReserve o))) := by
  simp only [Database.applyOperation, bind_eq_ok] at hs
  obtain ⟨_, hval, hs⟩ := hs
  have hpos := AssetReserveOperation.validate_inv hval
  constructor
  · obtain ⟨core, _, d₂, hfee, he, hap, -⟩ := startEvaluate_inv hs
    obtain ⟨a, hadm⟩ := AssetReserve.doEvaluate_inv he
    by_cases hp : o.amountToReserve.assetId = p
    · subst hp
      obtain ⟨b, hb, hproj, rfl⟩ := project_eq_some.mp hP
      obtain rfl := Option.some.inj (hb.symm.trans hadm.asset)
      simp only [Operation.event, if_true]
      exact ⟨hpos, hadm.covered⟩
    · simp only [Operation.event, hp, if_false, Project.Enabled]
  · refine startEvaluate_project h hP (fun core _ d₂ P₁ hfee _ he hap hP₁ _ => ?_) hs
    have hkept := AssetReserve.project_doApply hP₁ hpos (by rw [charge_accounts]; exact hfee.payer) hap
    rwa [charge_accounts] at hkept

theorem project_assetInvestment {o : AssetInvestmentOperation} (h : WellFormed d) (hP : d.project p = some P)
    (hs : d.applyOperation now (.assetInvestment o) = .ok d') :
    P.Enabled (Operation.event d now p (.assetInvestment o)) ∧
      d'.project p = some (P.apply (Operation.event d now p (.assetInvestment o))) := by
  simp only [Database.applyOperation, bind_eq_ok] at hs
  obtain ⟨-, -, hs⟩ := hs
  constructor
  · obtain ⟨core, _, d₂, hfee, he, hap, -⟩ := startEvaluate_inv hs
    obtain ⟨a, hadm⟩ := AssetInvestment.doEvaluate_inv he
    by_cases hp : o.investmentAssetId = p
    · subst hp
      simp only [Operation.event, if_true, hP]
      obtain ⟨b, hb, hproj, rfl⟩ := project_eq_some.mp hP
      obtain rfl := Option.some.inj (hb.symm.trans hadm.asset)
      obtain ⟨a₁, ha₁, hint, -, -⟩ := AssetInvestment.doApply_inv hap
      obtain ⟨fees, pool, rfl⟩ := charged_getElem? hb ha₁
      exact ⟨⟨hadm.publicOffering, hadm.belowMax, hadm.started, hadm.notEnded⟩, hadm.positive, rfl, rfl, rfl, rfl, hint⟩
    · simp only [Operation.event, hp, if_false, Project.Enabled]
  · refine startEvaluate_project h hP (fun core _ d₂ P₁ hfee hwf he hap hP₁ hheld => ?_) hs
    obtain ⟨a, hadm⟩ := AssetInvestment.doEvaluate_inv he
    obtain ⟨k, hk, hsym⟩ := hadm.khd
    obtain ⟨fees, pool, hk₁⟩ := charge_getElem? o.fee core hk
    have hkept := AssetInvestment.project_doApply hwf hP₁ ⟨_, hk₁, hsym⟩ (by rw [charge_accounts]; exact hfee.payer) hap
    rw [charge_accounts] at hkept
    obtain ⟨n, rfl⟩ := hheld
    have hnew : ∀ amount, AssetInvestment.newInvestment (d.charge (Operation.assetInvestment o).fee core) o amount =
        AssetInvestment.newInvestment d o amount := fun amount => by
      simp only [AssetInvestment.newInvestment, charge_investments, charge_head, charge_time]
    rw [hnew] at hkept
    simp only [Operation.event, hP]
    exact hkept

theorem project_issueAssetToInvestors {o : IssueAssetToInvestorsOperation} (h : WellFormed d)
    (hP : d.project p = some P) (hs : d.applyOperation now (.issueAssetToInvestors o) = .ok d') :
    P.Enabled (Operation.event d now p (.issueAssetToInvestors o)) ∧
      d'.project p = some (P.apply (Operation.event d now p (.issueAssetToInvestors o))) := by
  simp only [Database.applyOperation, bind_eq_ok] at hs
  obtain ⟨-, -, hs⟩ := hs
  obtain ⟨core, e, d₂, hfee, he, hap, -⟩ := startEvaluate_inv hs
  have hevent : Operation.event d now p (.issueAssetToInvestors o) =
      if o.investmentAssetId = p then .issue e.totalIssue e.issueAmounts else .idle := by
    simp only [Operation.event, he]
  obtain ⟨a, hadm⟩ := IssueAssetToInvestors.doEvaluate_inv he
  rw [hevent]
  constructor
  · by_cases hp : o.investmentAssetId = p
    · subst hp
      obtain ⟨b, hb, hproj, rfl⟩ := project_eq_some.mp hP
      obtain rfl := Option.some.inj (hb.symm.trans hadm.asset)
      rw [if_pos rfl]
      exact ⟨hadm.publicOffering, hadm.ended, hadm.notClaimed, hadm.noSupply, hadm.length, hadm.sum, hadm.nonneg,
        hadm.belowMaxSupply⟩
    · simp only [hp, if_false, Project.Enabled]
  · refine startEvaluate_project h hP (fun core e' d₂ P₁ hfee hwf he' hap hP₁ _ => ?_) hs
    obtain rfl : e = e' := Except.ok.inj (he.symm.trans he')
    have hrecords := investmentsByAsset_congr (charge_investments (d := d) (f := o.fee) (c := core))
      o.investmentAssetId
    have hkept := IssueAssetToInvestors.project_doApply hwf hP₁ (by rw [hadm.objects]; exact hrecords.symm)
      (by rw [hadm.length]; exact congrArg List.length hrecords.symm) hap
    rwa [charge_accounts] at hkept

theorem project_refundInvestment {o : RefundInvestmentOperation} (h : WellFormed d)
    (hP : d.project p = some P) (hs : d.applyOperation now (.refundInvestment o) = .ok d') :
    P.Enabled (Operation.event d now p (.refundInvestment o)) ∧
      d'.project p = some (P.apply (Operation.event d now p (.refundInvestment o))) := by
  simp only [Database.applyOperation, bind_eq_ok] at hs
  obtain ⟨-, -, hs⟩ := hs
  constructor
  · obtain ⟨core, objs, d₂, hfee, he, hap, -⟩ := startEvaluate_inv hs
    obtain ⟨-, a, hadm⟩ := RefundInvestment.doEvaluate_inv he
    by_cases hp : o.investmentAssetId = p
    · subst hp
      have hrecords := refundables_records hP o.accountId
      have hcov := hadm.covered
      have hany := hadm.any
      rw [hrecords] at hcov hany
      obtain ⟨b, hb, hproj, rfl⟩ := project_eq_some.mp hP
      obtain rfl := Option.some.inj (hb.symm.trans hadm.asset)
      simp only [Operation.event, if_true]
      exact ⟨hadm.publicOffering, hadm.failed, hcov, hany⟩
    · simp only [Operation.event, hp, if_false, Project.Enabled]
  · refine startEvaluate_project h hP (fun core objs d₂ P₁ hfee hwf he hap hP₁ _ => ?_) hs
    obtain ⟨khd, hkhd, rfl⟩ := h.refund_inv he hap
    have hsame : RefundInvestment.refundables d o.accountId o.investmentAssetId =
        RefundInvestment.refundables (d.charge o.fee core) o.accountId o.investmentAssetId := by
      simp only [RefundInvestment.refundables, investmentsByAccount, charge_investments]
    have hkhd' : (d.charge o.fee core).findSymbol khdAssetSymbol = some khd := by rw [findSymbol_charge, hkhd]
    rw [hsame]
    exact ⟨charge_accounts, RefundInvestment.project_refunded hwf hP₁ hkhd'
      (by rw [charge_accounts]; exact hfee.payer)⟩

theorem project_claimBitassetInvestment {o : ClaimBitassetInvestmentOperation} (h : WellFormed d)
    (hP : d.project p = some P) (hs : d.applyOperation now (.claimBitassetInvestment o) = .ok d') :
    P.Enabled (Operation.event d now p (.claimBitassetInvestment o)) ∧
      d'.project p = some (P.apply (Operation.event d now p (.claimBitassetInvestment o))) := by
  simp only [Database.applyOperation, bind_eq_ok] at hs
  obtain ⟨-, -, hs⟩ := hs
  obtain ⟨core, e, d₂, hfee, he, hap, -⟩ := startEvaluate_inv hs
  have hevent : Operation.event d now p (.claimBitassetInvestment o) =
      if o.assetId = p then .claim e.khdAmount.amount else .idle := by
    simp only [Operation.event, he]
  obtain ⟨a, hadm⟩ := ClaimBitassetInvestment.doEvaluate_inv he
  obtain ⟨k, hk, hsym⟩ := findSymbol_eq_some hadm.khd
  rw [hevent]
  constructor
  · by_cases hp : o.assetId = p
    · subst hp
      obtain ⟨b, hb, hproj, rfl⟩ := project_eq_some.mp hP
      obtain rfl := Option.some.inj (hb.symm.trans hadm.asset)
      rw [if_pos rfl]
      exact ⟨hadm.publicOffering, hadm.running, hadm.notAll, hadm.left, hadm.issued, hadm.ended, hadm.started,
        hadm.covered, hadm.amount⟩
    · simp only [hp, if_false, Project.Enabled]
  · refine startEvaluate_project h hP (fun core e' d₂ P₁ hfee hwf he' hap hP₁ hheld => ?_) hs
    obtain rfl : e = e' := Except.ok.inj (he.symm.trans he')
    obtain ⟨fees, pool, hk₁⟩ := charge_getElem? o.fee core hk
    have htimes : o.assetId = p → e.claimTimes = P₁.claimTimes + 1 := fun hp => by
      subst hp
      obtain ⟨n, rfl⟩ := hheld
      obtain ⟨b, hb, -, rfl⟩ := project_eq_some.mp hP
      obtain rfl := Option.some.inj (hb.symm.trans hadm.asset)
      exact hadm.times
    have hkept := ClaimBitassetInvestment.project_doApply hwf hP₁ ⟨_, hk₁, hsym⟩ htimes
      (by rw [charge_accounts]; exact hfee.payer) hap
    rwa [charge_accounts] at hkept

theorem project_claimAssetInvestment {o : ClaimAssetInvestmentOperation} (h : WellFormed d)
    (hP : d.project p = some P) (hs : d.applyOperation now (.claimAssetInvestment o) = .ok d') :
    P.Enabled (Operation.event d now p (.claimAssetInvestment o)) ∧
      d'.project p = some (P.apply (Operation.event d now p (.claimAssetInvestment o))) := by
  simp only [Database.applyOperation, bind_eq_ok] at hs
  obtain ⟨-, -, hs⟩ := hs
  constructor
  · obtain ⟨core, e, d₂, hfee, he, hap, -⟩ := startEvaluate_inv hs
    obtain ⟨a, hadm⟩ := ClaimAssetInvestment.doEvaluate_inv he
    by_cases hp : o.assetId = p
    · subst hp
      have hrecords := investmentsOf_records hP o.accountId
      have hnot := hadm.notReceived
      have hpos := hadm.positive
      have hcov := hadm.covered
      rw [hadm.tokens, hrecords] at hpos hcov
      rw [hrecords] at hnot
      obtain ⟨b, hb, hproj, rfl⟩ := project_eq_some.mp hP
      obtain rfl := Option.some.inj (hb.symm.trans hadm.asset)
      simp only [Operation.event, if_true]
      exact ⟨hadm.publicOffering, hadm.running, hadm.issued,
        fun r hr hacc => hnot r (List.mem_filter.mpr ⟨hr, by simpa using hacc⟩), hpos, hcov⟩
    · simp only [Operation.event, hp, if_false, Project.Enabled]
  · refine startEvaluate_project h hP (fun core e d₂ P₁ hfee hwf he hap hP₁ _ => ?_) hs
    obtain ⟨a, hadm⟩ := ClaimAssetInvestment.doEvaluate_inv he
    have hsame : ClaimAssetInvestment.investmentsOf d o.accountId o.assetId =
        ClaimAssetInvestment.investmentsOf (d.charge o.fee core) o.accountId o.assetId := by
      simp only [ClaimAssetInvestment.investmentsOf, investmentsByAccount, charge_investments]
    have hkept := ClaimAssetInvestment.project_doApply hwf hP₁ (hadm.objects.trans hsame)
      (by rw [hadm.tokens, hsame]; rfl) (by rw [charge_accounts]; exact hfee.payer) hap
    rwa [charge_accounts] at hkept

/-- An accepted operation is an event that can happen to the project, and does to it what the event does. -/
theorem project_applyOperation {op : Operation} (h : WellFormed d) (hP : d.project p = some P)
    (hs : d.applyOperation now op = .ok d') :
    P.Enabled (op.event d now p) ∧ d'.project p = some (P.apply (op.event d now p)) := by
  cases op with
  | transfer o => exact ⟨trivial, project_transfer h hP hs⟩
  | assetCreate o => exact ⟨trivial, project_assetCreate h hP hs⟩
  | assetUpdate o =>
    refine ⟨?_, project_assetUpdate h hP hs⟩
    simp only [Operation.event]
    split <;> trivial
  | assetUpdateIssuer o => exact ⟨trivial, project_assetUpdateIssuer h hP hs⟩
  | assetIssue o => exact project_assetIssue h hP hs
  | assetReserve o => exact project_assetReserve h hP hs
  | assetInvestment o => exact project_assetInvestment h hP hs
  | issueAssetToInvestors o => exact project_issueAssetToInvestors h hP hs
  | refundInvestment o => exact project_refundInvestment h hP hs
  | claimBitassetInvestment o => exact project_claimBitassetInvestment h hP hs
  | claimAssetInvestment o => exact project_claimAssetInvestment h hP hs

/-- Every step of the chain is an event that can happen to the project, and does to it what the event does. -/
theorem project_step (h : WellFormed d) (hP : d.project p = some P) (s : Step) :
    P.Enabled (d.event s p) ∧ (d.step s).project p = some (P.apply (d.event s p)) := by
  cases s with
  | operation now op =>
    cases hs : d.applyOperation now op with
    | ok d' =>
      simp only [Database.event, Database.step, hs]
      exact project_applyOperation h hP hs
    | error e =>
      simp only [Database.event, Database.step, hs]
      exact ⟨trivial, hP⟩
  | endBlock timestamp maintenance => exact ⟨trivial, project_endBlock hP timestamp maintenance⟩

end

end Khc.Chain
