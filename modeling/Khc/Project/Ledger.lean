import Khc.Project.Sound

/-! The KHD of the chain: what accounts hold, what fees of it have accumulated, and what is in the escrow of the
    projects. Every step moves it between the three and leaves its total. -/

namespace Khc.Chain

open Lib Database

/-- The KHD in the escrow of an asset. -/
def AssetObject.escrow (a : AssetObject) : Int :=
  if a.isProjectAsset then a.dynamicData.financingCurrentSupply else 0

theorem escrow_of_project {a : AssetObject} (h : a.isProjectAsset = true) :
    a.escrow = a.dynamicData.financingCurrentSupply :=
  if_pos h

namespace Database

/-- The KHD in the escrow of all projects. -/
def escrow (d : Database) : Int := (d.assets.map AssetObject.escrow).sum

/-- What accounts hold of an asset, its accumulated fees included, and what is in escrow. -/
def total (d : Database) (q : AssetId) : Int := d.held q + d.escrow

end Database

/-! ### The updates -/

section Updates
variable {d d' : Database} {p q : AssetId} {x : AccountId} {δ : Asset} {f : AssetObject → AssetObject}

theorem total_credit (hx : x < d.accounts.length) (q : AssetId) :
    (d.credit x δ).total q = d.total q + if δ.assetId = q then δ.amount else 0 := by
  have hsame : (d.credit x δ).escrow = d.escrow := rfl
  rw [total, held_credit hx, hsame, total]
  ring

/-- A change of an asset that leaves its fees moves the total by what it moves the escrow. -/
theorem total_modifyAsset {a : AssetObject} (ha : d.assets[p]? = some a)
    (hf : ∀ a, (f a).dynamicData.accumulatedFees = a.dynamicData.accumulatedFees) (q : AssetId) :
    (d.modifyAsset p f).total q = d.total q + ((f a).escrow - a.escrow) := by
  have hsum : (d.modifyAsset p f).escrow = d.escrow + ((f a).escrow - a.escrow) :=
    sum_map_modify AssetObject.escrow f ha
  rw [total, held_modifyAsset hf, hsum, total]
  ring

/-- A change of an asset that leaves its fees and its escrow. -/
theorem total_modifyAsset_same (hf : ∀ a, (f a).dynamicData.accumulatedFees = a.dynamicData.accumulatedFees)
    (hescrow : ∀ a, (f a).escrow = a.escrow) (q : AssetId) : (d.modifyAsset p f).total q = d.total q := by
  have hsame : (d.modifyAsset p f).escrow = d.escrow := congrArg List.sum (modifyAsset_map hescrow)
  rw [total, held_modifyAsset hf, hsame, total]

theorem total_congr (ha : d'.assets = d.assets) (hacc : d'.accounts = d.accounts) (hbal : d'.balances = d.balances)
    (q : AssetId) : d'.total q = d.total q := by
  rw [total, held_congr hacc hbal (by rw [ha]), escrow, ha, total, escrow]

theorem escrow_charge {fee : Asset} {core : Int} : (d.charge fee core).escrow = d.escrow := by
  unfold Database.charge
  split
  · rfl
  · exact congrArg List.sum (modifyAsset_map fun _ => rfl)

/-- The fee counts twice until it is paid. -/
theorem total_charge {fee : Asset} {core : Int} (hlt : fee.assetId < d.assets.length) (hq : q ≠ 0) :
    (d.charge fee core).total q = d.total q + if fee.assetId = q then fee.amount else 0 := by
  rw [total, held_charge hlt hq, escrow_charge, total]
  ring

/-- The fee around an operation that leaves the total. -/
theorem startEvaluate_total {α : Type} {op : Operation} {ev : Eval α} {ap : Database → Int → α → Eval Database}
    (h : WellFormed d) (hq : q ≠ 0)
    (hkeep : ∀ core r d₂, d.FeeTaken op → WellFormed (d.charge op.fee core) → ev = .ok r →
      ap (d.charge op.fee core) core r = .ok d₂ →
      d₂.accounts = (d.charge op.fee core).accounts ∧ d₂.total q = (d.charge op.fee core).total q)
    (hs : d.startEvaluate op ev ap = .ok d') : d'.total q = d.total q := by
  obtain ⟨core, r, d₂, hfee, he, ha, -, rfl⟩ := startEvaluate_inv hs
  obtain ⟨hacc, htotal⟩ := hkeep core r d₂ hfee (h.charge hfee.nonneg) he ha
  rw [total_credit (by rw [hacc, charge_accounts]; exact hfee.payer), htotal, total_charge hfee.asset hq]
  by_cases hq' : op.fee.assetId = q
  · simp [Asset.neg, hq']
  · simp [Asset.neg, hq']

end Updates

/-! ### The operations -/

section Operations
variable {d d₁ d₂ : Database} {q : AssetId} {now : Nat}

/-- KHD is not the core asset. -/
theorem WellFormed.khd_ne_zero (h : WellFormed d) (hq : d.findSymbol khdAssetSymbol = some q) : q ≠ 0 := by
  rintro rfl
  obtain ⟨a, ha, hsym⟩ := findSymbol_eq_some hq
  obtain ⟨k, hk, hcore, -⟩ := h.registry.core
  obtain rfl := Option.some.inj ((kinds_getElem? ha).symm.trans hk)
  exact absurd (hsym.symm.trans hcore) (by decide)

/-- KHD is the one asset with its symbol. -/
theorem WellFormed.khd_unique (h : WellFormed d) (hq : d.findSymbol khdAssetSymbol = some q) {p : AssetId}
    {a : AssetObject} (ha : d.assets[p]? = some a) (hsym : a.symbol = khdAssetSymbol) : p = q := by
  have hfound := h.findSymbol (kinds_getElem? ha)
  rw [show a.kind.symbol = khdAssetSymbol from hsym, hq] at hfound
  exact (Option.some.inj hfound).symm

theorem Transfer.total_doApply {o : TransferOperation} (hsender : o.sender < d₁.accounts.length)
    (hreceiver : o.receiver < d₁.accounts.length) (hs : Transfer.doApply d₁ o = .ok d₂) :
    d₂.accounts = d₁.accounts ∧ d₂.total q = d₁.total q := by
  obtain rfl := Transfer.doApply_inv hs
  refine ⟨rfl, ?_⟩
  rw [total_credit (by exact hreceiver), total_credit hsender]
  by_cases hq : o.amount.assetId = q
  · simp [Asset.neg, hq]
  · simp [Asset.neg, hq]

theorem AssetCreate.total_addAsset {a : AssetObject} {locks : List AccountLockedPower}
    (hfees : a.dynamicData.accumulatedFees = 0) (hcurrent : a.dynamicData.financingCurrentSupply = 0) :
    (AssetCreate.addAsset d a locks).total q = d.total q := by
  have hescrow : (AssetCreate.addAsset d a locks).escrow = d.escrow := by
    simp [escrow, AssetCreate.addAsset, AssetObject.escrow, hcurrent]
  have haccumulated : (AssetCreate.addAsset d a locks).accumulatedFees q = d.accumulatedFees q := by
    simp only [accumulatedFees, AssetCreate.addAsset]
    rcases Nat.lt_or_ge q d.assets.length with hlt | hge
    · rw [List.getElem?_append_left hlt]
    · rw [List.getElem?_append_right hge, List.getElem?_eq_none hge]
      cases h : [a][q - d.assets.length]? with
      | none => rfl
      | some b =>
        obtain rfl := List.mem_singleton.mp (List.mem_of_getElem? h)
        exact hfees
  have hbalances : (AssetCreate.addAsset d a locks).accountBalances q = d.accountBalances q := rfl
  rw [total, held, haccumulated, hbalances, hescrow, total, held]

theorem AssetInvestment.total_doApply {o : AssetInvestmentOperation} {a : AssetObject} (hq : o.amount.assetId = q)
    (ha : d₁.assets[o.investmentAssetId]? = some a) (hproj : a.isProjectAsset = true)
    (hx : o.accountId < d₁.accounts.length) (hs : AssetInvestment.doApply d₁ now o = .ok d₂) :
    d₂.accounts = d₁.accounts ∧ d₂.total q = d₁.total q := by
  obtain ⟨b, hb, -, -, rfl⟩ := AssetInvestment.doApply_inv hs
  obtain rfl := Option.some.inj (ha.symm.trans hb)
  refine ⟨rfl, ?_⟩
  have hproj' : (AssetInvestment.investedAsset d₁.headBlockNumber now o.amount.amount a).isProjectAsset = true :=
    (congrArg AssetKind.project (AssetInvestment.kind_investedAsset ..)).trans hproj
  have hescrow : (AssetInvestment.investedAsset d₁.headBlockNumber now o.amount.amount a).escrow =
      a.escrow + AssetInvestment.investedAmount o.amount.amount a := by
    rw [escrow_of_project hproj', escrow_of_project hproj]
    rfl
  have hasset := total_modifyAsset
    (f := AssetInvestment.investedAsset d₁.headBlockNumber now o.amount.amount) ha (fun _ => rfl) q
  rw [AssetInvestment.invested, total_credit (by exact hx), if_pos hq]
  have hrecord : ((d₁.modifyAsset o.investmentAssetId (AssetInvestment.investedAsset d₁.headBlockNumber now
      o.amount.amount)).createInvestment (AssetInvestment.newInvestment d₁ o
        (AssetInvestment.investedAmount o.amount.amount a))).total q = _ := hasset
  rw [hrecord, hescrow]
  ring

theorem IssueAssetToInvestors.total_doApply {o : IssueAssetToInvestorsOperation}
    {e : IssueAssetToInvestors.Evaluated} (hs : IssueAssetToInvestors.doApply d₁ o e = .ok d₂) :
    d₂.accounts = d₁.accounts ∧ d₂.total q = d₁.total q := by
  obtain ⟨a, -, rfl⟩ := IssueAssetToInvestors.doApply_inv hs
  rw [IssueAssetToInvestors.giveTokens_eq]
  exact ⟨rfl, (total_modifyAsset_same (f := IssueAssetToInvestors.issuedAsset e.totalIssue) (fun _ => rfl)
    (fun _ => rfl) q).trans (total_congr rfl rfl rfl q)⟩

theorem RefundInvestment.total_refunded {o : RefundInvestmentOperation} {objs : List Khc.Chain.AssetInvestment}
    {a : AssetObject} (ha : d₁.assets[o.investmentAssetId]? = some a) (hproj : a.isProjectAsset = true)
    (hx : o.accountId < d₁.accounts.length) : (RefundInvestment.refunded d₁ o q objs).total q = d₁.total q := by
  have hmarked : (RefundInvestment.refunded d₁ o q objs).total q =
      ((d₁.modifyAsset o.investmentAssetId (RefundInvestment.refundedAsset
        (RefundInvestment.amountOf objs))).credit o.accountId ⟨RefundInvestment.amountOf objs, q⟩).total q := rfl
  rw [hmarked, total_credit (by exact hx), if_pos rfl,
    total_modifyAsset (f := RefundInvestment.refundedAsset (RefundInvestment.amountOf objs)) ha fun _ => rfl]
  have hescrow : (RefundInvestment.refundedAsset (RefundInvestment.amountOf objs) a).escrow =
      a.escrow - RefundInvestment.amountOf objs := by
    rw [escrow_of_project hproj]
    exact escrow_of_project hproj
  rw [hescrow]
  ring

theorem ClaimBitassetInvestment.total_doApply {o : ClaimBitassetInvestmentOperation}
    {e : ClaimBitassetInvestment.Evaluated} {a : AssetObject} (hq : e.khdAmount.assetId = q)
    (ha : d₁.assets[o.assetId]? = some a) (hproj : a.isProjectAsset = true) (hx : o.accountId < d₁.accounts.length)
    (hs : ClaimBitassetInvestment.doApply d₁ o e = .ok d₂) :
    d₂.accounts = d₁.accounts ∧ d₂.total q = d₁.total q := by
  obtain rfl := ClaimBitassetInvestment.doApply_inv hs
  refine ⟨rfl, ?_⟩
  rw [total_modifyAsset (d := d₁.credit o.accountId e.khdAmount)
    (f := ClaimBitassetInvestment.claimedAsset e.khdAmount.amount e.claimTimes) ha fun _ => rfl, total_credit hx,
    if_pos hq]
  have hescrow : (ClaimBitassetInvestment.claimedAsset e.khdAmount.amount e.claimTimes a).escrow =
      a.escrow - e.khdAmount.amount := by
    rw [escrow_of_project hproj]
    exact escrow_of_project hproj
  rw [hescrow]
  ring

theorem ClaimAssetInvestment.total_doApply {o : ClaimAssetInvestmentOperation} {e : ClaimAssetInvestment.Evaluated}
    (hq : o.assetId ≠ q) (hx : o.accountId < d₁.accounts.length) (hs : ClaimAssetInvestment.doApply d₁ o e = .ok d₂) :
    d₂.accounts = d₁.accounts ∧ d₂.total q = d₁.total q := by
  obtain rfl := ClaimAssetInvestment.doApply_inv hs
  refine ⟨rfl, ?_⟩
  have hmarked : (ClaimAssetInvestment.markReceived ((d₁.credit o.accountId ⟨e.tokens, o.assetId⟩).modifyAsset
      o.assetId (ClaimAssetInvestment.receivedAsset e.tokens)) (e.investmentObjects.map (·.id))).total q =
      ((d₁.credit o.accountId ⟨e.tokens, o.assetId⟩).modifyAsset o.assetId
        (ClaimAssetInvestment.receivedAsset e.tokens)).total q := rfl
  rw [hmarked, total_modifyAsset_same (f := ClaimAssetInvestment.receivedAsset e.tokens) (fun _ => rfl) fun _ => rfl,
    total_credit hx, if_neg hq, add_zero]

/-- The tokens of an asset other than KHD are none of it. -/
theorem total_supplied {n : Int} {x : AccountId} {δ : Asset} (hx : x < d₁.accounts.length) (hq : δ.assetId ≠ q) :
    ((d₁.credit x δ).modifyAsset δ.assetId (suppliedAsset n)).total q = d₁.total q := by
  rw [total_modifyAsset_same (f := suppliedAsset n) (fun _ => rfl) fun _ => rfl, total_credit hx, if_neg hq, add_zero]

theorem total_assetCreate {d' : Database} {o : AssetCreateOperation} (h : WellFormed d) (hq : q ≠ 0)
    (hs : d.applyOperation now (.assetCreate o) = .ok d') : d'.total q = d.total q := by
  simp only [Database.applyOperation, bind_eq_ok] at hs
  obtain ⟨-, -, hs⟩ := hs
  refine startEvaluate_total h hq (fun core _ d₂ _ _ _ hap => ?_) hs
  obtain ⟨pool, locks, rfl⟩ := AssetCreate.doApply_inv hap
  obtain ⟨n, hodd⟩ := AssetCreate.countOddFee_eq (d.charge (Operation.assetCreate o).fee core) core
  rw [hodd]
  exact ⟨rfl, (AssetCreate.total_addAsset rfl rfl).trans
    (total_modifyAsset_same (f := suppliedAsset n) (fun _ => rfl) (fun _ => rfl) q)⟩

/-- An operation other than an issue or a burn of KHD itself leaves the total of it. -/
theorem total_applyOperation {d' : Database} {op : Operation} (h : WellFormed d)
    (hq : d.findSymbol khdAssetSymbol = some q) (hissue : ∀ o, op = .assetIssue o → o.assetToIssue.assetId ≠ q)
    (hreserve : ∀ o, op = .assetReserve o → o.amountToReserve.assetId ≠ q) (hs : d.applyOperation now op = .ok d') :
    d'.total q = d.total q := by
  have hq0 := h.khd_ne_zero hq
  cases op with
  | assetCreate o => exact total_assetCreate h hq0 hs
  | transfer o =>
    simp only [Database.applyOperation, bind_eq_ok] at hs
    obtain ⟨-, -, hs⟩ := hs
    refine startEvaluate_total h hq0 (fun core _ d₂ hfee _ he hap => ?_) hs
    exact Transfer.total_doApply (by rw [charge_accounts]; exact hfee.payer)
      (by rw [charge_accounts]; exact (Transfer.doEvaluate_inv he).receiver) hap
  | assetUpdate o =>
    simp only [Database.applyOperation, bind_eq_ok] at hs
    obtain ⟨-, -, hs⟩ := hs
    refine startEvaluate_total h hq0 (fun core _ d₂ _ _ _ hap => ?_) hs
    obtain rfl := AssetUpdate.doApply_inv hap
    exact ⟨rfl, total_modifyAsset_same (f := updatedAsset o) (fun _ => rfl) (fun _ => rfl) q⟩
  | assetUpdateIssuer o =>
    simp only [Database.applyOperation, bind_eq_ok] at hs
    obtain ⟨-, -, hs⟩ := hs
    refine startEvaluate_total h hq0 (fun core _ d₂ _ _ _ hap => ?_) hs
    obtain rfl := AssetUpdateIssuer.doApply_inv hap
    exact ⟨rfl, total_modifyAsset_same (f := fun a => { a with issuer := o.newIssuer }) (fun _ => rfl)
      (fun _ => rfl) q⟩
  | assetIssue o =>
    simp only [Database.applyOperation, bind_eq_ok] at hs
    obtain ⟨-, -, hs⟩ := hs
    refine startEvaluate_total h hq0 (fun core _ d₂ _ _ he hap => ?_) hs
    obtain ⟨a, hadm⟩ := AssetIssue.doEvaluate_inv he
    obtain rfl := AssetIssue.doApply_inv hap
    exact ⟨rfl, total_supplied (by rw [charge_accounts]; exact hadm.account) (hissue o rfl)⟩
  | assetReserve o =>
    simp only [Database.applyOperation, bind_eq_ok] at hs
    obtain ⟨_, hval, hs⟩ := hs
    refine startEvaluate_total h hq0 (fun core _ d₂ hfee _ _ hap => ?_) hs
    obtain ⟨-, rfl⟩ := AssetReserve.doApply_inv (AssetReserveOperation.validate_inv hval) hap
    exact ⟨rfl, total_supplied (δ := o.amountToReserve.neg) (by rw [charge_accounts]; exact hfee.payer)
      (hreserve o rfl)⟩
  | assetInvestment o =>
    simp only [Database.applyOperation, bind_eq_ok] at hs
    obtain ⟨-, -, hs⟩ := hs
    refine startEvaluate_total h hq0 (fun core _ d₂ hfee _ he hap => ?_) hs
    obtain ⟨a, hadm⟩ := AssetInvestment.doEvaluate_inv he
    obtain ⟨k, hk, hsym⟩ := hadm.khd
    obtain ⟨fees, pool, ha⟩ := charge_getElem? ((Operation.assetInvestment o).fee) core hadm.asset
    exact AssetInvestment.total_doApply (h.khd_unique hq hk hsym) ha hadm.project
      (by rw [charge_accounts]; exact hfee.payer) hap
  | issueAssetToInvestors o =>
    simp only [Database.applyOperation, bind_eq_ok] at hs
    obtain ⟨-, -, hs⟩ := hs
    exact startEvaluate_total h hq0 (fun core _ d₂ _ _ _ hap => IssueAssetToInvestors.total_doApply hap) hs
  | refundInvestment o =>
    simp only [Database.applyOperation, bind_eq_ok] at hs
    obtain ⟨-, -, hs⟩ := hs
    refine startEvaluate_total h hq0 (fun core _ d₂ hfee _ he hap => ?_) hs
    obtain ⟨-, a, hadm⟩ := RefundInvestment.doEvaluate_inv he
    obtain ⟨khd, hkhd, rfl⟩ := h.refund_inv he hap
    obtain rfl := Option.some.inj (hq.symm.trans hkhd)
    obtain ⟨fees, pool, ha⟩ := charge_getElem? ((Operation.refundInvestment o).fee) core hadm.asset
    exact ⟨rfl, RefundInvestment.total_refunded ha hadm.project (by rw [charge_accounts]; exact hfee.payer)⟩
  | claimBitassetInvestment o =>
    simp only [Database.applyOperation, bind_eq_ok] at hs
    obtain ⟨-, -, hs⟩ := hs
    refine startEvaluate_total h hq0 (fun core _ d₂ hfee _ he hap => ?_) hs
    obtain ⟨a, hadm⟩ := ClaimBitassetInvestment.doEvaluate_inv he
    obtain ⟨fees, pool, ha⟩ :=
      charge_getElem? ((Operation.claimBitassetInvestment o).fee) core hadm.asset
    exact ClaimBitassetInvestment.total_doApply (Option.some.inj (hadm.khd.symm.trans hq)) ha hadm.project
      (by rw [charge_accounts]; exact hfee.payer) hap
  | claimAssetInvestment o =>
    simp only [Database.applyOperation, bind_eq_ok] at hs
    obtain ⟨-, -, hs⟩ := hs
    refine startEvaluate_total h hq0 (fun core _ d₂ hfee _ he hap => ?_) hs
    obtain ⟨a, hadm⟩ := ClaimAssetInvestment.doEvaluate_inv he
    obtain ⟨k, hk, hsym⟩ := findSymbol_eq_some hq
    have hne := h.khd_ne_project (project_eq_some.mpr ⟨a, hadm.asset, hadm.project, rfl⟩) hk hsym
    exact ClaimAssetInvestment.total_doApply hne.symm (by rw [charge_accounts]; exact hfee.payer) hap

theorem total_endBlock (timestamp : Nat) (maintenance : Option ChainParameters) (q : AssetId) :
    (d.endBlock timestamp maintenance).total q = d.total q := by
  cases maintenance with
  | none => rfl
  | some parameters =>
    have hescrow : (d.endBlock timestamp (some parameters)).escrow = d.escrow := by
      simp only [escrow, Database.endBlock, updateAssetProjectStates, List.map_map]
      congr 1
      refine List.map_congr_left fun a _ => ?_
      obtain ⟨state, heq⟩ := updateProject_eq (d.headBlockNumber + 1) a
      rw [Function.comp_apply, heq]
      rfl
    have hfees : (d.endBlock timestamp (some parameters)).accumulatedFees q = d.accumulatedFees q := by
      simp only [accumulatedFees, Database.endBlock, updateAssetProjectStates, List.getElem?_map]
      cases d.assets[q]? with
      | none => rfl
      | some a =>
        obtain ⟨state, heq⟩ := updateProject_eq (d.headBlockNumber + 1) a
        simp only [Option.map_some, heq]
    have hbalances : (d.endBlock timestamp (some parameters)).accountBalances q = d.accountBalances q := rfl
    rw [total, held, hbalances, hfees, hescrow, total, held]

end Operations

/-! ### Steps -/

section Steps
variable {d d₀ : Database} {q : AssetId} {s : Step} {steps : List Step}

/-- A step other than an issue or a burn of KHD itself leaves the total of it. -/
theorem total_step (h : WellFormed d) (hq : d.findSymbol khdAssetSymbol = some q)
    (hissue : ∀ now o, s = .operation now (.assetIssue o) → o.assetToIssue.assetId ≠ q)
    (hreserve : ∀ now o, s = .operation now (.assetReserve o) → o.amountToReserve.assetId ≠ q) :
    (d.step s).total q = d.total q := by
  cases s with
  | operation now op =>
    cases hs : d.applyOperation now op with
    | error e => simp only [Database.step, hs]
    | ok d' =>
      simp only [Database.step, hs]
      exact total_applyOperation h hq (fun o ho => hissue now o (by rw [ho])) (fun o ho => hreserve now o (by rw [ho])) hs
  | endBlock timestamp maintenance => exact total_endBlock timestamp maintenance q

/-- A symbol stays with its asset. -/
theorem findSymbol_run (h : WellFormed d) {symbol : String} (hq : d.findSymbol symbol = some q) (steps : List Step) :
    (d.run steps).findSymbol symbol = some q := by
  obtain ⟨a, ha, rfl⟩ := findSymbol_eq_some hq
  exact (h.run steps).findSymbol (kind_run h (kinds_getElem? ha) steps)

/-- No step changes the total of KHD that is a market-issued asset: it cannot be issued or burned. -/
theorem total_step_marketIssued {k : AssetKind} (h : WellFormed d) (hk : d.kinds[q]? = some k)
    (hsym : k.symbol = khdAssetSymbol) (hissued : k.marketIssued = true) (s : Step) :
    (d.step s).total q = d.total q := by
  have hq : d.findSymbol khdAssetSymbol = some q := hsym ▸ h.findSymbol hk
  have hnot : ∀ a, d.assets[q]? = some a → a.isMarketIssued = false → False := fun a ha hfalse => by
    have hsame : a.kind = k := Option.some.inj ((kinds_getElem? ha).symm.trans hk)
    rw [← hsame] at hissued
    exact Bool.false_ne_true (hfalse.symm.trans hissued)
  cases s with
  | endBlock timestamp maintenance => exact total_endBlock timestamp maintenance q
  | operation now op =>
    cases hs : d.applyOperation now op with
    | error e => simp only [Database.step, hs]
    | ok d' =>
      simp only [Database.step, hs]
      refine total_applyOperation h hq ?_ ?_ hs
      · rintro o rfl rfl
        simp only [Database.applyOperation, bind_eq_ok] at hs
        obtain ⟨-, -, hs⟩ := hs
        obtain ⟨-, _, -, -, he, -⟩ := startEvaluate_inv hs
        obtain ⟨a, hadm⟩ := AssetIssue.doEvaluate_inv he
        exact hnot a hadm.asset hadm.notMarketIssued
      · rintro o rfl rfl
        simp only [Database.applyOperation, bind_eq_ok] at hs
        obtain ⟨-, -, hs⟩ := hs
        obtain ⟨-, _, -, -, he, -⟩ := startEvaluate_inv hs
        obtain ⟨a, hadm⟩ := AssetReserve.doEvaluate_inv he
        exact hnot a hadm.asset hadm.notMarketIssued

/-- There is no more KHD than amounts can say. -/
def Bounded (d : Database) : Prop :=
  ∀ q k, d.kinds[q]? = some k → k.symbol = khdAssetSymbol → k.marketIssued = true → d.total q ≤ maxShareSupply

theorem escrow_of_noProject (h : ∀ a ∈ d.assets, a.isProjectAsset = false) : d.escrow = 0 := by
  refine List.sum_eq_zero fun n hn => ?_
  obtain ⟨a, ha, rfl⟩ := List.mem_map.mp hn
  rw [AssetObject.escrow, h a ha]
  exact if_neg Bool.false_ne_true

theorem Start.bounded (h₀ : Start d) : Bounded d := fun q _ _ _ _ => by
  rw [total, escrow_of_noProject h₀.noProject, add_zero]
  exact h₀.supply q

/-- Nothing is held of an asset that is not registered. -/
theorem held_of_unregistered (h : WellFormed d) (hq : d.assets.length ≤ q) : d.held q = 0 := by
  have hbalances : d.accountBalances q = 0 := Finset.sum_eq_zero fun x _ => h.unregistered x q hq
  rw [held, hbalances, accumulatedFees, List.getElem?_eq_none hq]
  rfl

theorem Bounded.step (hb : Bounded d) (h : WellFormed d) (s : Step) : Bounded (d.step s) := by
  intro q k hk hsym hissued
  cases hold : d.kinds[q]? with
  | some k' =>
    obtain rfl : k' = k := Option.some.inj ((kind_step h hold s).symm.trans hk)
    rw [total_step_marketIssued h hold hsym hissued]
    exact hb q k' hold hsym hissued
  | none =>
    have hge : d.assets.length ≤ q := length_kinds d ▸ List.getElem?_eq_none_iff.mp hold
    -- without KHD before there was no project before
    have hnone : ∀ a ∈ d.assets, a.isProjectAsset = false := fun a ha => by
      rw [← Bool.not_eq_true]
      intro hproj
      obtain ⟨k', hk', hsym', -⟩ := h.registry.khd ⟨a.kind, mem_kinds ha, hproj⟩
      obtain ⟨j, hj⟩ := List.mem_iff_getElem?.mp hk'
      have hfound := (h.step s).findSymbol (kind_step h hj s)
      rw [hsym', ← hsym, (h.step s).findSymbol hk] at hfound
      rw [Option.some.inj hfound] at hold
      rw [hold] at hj
      cases hj
    have hzero : d.total q = 0 := by
      rw [total, held_of_unregistered h hge, escrow_of_noProject hnone, add_zero]
    have hpos : q ≠ 0 := by
      rintro rfl
      obtain ⟨c, hc, -⟩ := h.registry.core
      rw [hold] at hc
      cases hc
    have hsame : (d.step s).total q = d.total q := by
      cases s with
      | endBlock timestamp maintenance => exact total_endBlock timestamp maintenance q
      | operation now op =>
        cases hs : d.applyOperation now op with
        | error e => simp only [Database.step, hs]
        | ok d' =>
          simp only [Database.step, hs] at hk ⊢
          by_cases hop : ∃ o, op = .assetCreate o
          · obtain ⟨o, rfl⟩ := hop
            exact total_assetCreate h hpos hs
          · rw [kinds_applyOperation h (fun o ho => hop ⟨o, ho⟩) hs, hold] at hk
            cases hk
    rw [hsame, hzero]
    decide

/-- There is never more KHD than amounts can say. -/
theorem Start.bounded_run (h₀ : Start d₀) (steps : List Step) : Bounded (d₀.run steps) :=
  (run_invariant_all (I := fun d => WellFormed d ∧ Bounded d) (fun _ s h => ⟨h.1.step s, h.2.step h.1 s⟩)
    ⟨h₀.wellFormed, h₀.bounded⟩).2

end Steps

end Khc.Chain
