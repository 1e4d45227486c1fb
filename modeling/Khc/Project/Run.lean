import Khc.Project.Refinement

/-! Runs of the chain and its projects: the states that runs start from, the projects that they register, and the
    rules that carry an invariant of one project's events to every state a run reaches. -/

namespace Khc.Chain

open Lib Database

/-- A state without projects, from which every reachable state comes: the core asset is there, symbols are unique,
    no asset is over its bound and nothing is invested. -/
structure Start (d : Database) : Prop where
  core : ∃ a, d.assets[0]? = some a ∧ a.symbol = grapheneSymbol
  symbols : (d.assets.map (·.symbol)).Nodup
  noProject : ∀ a ∈ d.assets, a.isProjectAsset = false
  noFinancing : ∀ a ∈ d.assets,
    a.dynamicData.financingCurrentSupply = 0 ∧ a.dynamicData.financingConfidentialSupply = 0
  noInvestment : d.investments = []
  fees : ∀ a ∈ d.assets, 0 ≤ a.dynamicData.accumulatedFees
  balances : ∀ x q, 0 ≤ d.balances x q
  unregistered : ∀ x q, d.assets.length ≤ q → d.balances x q = 0
  supply : ∀ q, d.held q ≤ maxShareSupply

section
variable {d d' d₀ d₁ d₂ : Database} {p : AssetId} {P : Project} {core : Int} {now : Nat} {s : Step} {steps : List Step}

theorem Start.wellFormed (h : Start d) : WellFormed d where
  registry := by
    have hnone : ∀ k ∈ d.kinds, k.project = false := fun k hk => by
      obtain ⟨a, ha, rfl⟩ := List.mem_map.mp hk
      exact h.noProject a ha
    refine ⟨?_, ?_, fun k hk _ => hnone k hk, fun ⟨k, hk, hproj⟩ => absurd hproj ?_⟩
    · rw [kinds, List.map_map]
      exact h.symbols
    · obtain ⟨a, ha, hsym⟩ := h.core
      exact ⟨a.kind, kinds_getElem? ha, hsym, h.noProject a (mem_of_getElem? ha)⟩
    · rw [hnone k hk]
      exact Bool.false_ne_true
  recorded := by
    have hempty : d.origins = [] := by rw [origins, h.noInvestment]; rfl
    rw [hempty]
    exact ⟨rfl, by simp, by simp, by simp⟩
  balances := h.balances
  unregistered := h.unregistered
  counted a ha := by
    have hzero := (h.noFinancing a ha).2
    exact ⟨h.fees a ha, by rw [hzero], by rw [hzero]; decide⟩

/-- Every state of a run is well formed. -/
theorem WellFormed.run (h : WellFormed d) (steps : List Step) : WellFormed (d.run steps) :=
  run_invariant_all (I := WellFormed) (fun _ s h => h.step s) h

/-! ### New projects -/

theorem project_isSome : (∃ P, d.project p = some P) ↔ ∃ k, d.kinds[p]? = some k ∧ k.project = true := by
  constructor
  · rintro ⟨P, hP⟩
    obtain ⟨a, ha, hproj, -⟩ := project_eq_some.mp hP
    exact ⟨a.kind, kinds_getElem? ha, hproj⟩
  · rintro ⟨k, hk, hproj⟩
    obtain ⟨a, ha, rfl⟩ := Option.map_eq_some_iff.mp ((List.getElem?_map ..).symm.trans hk)
    exact ⟨_, project_eq_some.mpr ⟨a, ha, hproj, rfl⟩⟩

theorem project_eq_none_of_kinds (hk : d'.kinds = d.kinds) (hnone : d.project p = none) : d'.project p = none := by
  rw [Option.eq_none_iff_forall_not_mem]
  intro Q hQ
  obtain ⟨P, hP⟩ := project_isSome.mpr (hk ▸ project_isSome.mp ⟨Q, hQ⟩)
  rw [hnone] at hP
  cases hP

/-- What of an asset neither its counters, nor its issuer, nor an investment changes -/
structure AssetObject.Fixed {β : Type} (g : AssetObject → β) : Prop where
  dynamicData : ∀ (a : AssetObject) data, g { a with dynamicData := data } = g a
  issuer : ∀ (a : AssetObject) x, g { a with issuer := x } = g a
  invested : ∀ (a : AssetObject) head now asked, g (AssetInvestment.investedAsset head now asked a) = g a

theorem map_charge {β : Type} {g : AssetObject → β} (hg : AssetObject.Fixed g) {fee : Asset} :
    (d.charge fee core).assets.map g = d.assets.map g := by
  unfold charge
  split
  · rfl
  · exact modifyAsset_map fun _ => hg.dynamicData ..

theorem startEvaluate_map {β α : Type} {g : AssetObject → β} (hg : AssetObject.Fixed g) {op : Operation} {ev : Eval α}
    {ap : Database → Int → α → Eval Database}
    (hkeep : ∀ core r d₁ d₂, ev = .ok r → ap d₁ core r = .ok d₂ → d₂.assets.map g = d₁.assets.map g)
    (hs : d.startEvaluate op ev ap = .ok d') : d'.assets.map g = d.assets.map g := by
  obtain ⟨core, r, d₂, -, he, hap, -, rfl⟩ := startEvaluate_inv hs
  exact (hkeep core r _ d₂ he hap).trans (map_charge hg)

/-- No operation but the creation and the update of an asset changes such things. -/
theorem map_applyOperation {β : Type} {g : AssetObject → β} (hg : AssetObject.Fixed g) {op : Operation} (h : WellFormed d)
    (hcreate : ∀ o, op ≠ .assetCreate o) (hupdate : ∀ o, op ≠ .assetUpdate o) (hs : d.applyOperation now op = .ok d') :
    d'.assets.map g = d.assets.map g := by
  unfold Database.applyOperation at hs
  obtain ⟨_, hval, hs⟩ := bind_eq_ok.mp hs
  cases op with
  | transfer o =>
    refine startEvaluate_map hg (fun _ _ d₁ d₂ _ hap => ?_) hs
    rw [Transfer.doApply_inv hap]
    rfl
  | assetCreate o => exact absurd rfl (hcreate o)
  | assetUpdate o => exact absurd rfl (hupdate o)
  | assetUpdateIssuer o =>
    refine startEvaluate_map hg (fun _ _ d₁ d₂ _ hap => ?_) hs
    rw [AssetUpdateIssuer.doApply_inv hap]
    exact modifyAsset_map (f := fun a => { a with issuer := o.newIssuer }) fun a => hg.issuer ..
  | assetIssue o =>
    refine startEvaluate_map hg (fun _ _ d₁ d₂ _ hap => ?_) hs
    rw [AssetIssue.doApply_inv hap]
    exact modifyAsset_map (f := suppliedAsset o.assetToIssue.amount) fun a => hg.dynamicData ..
  | assetReserve o =>
    refine startEvaluate_map hg (fun _ _ d₁ d₂ _ hap => ?_) hs
    rw [(AssetReserve.doApply_inv (AssetReserveOperation.validate_inv hval) hap).2]
    exact modifyAsset_map (f := suppliedAsset (-o.amountToReserve.amount)) fun a => hg.dynamicData ..
  | assetInvestment o =>
    refine startEvaluate_map hg (fun _ _ d₁ d₂ _ hap => ?_) hs
    obtain ⟨a, -, -, -, rfl⟩ := AssetInvestment.doApply_inv hap
    exact modifyAsset_map (f := AssetInvestment.investedAsset d₁.headBlockNumber now o.amount.amount) fun a => hg.invested ..
  | issueAssetToInvestors o =>
    refine startEvaluate_map hg (fun _ e d₁ d₂ _ hap => ?_) hs
    obtain ⟨a, -, rfl⟩ := IssueAssetToInvestors.doApply_inv hap
    rw [IssueAssetToInvestors.giveTokens_eq]
    exact modifyAsset_map (f := IssueAssetToInvestors.issuedAsset e.totalIssue) fun a => hg.dynamicData ..
  | refundInvestment o =>
    obtain ⟨core, r, d₂, -, he, hap, -, rfl⟩ := startEvaluate_inv hs
    obtain ⟨khd, -, rfl⟩ := h.refund_inv he hap
    exact (modifyAsset_map (f := RefundInvestment.refundedAsset _) fun a => hg.dynamicData ..).trans (map_charge hg)
  | claimBitassetInvestment o =>
    refine startEvaluate_map hg (fun _ e d₁ d₂ _ hap => ?_) hs
    rw [ClaimBitassetInvestment.doApply_inv hap]
    exact modifyAsset_map (f := ClaimBitassetInvestment.claimedAsset e.khdAmount.amount e.claimTimes) fun a => hg.dynamicData ..
  | claimAssetInvestment o =>
    refine startEvaluate_map hg (fun _ e d₁ d₂ _ hap => ?_) hs
    rw [ClaimAssetInvestment.doApply_inv hap]
    exact modifyAsset_map (f := ClaimAssetInvestment.receivedAsset e.tokens) fun a => hg.dynamicData ..

theorem AssetObject.fixed_kind : AssetObject.Fixed AssetObject.kind where
  dynamicData _ _ := rfl
  issuer _ _ := rfl
  invested _ _ _ _ := AssetInvestment.kind_investedAsset ..

/-- An update of an asset replaces its options, and its issuer before that was forbidden. -/
theorem assetUpdate_inv {o : AssetUpdateOperation} (hs : d.applyOperation now (.assetUpdate o) = .ok d') :
    ∃ core, d'.assets = ((d.charge o.fee core).modifyAsset o.assetToUpdate (updatedAsset o)).assets := by
  simp only [Database.applyOperation, bind_eq_ok] at hs
  obtain ⟨-, -, hs⟩ := hs
  obtain ⟨core, r, d₂, -, -, hap, -, rfl⟩ := startEvaluate_inv hs
  obtain rfl := AssetUpdate.doApply_inv hap
  exact ⟨core, rfl⟩

/-- No operation but the creation of an asset registers one. -/
theorem kinds_applyOperation {op : Operation} (h : WellFormed d) (hop : ∀ o, op ≠ .assetCreate o)
    (hs : d.applyOperation now op = .ok d') : d'.kinds = d.kinds := by
  by_cases hupdate : ∃ o, op = .assetUpdate o
  · obtain ⟨o, rfl⟩ := hupdate
    obtain ⟨core, hassets⟩ := assetUpdate_inv hs
    rw [kinds, hassets]
    exact (modifyAsset_map (h := AssetObject.kind) (f := updatedAsset o) fun _ => rfl).trans kinds_charge
  · exact map_applyOperation AssetObject.fixed_kind h hop (fun o ho => hupdate ⟨o, ho⟩) hs

theorem kinds_endBlock (timestamp : Nat) (maintenance : Option ChainParameters) :
    (d.endBlock timestamp maintenance).kinds = d.kinds := by
  cases maintenance with
  | none => rfl
  | some parameters =>
    simp only [Database.endBlock, updateAssetProjectStates, kinds, List.map_map]
    refine List.map_congr_left fun a _ => ?_
    obtain ⟨state, heq⟩ := updateProject_eq (d.headBlockNumber + 1) a
    rw [Function.comp_apply, heq]
    rfl

/-- The creation of an asset adds one. -/
theorem map_assetCreate {β : Type} {g : AssetObject → β} (hg : AssetObject.Fixed g) {o : AssetCreateOperation}
    (hs : d.applyOperation now (.assetCreate o) = .ok d') : ∃ state pool, o.validate = .ok () ∧
      d'.assets.map g = d.assets.map g ++ [g (AssetCreate.newAsset d o state pool)] := by
  simp only [Database.applyOperation, bind_eq_ok] at hs
  obtain ⟨u, hval, hs⟩ := hs
  obtain ⟨core, state, d₂, -, -, hap, -, rfl⟩ := startEvaluate_inv hs
  obtain ⟨pool, locks, rfl⟩ := AssetCreate.doApply_inv hap
  obtain ⟨n, hodd⟩ := AssetCreate.countOddFee_eq (d.charge (Operation.assetCreate o).fee core) core
  have hnew : AssetCreate.newAsset (d.charge (Operation.assetCreate o).fee core) o state pool =
      AssetCreate.newAsset d o state pool := by
    rw [AssetCreate.newAsset, AssetCreate.newAsset, charge_length]
  refine ⟨state, pool, hval, ?_⟩
  rw [hnew]
  simp only [credit, AssetCreate.addAsset, List.map_append, List.map_singleton]
  rw [hodd, modifyAsset_map (f := suppliedAsset n) fun a => hg.dynamicData .., map_charge hg]

theorem kinds_assetCreate {o : AssetCreateOperation} (hs : d.applyOperation now (.assetCreate o) = .ok d') :
    ∃ k, d'.kinds = d.kinds ++ [k] := by
  obtain ⟨state, pool, -, hmap⟩ := map_assetCreate AssetObject.fixed_kind hs
  exact ⟨_, hmap⟩

/-- A registered asset stays what it is. -/
theorem kind_step {k : AssetKind} (h : WellFormed d) (hk : d.kinds[p]? = some k) (s : Step) :
    (d.step s).kinds[p]? = some k := by
  cases s with
  | operation now op =>
    cases hs : d.applyOperation now op with
    | error e => simpa only [Database.step, hs] using hk
    | ok d' =>
      simp only [Database.step, hs]
      by_cases hop : ∃ o, op = .assetCreate o
      · obtain ⟨o, rfl⟩ := hop
        obtain ⟨k', hkinds⟩ := kinds_assetCreate hs
        rw [hkinds, List.getElem?_append_left (List.getElem?_eq_some_iff.mp hk).1, hk]
      · rw [kinds_applyOperation h (fun o ho => hop ⟨o, ho⟩) hs, hk]
  | endBlock timestamp maintenance => exact (kinds_endBlock timestamp maintenance ▸ hk :)

theorem kind_run {k : AssetKind} (h : WellFormed d) (hk : d.kinds[p]? = some k) (steps : List Step) :
    (d.run steps).kinds[p]? = some k :=
  (run_invariant_all (I := fun d => WellFormed d ∧ d.kinds[p]? = some k)
    (fun _ s h => ⟨h.1.step s, kind_step h.1 h.2 s⟩) ⟨h, hk⟩).2

/-- Nothing is held of, and nothing invested in, an asset that is registered now. -/
theorem project_addAsset (h : WellFormed d) {a : AssetObject} {locks : List AccountLockedPower}
    (hnone : d.project p = none) (hP : (AssetCreate.addAsset d a locks).project p = some P) :
    d.assets.length ≤ p ∧ a.isProjectAsset = true ∧
      P = a.project d.headBlockNumber a.dynamicData.accumulatedFees [] := by
  obtain ⟨b, hb, hproj, rfl⟩ := project_eq_some.mp hP
  have hb' : (d.assets ++ [a])[p]? = some b := hb
  rcases Nat.lt_or_ge p d.assets.length with hlt | hge
  · -- an asset of before
    rw [List.getElem?_append_left hlt] at hb'
    obtain ⟨P, hP'⟩ := project_isSome.mpr ⟨b.kind, kinds_getElem? hb', hproj⟩
    rw [hnone] at hP'
    cases hP'
  · obtain rfl : a = b := by
      rw [List.getElem?_append_right hge] at hb'
      have hmem := List.mem_of_getElem? hb'
      exact (List.mem_singleton.mp hmem).symm
    have hbal : (AssetCreate.addAsset d a locks).accountBalances p = 0 :=
      Finset.sum_eq_zero fun x _ => h.unregistered x p hge
    have hrecords : (AssetCreate.addAsset d a locks).investmentsByAsset p = [] := by
      refine List.filter_eq_nil_iff.mpr fun r hr => ?_
      obtain ⟨k, hk, -⟩ := h.recorded.project r.origin (List.mem_map_of_mem hr)
      have hlt : r.investmentAssetId < d.kinds.length := (List.getElem?_eq_some_iff.mp hk).1
      rw [length_kinds] at hlt
      have hne : r.investmentAssetId ≠ p := fun heq => absurd (heq ▸ hlt) (not_lt.mpr hge)
      simpa using hne
    refine ⟨hge, hproj, ?_⟩
    rw [held, hbal, zero_add, accumulatedFees_of hb, hrecords]
    rfl

/-- The project that the creation of an asset registers. -/
theorem initial_newAsset {o : AssetCreateOperation} {state : ProjectState} {pool : Int}
    (hadm : AssetCreate.Admitted d o state) (hhead : d₁.headBlockNumber = d.headBlockNumber)
    (hproj : (AssetCreate.newAsset d₁ o state pool).isProjectAsset = true) :
    ((AssetCreate.newAsset d₁ o state pool).project d₁.headBlockNumber 0 []).Initial := by
  cases hopts : o.projectAssetOpts with
  | none =>
    simp only [AssetCreate.newAsset, AssetObject.isProjectAsset, hopts] at hproj
    exact absurd hproj (by decide)
  | some opts =>
    have hstate := hadm.project opts hopts
    have hoptions : ((AssetCreate.newAsset d₁ o state pool).project d₁.headBlockNumber 0 []).options = opts := by
      simp only [AssetObject.project, AssetCreate.newAsset, hopts, Option.getD_some]
    refine ⟨fun hpub => ?_, fun hpub => ?_, rfl, rfl, rfl, rfl, rfl, rfl, rfl, rfl⟩
    · rw [Project.PublicOffering, hoptions] at hpub
      rw [hoptions]
      exact ⟨(hstate.offering hpub).1, hhead ▸ (hstate.offering hpub).2⟩
    · rw [Project.PublicOffering, hoptions] at hpub
      exact hstate.other hpub

theorem initial_of_assetCreate {o : AssetCreateOperation} (h : WellFormed d) (hnone : d.project p = none)
    (hs : d.applyOperation now (.assetCreate o) = .ok d') (hP : d'.project p = some P) : P.Initial := by
  simp only [Database.applyOperation, bind_eq_ok] at hs
  obtain ⟨-, -, hs⟩ := hs
  obtain ⟨core, state, d₂, hfee, he, hap, -, rfl⟩ := startEvaluate_inv hs
  obtain ⟨pool, locks, rfl⟩ := AssetCreate.doApply_inv hap
  have hwf := (h.charge (c := core) hfee.nonneg).countOddFee (c := core)
  have hkinds := (kinds_countOddFee (c := core)).trans
    (kinds_charge (d := d) (f := (Operation.assetCreate o).fee) (c := core))
  obtain ⟨n, hodd⟩ := AssetCreate.countOddFee_eq (d.charge (Operation.assetCreate o).fee core) core
  have hlength : (AssetCreate.countOddFee (d.charge (Operation.assetCreate o).fee core) core).assets.length =
      d.assets.length := by
    rw [hodd, modifyAsset_length, charge_length]
  have hhead : (AssetCreate.countOddFee (d.charge (Operation.assetCreate o).fee core) core).headBlockNumber =
      d.headBlockNumber := by
    rw [hodd, modifyAsset_head, charge_head]
  have haccounts : (AssetCreate.countOddFee (d.charge (Operation.assetCreate o).fee core) core).accounts =
      d.accounts := by
    rw [hodd, modifyAsset_accounts, charge_accounts]
  have hnone' : (AssetCreate.countOddFee (d.charge (Operation.assetCreate o).fee core) core).project p = none :=
    project_eq_none_of_kinds hkinds hnone
  have hregistered : ∃ Q, (AssetCreate.addAsset
      (AssetCreate.countOddFee (d.charge (Operation.assetCreate o).fee core) core)
      (AssetCreate.newAsset (d.charge (Operation.assetCreate o).fee core) o state pool) locks).project p = some Q := by
    have hk := project_isSome.mp ⟨P, hP⟩
    exact project_isSome.mpr hk
  obtain ⟨Q, hQ⟩ := hregistered
  obtain ⟨hge, hproj, hQ'⟩ := project_addAsset hwf hnone' hQ
  -- the fee is paid in an asset that was there before
  have hne : (Operation.assetCreate o).fee.neg.assetId ≠ p := fun heq => by
    have hlt := hfee.asset
    rw [hlength] at hge
    exact absurd (heq ▸ hlt) (not_lt.mpr hge)
  have hpaid := project_credit (δ := (Operation.assetCreate o).fee.neg) (x := (Operation.assetCreate o).feePayer)
    (by exact haccounts ▸ hfee.payer) hQ
  rw [if_neg hne, Project.hold_zero, hP] at hpaid
  obtain rfl := Option.some.inj hpaid
  rw [hQ', hhead, ← charge_head (d := d) (f := (Operation.assetCreate o).fee) (c := core)]
  exact initial_newAsset (AssetCreate.doEvaluate_inv he) charge_head hproj

/-- A project that a step registers is an initial one. -/
theorem project_new (h : WellFormed d) (hnone : d.project p = none) (hP : (d.step s).project p = some P) :
    P.Initial := by
  have hsame : (d.step s).kinds ≠ d.kinds := fun heq => by
    rw [project_eq_none_of_kinds heq hnone] at hP
    cases hP
  cases s with
  | operation now op =>
    cases hs : d.applyOperation now op with
    | error e =>
      simp only [Database.step, hs] at hsame
      exact absurd rfl hsame
    | ok d' =>
      simp only [Database.step, hs] at hsame hP
      by_cases hop : ∃ o, op = .assetCreate o
      · obtain ⟨o, rfl⟩ := hop
        exact initial_of_assetCreate h hnone hs hP
      · exact absurd (kinds_applyOperation h (fun o ho => hop ⟨o, ho⟩) hs) hsame
  | endBlock timestamp maintenance => exact absurd (kinds_endBlock timestamp maintenance) hsame

/-! ### Invariants -/

/-- A project of a state is a project of the next one. -/
theorem project_kept (h : WellFormed d) (hP : (d.step s).project p = none) : d.project p = none := by
  cases hd : d.project p with
  | none => rfl
  | some P =>
    rw [(project_step h hd s).2] at hP
    cases hP

theorem Start.project_none (h : Start d) (p : AssetId) : d.project p = none := by
  cases hP : d.project p with
  | none => rfl
  | some P =>
    obtain ⟨a, ha, hproj, -⟩ := project_eq_some.mp hP
    rw [h.noProject a (mem_of_getElem? ha)] at hproj
    cases hproj

/-- Nothing has happened yet to a project that is not registered. -/
theorem tally_of_none {M : Type} [AddCommMonoid M] {f : Database → Step → M}
    (hf : ∀ d s, d.project p = none → f d s = 0) (h : WellFormed d) (hnone : (d.run steps).project p = none) :
    tally Database.step f d steps = 0 := by
  induction steps using List.reverseRecOn with
  | nil => rfl
  | append_singleton steps s ih =>
    simp only [Database.run, run_snoc] at hnone
    have hbefore := project_kept (h.run steps) hnone
    rw [tally_snoc, ih hbefore, hf _ s hbefore, add_zero]

/-- An invariant of the events of one project, with a history that each step adds to. -/
theorem run_history {C : Database → Step → Prop} {M : Type} [AddCommMonoid M] {f : Database → Step → M}
    {I : Project → M → Prop} (hf : ∀ d s, d.project p = none → f d s = 0) (init : ∀ P, P.Initial → I P 0)
    (keep : ∀ d s P n, WellFormed d → d.project p = some P → C d s → P.Enabled (d.event s p) → I P n →
      I (P.apply (d.event s p)) (n + f d s))
    (h₀ : Start d₀) (hC : Along Database.step C d₀ steps) (hP : (d₀.run steps).project p = some P) :
    I P (tally Database.step f d₀ steps) := by
  induction steps using List.reverseRecOn generalizing P with
  | nil =>
    rw [Database.run, run_nil, h₀.project_none p] at hP
    cases hP
  | append_singleton steps s ih =>
    obtain ⟨hbefore, hCs⟩ := along_snoc.mp hC
    have hwf := h₀.wellFormed.run steps
    simp only [Database.run, run_snoc] at hP
    rw [tally_snoc]
    cases hd : (d₀.run steps).project p with
    | none =>
      rw [tally_of_none hf h₀.wellFormed hd, hf _ s hd, add_zero]
      exact init P (project_new hwf hd hP)
    | some Q =>
      obtain ⟨hen, happ⟩ := project_step hwf hd s
      obtain rfl := Option.some.inj (happ.symm.trans hP)
      exact keep _ s Q _ hwf hd hCs hen (ih hbefore hd)

/-- An invariant of the events of one project. -/
theorem run_project {C : Database → Step → Prop} {I : Project → Prop} (init : ∀ P, P.Initial → I P)
    (keep : ∀ d s P, WellFormed d → d.project p = some P → C d s → P.Enabled (d.event s p) → I P →
      I (P.apply (d.event s p)))
    (h₀ : Start d₀) (hC : Along Database.step C d₀ steps) (hP : (d₀.run steps).project p = some P) : I P :=
  run_history (M := Nat) (f := fun _ _ => 0) (I := fun P _ => I P) (fun _ _ _ => rfl) init
    (fun d s P _ hwf hd hCs hen hinv => keep d s P hwf hd hCs hen hinv) h₀ hC hP

/-- What holds of a project and is kept by its events holds of it from then on. -/
theorem project_run {C : Database → Step → Prop} {I : Project → Prop}
    (keep : ∀ d s P, WellFormed d → d.project p = some P → C d s → P.Enabled (d.event s p) → I P →
      I (P.apply (d.event s p)))
    (h : WellFormed d) (hC : Along Database.step C d steps) (hP : d.project p = some P) (hinv : I P) :
    ∃ Q, (d.run steps).project p = some Q ∧ I Q := by
  have hrun : WellFormed (d.run steps) ∧ ∃ Q, (d.run steps).project p = some Q ∧ I Q := by
    refine run_invariant (I := fun d => WellFormed d ∧ ∃ Q, d.project p = some Q ∧ I Q) ?_ hC ⟨h, P, hP, hinv⟩
    rintro d s ⟨hwf, Q, hQ, hinv⟩ hCs
    obtain ⟨hen, happ⟩ := project_step hwf hQ s
    exact ⟨hwf.step s, _, happ, keep d s Q hwf hQ hCs hen hinv⟩
  exact hrun.2

end

/-! ### A small chain -/

namespace Sample

/-- Blocks of five seconds and no fees. -/
def parameters : ChainParameters := ⟨5, by decide, 10, fun _ => 0⟩

/-- One unit of an asset for one of the other. -/
def price (base quote : AssetId) : Price := ⟨⟨1, base⟩, ⟨1, quote⟩⟩

def options : AssetOptions where
  maxSupply := 1000000
  marketFeePercent := 0
  maxMarketFee := 0
  issuerPermissions := 0
  flags := 0
  coreExchangeRate := ⟨⟨1, 0⟩, ⟨1000, 1⟩⟩
  whitelistAuthorities := []
  blacklistAuthorities := []
  whitelistMarkets := []
  blacklistMarkets := []
  description := ""

def khdData : AssetBitassetData where
  options := ⟨60, 1, 60, 0, 0, 0⟩
  settlementPrice := price 1 0
  isPredictionMarket := false

/-- KHC and KHD, and two of four accounts with KHD. -/
def genesis : Database where
  headBlockNumber := 0
  headBlockTime := 1600000000
  parameters := parameters
  accounts := List.replicate 4 ⟨none, [], []⟩
  assets := [
    { symbol := grapheneSymbol, precision := 5, issuer := 0, options },
    { symbol := khdAssetSymbol, precision := 4, issuer := 0, options, bitassetData := some khdData }]
  balances x q := if q = 1 ∧ (x = 2 ∨ x = 3) then 1000 else 0
  investments := []
  lockedPower := []

def noFee : Asset := ⟨0, 0⟩

/-- An offering from block 1 to block 3, of 100 to 200 KHD. -/
def offering : ProjectAssetOptions where
  name := "prj"
  projectCycle := khcProjectAssetProjectCycleUnit
  minTransferRatio := 10
  maxTransferRatio := 20
  minFinancingAmount := 100
  maxFinancingAmount := 200
  startFinancingBlockNum := 1
  endFinancingBlockNum := 3
  startFinancingTime := 0
  endFinancingTime := khcProjectAssetFinancingCycleUnit
  startProjectBlockNum := 0
  endProjectBlockNum := 100
  khdExchangeRate := price 1 0
  financingCycle := khcProjectAssetFinancingCycleUnit
  financingType := khcPublicOffering

/-- The first account registers the project, as asset 2. -/
def create (opts : ProjectAssetOptions) : Step :=
  .operation 0 (.assetCreate
    { fee := noFee, issuer := 1, symbol := "PRJ", precision := 4, commonOptions := options,
      projectAssetOpts := some opts, power := some 1000000000000 })

def invest (x : AccountId) (amount : Int) : Step := .operation 0 (.assetInvestment ⟨noFee, x, 2, ⟨amount, 1⟩⟩)
def issue : Step := .operation 0 (.issueAssetToInvestors ⟨noFee, 1, 2⟩)
def claim : Step := .operation 0 (.claimBitassetInvestment ⟨noFee, 1, 2⟩)
def refund (x : AccountId) : Step := .operation 0 (.refundInvestment ⟨noFee, x, 2⟩)
def receive (x : AccountId) : Step := .operation 0 (.claimAssetInvestment ⟨noFee, x, 2⟩)
def maintain : Step := .endBlock 1600000000 (some parameters)

theorem genesis_start : Start genesis where
  core := ⟨_, rfl, rfl⟩
  symbols := by decide
  noProject := by decide
  noFinancing := by decide
  noInvestment := rfl
  fees := by decide
  balances x q := by
    simp only [genesis]
    split <;> decide
  unregistered x q hq := by
    have hq' : 2 ≤ q := hq
    have hne : ¬(q = 1 ∧ (x = 2 ∨ x = 3)) := fun h => by omega
    simp only [genesis, if_neg hne]
  supply q := by
    have hfees : genesis.accumulatedFees q = 0 := by
      match q with
      | 0 => rfl
      | 1 => rfl
      | _ + 2 => rfl
    rw [held, hfees]
    by_cases hq : q = 1
    · subst hq
      decide
    · have hnone : ∀ x, genesis.balances x q = 0 := fun x => if_neg fun h => hq h.1
      simp [accountBalances, hnone, maxShareSupply]

end Sample

end Khc.Chain
