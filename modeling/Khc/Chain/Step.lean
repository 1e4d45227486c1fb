import Khc.Chain.AssetEvaluator
import Khc.Chain.FinancingEvaluator
import Khc.Lib.Run

/-! Steps of the chain: one operation of a transaction, or the end of a block, which advances the head and, at a
    maintenance time, moves the projects on (`db_block.cpp`, `db_maint.cpp`). -/

namespace Khc.Chain

namespace Database
variable (d : Database)

/-- `database::apply_operation` with the node's wall clock at `now`. -/
def applyOperation (now : Nat) (op : Operation) : Eval Database := do
  op.validate
  match op with
  | .transfer o => d.startEvaluate op (Transfer.doEvaluate d o) fun d _ _ => Transfer.doApply d o
  | .assetCreate o => d.startEvaluate op (AssetCreate.doEvaluate d o) fun d fee e => AssetCreate.doApply d o fee e
  | .assetUpdate o => d.startEvaluate op (AssetUpdate.doEvaluate d o) fun d _ _ => AssetUpdate.doApply d o
  | .assetUpdateIssuer o =>
    d.startEvaluate op (AssetUpdateIssuer.doEvaluate d o) fun d _ _ => AssetUpdateIssuer.doApply d o
  | .assetIssue o => d.startEvaluate op (AssetIssue.doEvaluate d o) fun d _ _ => AssetIssue.doApply d o
  | .assetReserve o => d.startEvaluate op (AssetReserve.doEvaluate d o) fun d _ _ => AssetReserve.doApply d o
  | .assetInvestment o =>
    d.startEvaluate op (AssetInvestment.doEvaluate d o) fun d _ _ => AssetInvestment.doApply d now o
  | .issueAssetToInvestors o =>
    d.startEvaluate op (IssueAssetToInvestors.doEvaluate d o) fun d _ e => IssueAssetToInvestors.doApply d o e
  | .refundInvestment o =>
    d.startEvaluate op (RefundInvestment.doEvaluate d o) fun d _ e => RefundInvestment.doApply d o e
  | .claimBitassetInvestment o =>
    d.startEvaluate op (ClaimBitassetInvestment.doEvaluate d o) fun d _ e => ClaimBitassetInvestment.doApply d o e
  | .claimAssetInvestment o =>
    d.startEvaluate op (ClaimAssetInvestment.doEvaluate d o) fun d _ e => ClaimAssetInvestment.doApply d o e

/-! ### Maintenance -/

/-- The state that `update_asset_project_states` gives a project at block `head`; `none` where it leaves the
    project alone. -/
def nextProjectState (head : Nat) (o : ProjectAssetOptions) (publicOffering : Bool) (dyn : AssetDynamicData) :
    Option ProjectState :=
  if dyn.state = .projectEnd ∨ dyn.state = .financingFailue then none
  else if publicOffering then
    if head < o.startFinancingBlockNum then
      if dyn.state = .aboutToStart then none else some .aboutToStart
    else if head ≥ o.startFinancingBlockNum ∧ head < o.endFinancingBlockNum then
      if dyn.financingConfidentialSupply = o.maxFinancingAmount then
        if dyn.state = .projectInProgress then none else some .projectInProgress
      else
        if dyn.state = .financing then none else some .financing
    else if head > o.endFinancingBlockNum ∧ dyn.financingConfidentialSupply < o.minFinancingAmount then
      if dyn.state = .financingFailue then none else some .financingFailue
    else if head ≤ o.endProjectBlockNum then
      if dyn.state = .projectInProgress then none else some .projectInProgress
    else
      if dyn.state = .projectEnd then none else some .projectEnd
  else if head ≥ o.endProjectBlockNum then some .projectEnd
  else none

/-- One round of `update_asset_project_states`. -/
def updateProject (head : Nat) (a : AssetObject) : AssetObject :=
  if a.isProjectAsset then
    match nextProjectState head a.projOptions (a.projOptions.financingType == khcPublicOffering) a.dynamicData with
    | some state => { a with dynamicData := { a.dynamicData with state } }
    | none => a
  else a

/-- The maintenance fails the project now. -/
def failsNow (head : Nat) (a : AssetObject) : Bool :=
  a.isProjectAsset && a.projOptions.financingType == khcPublicOffering &&
    nextProjectState head a.projOptions true a.dynamicData == some .financingFailue

/-- `update_asset_power_status(asset_obj, false)` of the projects that fail: the locks of the issuer for the
    project end. -/
def unlockPower (assets : List AssetObject) (head : Nat) (l : AccountLockedPower) : AccountLockedPower :=
  match assets[l.assetId]? with
  | some a => if failsNow head a ∧ l.owner = a.issuer then { l with unlockHeight := 0 } else l
  | none => l

/-- `database::update_asset_project_states`. The source visits the projects in the order of their names; a round
    reads and writes one project and the locks for it, so they are done at once here. -/
def updateAssetProjectStates : Database :=
  { d with
    assets := d.assets.map (updateProject d.headBlockNumber)
    lockedPower := d.lockedPower.map (unlockPower d.assets d.headBlockNumber) }

end Database

/-- A step of the chain. A block that runs maintenance may also put new parameters in force. -/
inductive Step
  | operation (now : Nat) (op : Operation)
  | endBlock (timestamp : Nat) (maintenance : Option ChainParameters)

namespace Database

/-- The head after a block with its transactions applied, and its maintenance. -/
def endBlock (d : Database) (timestamp : Nat) (maintenance : Option ChainParameters) : Database :=
  let d₁ := { d with headBlockNumber := d.headBlockNumber + 1, headBlockTime := timestamp }
  match maintenance with
  | some parameters => { d₁.updateAssetProjectStates with parameters }
  | none => d₁

/-- An operation that throws leaves the state as it was. -/
def step (d : Database) : Step → Database
  | .operation now op =>
    match d.applyOperation now op with
    | .ok d' => d'
    | .error _ => d
  | .endBlock timestamp maintenance => d.endBlock timestamp maintenance

/-- The state after a run of steps. -/
abbrev run (d : Database) (steps : List Step) : Database := Lib.run step d steps

end Database

end Khc.Chain
