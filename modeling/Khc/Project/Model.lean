import Khc.Chain.WellFormed

/-! A project by itself: what its life depends on, the events that happen to it, when each of them can, and what it
    does. The chain is shown to move every project by these events alone. -/

namespace Khc.Chain

/-- A project between two steps of the chain. -/
@[ext] structure Project where
  head : Nat
  options : ProjectAssetOptions
  maxSupply : Int
  state : ProjectState
  /-- KHD that investors have put in: `financing_confidential_supply`. -/
  raised : Int
  /-- KHD that is in escrow: `financing_current_supply`. -/
  current : Int
  claimTimes : Nat
  /-- Tokens that the last issue to the investors made: `investment_confidential_supply`. -/
  issued : Int
  /-- Tokens that investors have not claimed yet: `investment_current_supply`. -/
  unclaimed : Int
  supply : Int
  /-- Tokens in balances and in accumulated fees. -/
  held : Int
  records : List AssetInvestment

/-- What happens to a project. -/
inductive Event
  | invest (record : AssetInvestment) (asked : Int) (now : Nat)
  | issue (total : Int) (amounts : List Int)
  | refund (account : AccountId)
  | claim (amount : Int)
  | receive (account : AccountId)
  | mint (amount : Int)
  | burn (amount : Int)
  | update (maxSupply : Int)
  | block (maintained : Bool)
  | idle

/-! ### Records -/

namespace AssetInvestment

/-- The investment is by the account and not refunded. -/
def owed (x : AccountId) (r : AssetInvestment) : Bool := r.investmentAccountId = x ∧ r.returnFinancingFlag = false

def markRefunded (r : AssetInvestment) : AssetInvestment := { r with returnFinancingFlag := true }

def markReceived (r : AssetInvestment) : AssetInvestment := { r with hasReceiveToken := true }

/-- The investment gets its tokens anew. -/
def give (r : AssetInvestment) (tokens : Int) : AssetInvestment :=
  { r with hasReceiveToken := false, investmentTokens := tokens }

/-- What of an investment is not refunded. -/
def unrefundedAmount (r : AssetInvestment) : Int := if r.returnFinancingFlag then 0 else r.investmentKhdAmount.amount

/-- What of the tokens of an investment is not claimed. -/
def unclaimedTokens (r : AssetInvestment) : Int := if r.hasReceiveToken then 0 else r.investmentTokens

end AssetInvestment

namespace Project
variable (P : Project)

def PublicOffering : Prop := P.options.financingType = khcPublicOffering

/-- The project has left its financing with success. -/
def Running : Prop := P.state = .projectInProgress ∨ P.state = .projectEnd

/-- The project takes investments. -/
structure OnOffer : Prop where
  publicOffering : P.PublicOffering
  belowMax : P.current < P.options.maxFinancingAmount
  started : P.options.startFinancingBlockNum ≤ P.head
  notEnded : P.head ≤ P.options.endFinancingBlockNum

instance : Decidable P.OnOffer :=
  decidable_of_iff (P.options.financingType = khcPublicOffering ∧ P.current < P.options.maxFinancingAmount ∧
    P.options.startFinancingBlockNum ≤ P.head ∧ P.head ≤ P.options.endFinancingBlockNum)
    ⟨fun ⟨h₁, h₂, h₃, h₄⟩ => ⟨h₁, h₂, h₃, h₄⟩, fun ⟨h₁, h₂, h₃, h₄⟩ => ⟨h₁, h₂, h₃, h₄⟩⟩

/-- An investment of the amount ends the offering. -/
def Fills (asked : Int) : Prop := P.options.maxFinancingAmount ≤ P.current + asked

instance (asked : Int) : Decidable (P.Fills asked) := inferInstanceAs (Decidable (_ ≤ _))

/-- The KHD that an investment puts in. -/
def accepted (asked : Int) : Int := if P.Fills asked then P.options.maxFinancingAmount - P.current else asked

/-- The sum of all investments. -/
def invested : Int := (P.records.map (·.investmentKhdAmount.amount)).sum

/-- The sum of the investments that are not refunded. -/
def unrefunded : Int := (P.records.map (·.unrefundedAmount)).sum

/-- What an account has invested and not got back. -/
def owedTo (x : AccountId) : Int := ((P.records.filter (·.owed x)).map (·.investmentKhdAmount.amount)).sum

/-- The tokens of an account, claimed or not. -/
def tokensOf (x : AccountId) : Int :=
  ((P.records.filter (·.investmentAccountId = x)).map (·.investmentTokens)).sum

/-- The tokens of the investments that are not marked as claimed. -/
def unclaimedOfRecords : Int := (P.records.map (·.unclaimedTokens)).sum

/-- The state of the project after a maintenance at its head. -/
def nextState : ProjectState :=
  if P.state = .projectEnd ∨ P.state = .financingFailue then P.state
  else if P.options.financingType = khcPublicOffering then
    if P.head < P.options.startFinancingBlockNum then .aboutToStart
    else if P.head < P.options.endFinancingBlockNum then
      if P.raised = P.options.maxFinancingAmount then .projectInProgress else .financing
    else if P.options.endFinancingBlockNum < P.head ∧ P.raised < P.options.minFinancingAmount then .financingFailue
    else if P.head ≤ P.options.endProjectBlockNum then .projectInProgress
    else .projectEnd
  else if P.options.endProjectBlockNum ≤ P.head then .projectEnd
  else P.state

/-! ### Events -/

/-- When an event can happen. -/
def Enabled : Event → Prop
  | .invest r asked _ =>
    P.OnOffer ∧ 0 < asked ∧ r.investmentKhdAmount.amount = P.accepted asked ∧ r.returnFinancingFlag = false ∧
      r.hasReceiveToken = false ∧ r.investmentTokens = 0 ∧ InInt64 (P.raised + P.accepted asked)
  | .issue total amounts =>
    P.PublicOffering ∧ P.Running ∧ P.raised = P.current ∧ P.supply = 0 ∧ amounts.length = P.records.length ∧
      amounts.sum = total ∧ 0 ≤ total ∧ total ≤ P.maxSupply
  | .refund x => P.PublicOffering ∧ P.state = .financingFailue ∧ P.owedTo x ≤ P.current ∧ P.records.filter (·.owed x) ≠ []
  | .claim amount =>
    P.PublicOffering ∧ P.Running ∧ P.claimTimes < 3 ∧ 0 < P.current ∧ 0 < P.issued ∧
      P.options.endFinancingBlockNum ≤ P.head ∧ P.options.startProjectBlockNum ≤ P.head ∧ amount ≤ P.current ∧
      ∃ share, uint128MulDiv P.raised khcFirstClaimInvestmentRatio khc100Percent = .ok share ∧
        amount = ClaimBitassetInvestment.amountAt P.claimTimes P.raised share
  | .receive x =>
    P.PublicOffering ∧ P.Running ∧ 0 < P.issued ∧
      (∀ r ∈ P.records, r.investmentAccountId = x → r.hasReceiveToken = false) ∧ 0 < P.tokensOf x ∧
      P.tokensOf x ≤ P.unclaimed
  | .mint amount => 0 < amount ∧ 0 < P.issued ∧ P.supply + amount ≤ P.maxSupply
  | .burn amount => 0 < amount ∧ amount ≤ P.supply
  | .update _ => True
  | .block _ => True
  | .idle => True

/-- The project with the head one block on. -/
def advance : Project := { P with head := P.head + 1 }

/-- What an event does. -/
def apply : Event → Project
  | .invest r asked now =>
    { P with
      options := if P.Fills asked then AssetInvestment.advancedEnd P.head now P.options else P.options
      raised := P.raised + r.investmentKhdAmount.amount
      current := P.current + r.investmentKhdAmount.amount
      state := AssetInvestment.investedState (decide (P.Fills asked)) P.state
      records := P.records ++ [r] }
  | .issue total amounts =>
    { P with
      supply := P.supply + total
      issued := total
      unclaimed := total
      records := List.zipWith AssetInvestment.give P.records amounts }
  | .refund x =>
    { P with
      current := P.current - P.owedTo x
      records := P.records.map fun r => if r.investmentAccountId = x then r.markRefunded else r }
  | .claim amount => { P with current := P.current - amount, claimTimes := P.claimTimes + 1 }
  | .receive x =>
    { P with
      unclaimed := P.unclaimed - P.tokensOf x
      held := P.held + P.tokensOf x
      records := P.records.map fun r => if r.investmentAccountId = x then r.markReceived else r }
  | .mint amount => { P with supply := P.supply + amount, held := P.held + amount }
  | .burn amount => { P with supply := P.supply - amount, held := P.held - amount }
  | .update maxSupply => { P with maxSupply }
  | .block maintained => if maintained then { P.advance with state := P.advance.nextState } else P.advance
  | .idle => P

/-- A project as it is registered. -/
structure Initial : Prop where
  offering : P.PublicOffering → P.state = .aboutToStart ∧ P.head ≤ P.options.startFinancingBlockNum
  other : ¬P.PublicOffering → P.state = .projectInProgress
  raised : P.raised = 0
  current : P.current = 0
  claimTimes : P.claimTimes = 0
  issued : P.issued = 0
  unclaimed : P.unclaimed = 0
  supply : P.supply = 0
  held : P.held = 0
  records : P.records = []

end Project

end Khc.Chain

/-! The project that the chain state holds, the event that a step of the chain is for it, and what the updates of
    the state do to it. -/

namespace Khc.Chain

open Lib Database

/-- An asset as a project. -/
def AssetObject.project (a : AssetObject) (head : Nat) (held : Int) (records : List AssetInvestment) : Project where
  head := head
  options := a.projOptions
  maxSupply := a.options.maxSupply
  state := a.dynamicData.state
  raised := a.dynamicData.financingConfidentialSupply
  current := a.dynamicData.financingCurrentSupply
  claimTimes := a.dynamicData.claimTimes
  issued := a.dynamicData.investmentConfidentialSupply
  unclaimed := a.dynamicData.investmentCurrentSupply
  supply := a.dynamicData.currentSupply
  held := held
  records := records

namespace Database

/-- The project of an asset, if it is one. -/
def project (d : Database) (p : AssetId) : Option Project :=
  match d.assets[p]? with
  | some a =>
    if a.isProjectAsset then some (a.project d.headBlockNumber (d.held p) (d.investmentsByAsset p)) else none
  | none => none

end Database

/-- What an accepted operation is for a project. -/
def Operation.event (d : Database) (now : Nat) (p : AssetId) : Operation → Event
  | transfer _ => .idle
  | assetCreate _ => .idle
  | assetUpdate o => if o.assetToUpdate = p then .update o.newOptions.maxSupply else .idle
  | assetUpdateIssuer _ => .idle
  | assetIssue o => if o.assetToIssue.assetId = p then .mint o.assetToIssue.amount else .idle
  | assetReserve o => if o.amountToReserve.assetId = p then .burn o.amountToReserve.amount else .idle
  | assetInvestment o =>
    if o.investmentAssetId = p then
      match d.project p with
      | some P => .invest (AssetInvestment.newInvestment d o (P.accepted o.amount.amount)) o.amount.amount now
      | none => .idle
    else .idle
  | issueAssetToInvestors o =>
    if o.investmentAssetId = p then
      match IssueAssetToInvestors.doEvaluate d o with
      | .ok e => .issue e.totalIssue e.issueAmounts
      | .error _ => .idle
    else .idle
  | refundInvestment o => if o.investmentAssetId = p then .refund o.accountId else .idle
  | claimBitassetInvestment o =>
    if o.assetId = p then
      match ClaimBitassetInvestment.doEvaluate d o with
      | .ok e => .claim e.khdAmount.amount
      | .error _ => .idle
    else .idle
  | claimAssetInvestment o => if o.assetId = p then .receive o.accountId else .idle

/-- What a step of the chain is for a project. -/
def Database.event (d : Database) (s : Step) (p : AssetId) : Event :=
  match s with
  | .operation now op =>
    match d.applyOperation now op with
    | .ok _ => op.event d now p
    | .error _ => .idle
  | .endBlock _ maintenance => .block maintenance.isSome

/-! ### The updates -/

section Updates
variable {d : Database} {p q : AssetId} {x : AccountId} {δ : Asset} {f : AssetObject → AssetObject} {P : Project}

theorem project_eq_some : d.project p = some P ↔ ∃ a, d.assets[p]? = some a ∧ a.isProjectAsset = true ∧
    P = a.project d.headBlockNumber (d.held p) (d.investmentsByAsset p) := by
  unfold Database.project
  cases d.assets[p]? with
  | none =>
    refine iff_of_false (Option.some_ne_none P).symm ?_
    rintro ⟨a, ha, -⟩
    exact Option.some_ne_none a ha.symm
  | some a =>
    dsimp only
    by_cases ha : a.isProjectAsset = true
    · rw [if_pos ha]
      constructor
      · intro h
        exact ⟨a, rfl, ha, (Option.some.inj h).symm⟩
      · rintro ⟨b, hb, -, rfl⟩
        rw [Option.some.inj hb]
    · rw [if_neg ha]
      refine iff_of_false (Option.some_ne_none P).symm ?_
      rintro ⟨b, hb, hproj, -⟩
      rw [← Option.some.inj hb] at hproj
      exact ha hproj

theorem project_congr {d' : Database} (ha : d'.assets[p]? = d.assets[p]?) (hh : d'.headBlockNumber = d.headBlockNumber)
    (hheld : d'.held p = d.held p) (hr : d'.investmentsByAsset p = d.investmentsByAsset p) :
    d'.project p = d.project p := by
  unfold Database.project
  rw [ha, hh, hheld, hr]

/-- The project with `n` more tokens held. -/
def Project.hold (P : Project) (n : Int) : Project := { P with held := P.held + n }

theorem project_credit (hx : x < d.accounts.length) (hP : d.project p = some P) :
    (d.credit x δ).project p = some (P.hold (if δ.assetId = p then δ.amount else 0)) := by
  obtain ⟨a, ha, hproj, rfl⟩ := project_eq_some.mp hP
  exact project_eq_some.mpr ⟨a, ha, hproj, by rw [held_credit hx]; rfl⟩

/-- A credit of another asset. -/
theorem project_credit_ne {n : Int} (hx : x < d.accounts.length) (hne : q ≠ p) :
    (d.credit x ⟨n, q⟩).project p = d.project p :=
  project_congr rfl rfl (by rw [held_credit hx, if_neg hne, add_zero]) rfl

/-- A change of an asset is a change of its project, and of no other. -/
theorem project_modifyAsset {g : Project → Project} (hP : d.project p = some P)
    (hproj : ∀ a, (f a).isProjectAsset = a.isProjectAsset)
    (hf : ∀ a, (f a).dynamicData.accumulatedFees = a.dynamicData.accumulatedFees)
    (hg : ∀ a n rs, (f a).project d.headBlockNumber n rs = g (a.project d.headBlockNumber n rs)) :
    (d.modifyAsset q f).project p = some (if q = p then g P else P) := by
  obtain ⟨a, ha, hp, rfl⟩ := project_eq_some.mp hP
  by_cases hq : q = p
  · subst hq
    refine project_eq_some.mpr ⟨f a, by rw [modifyAsset_self, ha]; rfl, by rw [hproj, hp], ?_⟩
    rw [held_modifyAsset hf, if_pos rfl, ← hg]
    rfl
  · rw [if_neg hq]
    exact project_eq_some.mpr ⟨a, by rw [modifyAsset_ne hq, ha], hp, by rw [held_modifyAsset hf]; rfl⟩

theorem project_investments {l rs : List AssetInvestment} (hP : d.project p = some P)
    (hl : l.filter (·.investmentAssetId = p) = rs) :
    ({ d with investments := l } : Database).project p = some { P with records := rs } := by
  obtain ⟨a, ha, hproj, rfl⟩ := project_eq_some.mp hP
  exact project_eq_some.mpr ⟨a, ha, hproj, by rw [← hl]; rfl⟩

theorem project_createInvestment (r : AssetInvestment) (hP : d.project p = some P) :
    (d.createInvestment r).project p =
      some { P with records := P.records ++ if r.investmentAssetId = p then [r] else [] } := by
  have happ := investmentsByAsset_append (createInvestment_investments (d := d) (r := r)) p
  obtain ⟨a, ha, hproj, rfl⟩ := project_eq_some.mp hP
  exact project_eq_some.mpr ⟨a, ha, hproj, by rw [happ]; rfl⟩

/-- The fee of an operation is held by the project until it is paid. -/
theorem project_charge {fee : Asset} {c : Int} (hlt : fee.assetId < d.assets.length) (hp : p ≠ 0)
    (hP : d.project p = some P) :
    (d.charge fee c).project p = some (P.hold (if fee.assetId = p then fee.amount else 0)) := by
  obtain ⟨a, ha, hproj, rfl⟩ := project_eq_some.mp hP
  obtain ⟨fees, pool, ha'⟩ := charge_getElem? fee c ha
  refine project_eq_some.mpr ⟨_, ha', hproj, ?_⟩
  rw [held_charge hlt hp, charge_head, investmentsByAsset_congr charge_investments]
  rfl

/-- A project is not the core asset. -/
theorem WellFormed.project_ne_zero (h : WellFormed d) (hP : d.project p = some P) : p ≠ 0 := by
  rintro rfl
  obtain ⟨a, ha, hproj, -⟩ := project_eq_some.mp hP
  obtain ⟨k, hk, -, hk'⟩ := h.registry.core
  obtain rfl := Option.some.inj ((kinds_getElem? ha).symm.trans hk)
  exact absurd hproj (by simpa [AssetObject.kind] using hk')

/-- KHD is not a project. -/
theorem WellFormed.khd_ne_project (h : WellFormed d) (hP : d.project p = some P) {k : AssetObject}
    (hk : d.assets[q]? = some k) (hsym : k.symbol = khdAssetSymbol) : q ≠ p := by
  rintro rfl
  obtain ⟨a, ha, hproj, -⟩ := project_eq_some.mp hP
  obtain rfl := Option.some.inj (ha.symm.trans hk)
  obtain ⟨k', hk', hsym', hissued⟩ := h.registry.khd ⟨a.kind, mem_kinds (mem_of_getElem? ha), hproj⟩
  have hsame : a.kind = k' := by
    refine List.inj_on_of_nodup_map h.registry.symbols (mem_kinds (mem_of_getElem? ha)) hk' ?_
    rw [hsym']
    exact hsym
  rw [← hsame] at hissued
  have hnot : a.isProjectAsset = false := h.registry.notBoth _ (mem_kinds (mem_of_getElem? ha)) hissued
  rw [hnot] at hproj
  exact Bool.false_ne_true hproj

end Updates

end Khc.Chain
