import Khc.Project.Sound

/-! The tokens of a project: that its supply is what accounts hold and investors have still to claim, and that an
    investor gets the tokens of an investment once. The guard of the second is the supply, which holders can burn. -/

namespace Khc.Chain

open Lib Database

namespace Project
variable {P : Project} {e : Event} {x : AccountId} {asked : Int} {now : Nat} {r : AssetInvestment}

/-! ### Tokens that are not claimed -/

theorem unclaimed_invest (htokens : r.investmentTokens = 0) :
    (P.apply (.invest r asked now)).unclaimedOfRecords = P.unclaimedOfRecords := by
  simp [apply, unclaimedOfRecords, AssetInvestment.unclaimedTokens, htokens]

theorem unclaimed_issue {total : Int} {amounts : List Int} (hlen : amounts.length = P.records.length) :
    (P.apply (.issue total amounts)).unclaimedOfRecords = amounts.sum :=
  sum_map_zipWith (w := AssetInvestment.unclaimedTokens) (fun _ _ => rfl) hlen

theorem unclaimed_refund : (P.apply (.refund x)).unclaimedOfRecords = P.unclaimedOfRecords := by
  simp only [apply, unclaimedOfRecords]
  rw [map_mark (p := fun r : AssetInvestment => r.investmentAccountId = x) (f := AssetInvestment.markRefunded)
    (fun _ => rfl)]

/-- What an account claims is what its records count for in the sum of all. -/
theorem tokensOf_eq (hnot : ∀ r ∈ P.records, r.investmentAccountId = x → r.hasReceiveToken = false) :
    P.tokensOf x = (P.records.map fun r => if r.investmentAccountId = x then r.unclaimedTokens else 0).sum := by
  rw [tokensOf, sum_map_filter]
  congr 1
  refine List.map_congr_left fun r hr => ?_
  by_cases hx : r.investmentAccountId = x
  · simp [hx, AssetInvestment.unclaimedTokens, hnot r hr hx]
  · simp [hx]

theorem unclaimed_receive (hnot : ∀ r ∈ P.records, r.investmentAccountId = x → r.hasReceiveToken = false) :
    (P.apply (.receive x)).unclaimedOfRecords = P.unclaimedOfRecords - P.tokensOf x := by
  have hmark := sum_map_mark AssetInvestment.unclaimedTokens AssetInvestment.unclaimedTokens
    (fun r => decide (r.investmentAccountId = x)) AssetInvestment.markReceived
    (fun r _ => by simp [AssetInvestment.unclaimedTokens, AssetInvestment.markReceived]) P.records
  simp only [decide_eq_true_eq] at hmark
  rw [tokensOf_eq hnot]
  exact hmark

/-! ### The supply -/

/-- The supply of a project is what is held of it and what is not claimed. -/
structure Supplied (P : Project) : Prop where
  supply : P.held + P.unclaimed = P.supply
  unclaimed : P.unclaimed = P.unclaimedOfRecords
  nonneg : 0 ≤ P.unclaimed

theorem Supplied.of_initial (h : P.Initial) : P.Supplied where
  supply := by rw [h.held, h.unclaimed, h.supply]; rfl
  unclaimed := by rw [h.unclaimed, unclaimedOfRecords, h.records]; rfl
  nonneg := h.unclaimed.ge

theorem Supplied.apply (h : P.Supplied) (he : P.Enabled e) (hheld : 0 ≤ P.held) : (P.apply e).Supplied := by
  have hsupply := h.supply
  have hnonneg := h.nonneg
  cases e with
  | invest r asked now =>
    obtain ⟨-, -, -, -, -, htokens, -⟩ := he
    exact ⟨h.supply, (unclaimed_invest htokens).symm ▸ h.unclaimed, h.nonneg⟩
  | issue total amounts =>
    obtain ⟨-, -, -, hzero, hlen, hsum, htotal, -⟩ := he
    refine ⟨?_, ?_, htotal⟩
    · -- without supply nothing is held and nothing is left to claim
      simp only [Project.apply]
      omega
    · rw [unclaimed_issue hlen, hsum]
      rfl
  | refund x => exact ⟨h.supply, unclaimed_refund.symm ▸ h.unclaimed, h.nonneg⟩
  | receive x =>
    obtain ⟨-, -, -, hnot, -, hcov⟩ := he
    refine ⟨?_, ?_, ?_⟩
    · simp only [Project.apply]
      omega
    · rw [unclaimed_receive hnot, ← h.unclaimed]
      rfl
    · simp only [Project.apply]
      omega
  | mint amount =>
    refine ⟨?_, h.unclaimed, h.nonneg⟩
    simp only [Project.apply]
    omega
  | burn amount =>
    refine ⟨?_, h.unclaimed, h.nonneg⟩
    simp only [Project.apply]
    omega
  | block maintained => cases maintained <;> exact ⟨h.supply, h.unclaimed, h.nonneg⟩
  | _ => exact ⟨h.supply, h.unclaimed, h.nonneg⟩

/-- Only the creation of tokens lets the supply grow. -/
theorem supply_apply (he : P.Enabled e) (hno : e.creates = false) : (P.apply e).supply ≤ P.supply := by
  cases e with
  | issue total amounts => cases hno
  | mint amount => cases hno
  | burn amount =>
    have hpos := he.1
    simp only [apply]
    omega
  | block maintained => cases maintained <;> exact le_refl _
  | _ => exact le_refl _

/-- Tokens are created up to the maximal supply. -/
theorem supply_creates (he : P.Enabled e) (hcreates : e.creates = true) : (P.apply e).supply ≤ P.maxSupply := by
  cases e with
  | issue total amounts =>
    obtain ⟨-, -, -, hzero, -, -, -, hmax⟩ := he
    simp only [apply]
    omega
  | mint amount => exact he.2.2
  | _ => cases hcreates

end Project

section
variable {d d₀ : Database} {p : AssetId} {P : Project} {a : AssetObject} {s : Step} {steps : List Step}

theorem WellFormed.held_nonneg (h : WellFormed d) (hP : d.project p = some P) : 0 ≤ P.held := by
  obtain ⟨a, ha, -, rfl⟩ := project_eq_some.mp hP
  have hbalances := accountBalances_nonneg h.balances p
  have hfees := (h.counted a (mem_of_getElem? ha)).fees
  have hheld : d.held p = d.accountBalances p + a.dynamicData.accumulatedFees := by rw [held, accumulatedFees_of ha]
  simp only [AssetObject.project, hheld]
  omega

theorem Start.supplied (h₀ : Start d₀) (hP : (d₀.run steps).project p = some P) : P.Supplied :=
  run_project (C := fun _ _ => True) (fun _ => .of_initial)
    (fun _ _ _ hwf hP _ he h => h.apply he (hwf.held_nonneg hP)) h₀ (along_iff_at.mpr fun _ _ _ => trivial) hP

end

/-- The supply of a project is what accounts and its fees hold and what its records have still to get, and not above
    its maximum of when tokens were last created. -/
structure TokensCounted (d₀ : Database) (p : AssetId) (steps : List Step) (a : AssetObject) : Prop where
  unclaimed : a.dynamicData.investmentCurrentSupply =
    ((((d₀.run steps).investmentsByAsset p).filter (·.hasReceiveToken = false)).map (·.investmentTokens)).sum
  supply : (d₀.run steps).accountBalances p + a.dynamicData.accumulatedFees + a.dynamicData.investmentCurrentSupply =
    a.dynamicData.currentSupply
  max : ∀ before s after, steps = before ++ s :: after → (d₀.run before).creates p s = true →
    Along Database.step (fun d t => d.creates p t = false) (d₀.run (before ++ [s])) after →
    ∀ b ∈ (d₀.run before).assets[p]?, a.dynamicData.currentSupply ≤ b.options.maxSupply
  none : Along Database.step (fun d t => d.creates p t = false) d₀ steps → a.dynamicData.currentSupply = 0

section
variable {d d₀ : Database} {p : AssetId} {P : Project} {a : AssetObject} {steps : List Step}

theorem unclaimedOfRecords_eq : P.unclaimedOfRecords =
    ((P.records.filter (·.hasReceiveToken = false)).map (·.investmentTokens)).sum := by
  rw [Project.unclaimedOfRecords, sum_map_filter]
  congr 1
  refine List.map_congr_left fun r _ => ?_
  cases hr : r.hasReceiveToken <;> simp [AssetInvestment.unclaimedTokens, hr]

/-- The supply only shrinks while no tokens are created. -/
theorem supply_run (h : WellFormed d) (hP : d.project p = some P)
    (hno : Along Database.step (fun d s => d.creates p s = false) d steps) :
    ∃ Q, (d.run steps).project p = some Q ∧ Q.supply ≤ P.supply := by
  refine project_run (C := fun d s => d.creates p s = false) (I := fun Q => Q.supply ≤ P.supply)
    (fun d s Q _ hQ hC hen hle => ?_) h hno hP (le_refl _)
  rw [creates_eq] at hC
  exact (Project.supply_apply hen hC).trans hle

/-- The tokens of a project are counted rightly in every state. -/
theorem tokens_counted (h₀ : Start d₀) (ha : (d₀.run steps).assets[p]? = some a) (hproj : a.isProjectAsset = true) :
    TokensCounted d₀ p steps a := by
  have hP := project_eq_some.mpr ⟨a, ha, hproj, rfl⟩
  have hwf := h₀.wellFormed.run steps
  have hsupplied := h₀.supplied hP
  have hheld := hwf.held_nonneg hP
  constructor
  case unclaimed =>
    have hsum := hsupplied.unclaimed
    rwa [unclaimedOfRecords_eq] at hsum
  case supply =>
    have hsum := hsupplied.supply
    have hsplit : (d₀.run steps).held p = (d₀.run steps).accountBalances p + a.dynamicData.accumulatedFees := by
      rw [held, accumulatedFees_of ha]
    rw [← hsplit]
    exact hsum
  case max =>
    rintro before s after rfl hcreates hno b hb
    have hbefore := h₀.wellFormed.run before
    -- the asset of before is the project of now
    have hkind : b.kind = a.kind := by
      have hk := kind_run hbefore (kinds_getElem? hb) (s :: after)
      rw [Database.run, ← run_append] at hk
      exact Option.some.inj (hk.symm.trans (kinds_getElem? ha))
    have hbproj : b.isProjectAsset = true := (congrArg AssetKind.project hkind).trans hproj
    have hB := project_eq_some.mpr ⟨b, hb, hbproj, rfl⟩
    obtain ⟨hen, hnext⟩ := project_step hbefore hB s
    rw [creates_eq] at hcreates
    have hmax := Project.supply_creates hen hcreates
    have hrun : Database.step (d₀.run before) s = d₀.run (before ++ [s]) := run_snoc.symm
    rw [hrun] at hnext
    obtain ⟨Q, hQ, hle⟩ := supply_run (h₀.wellFormed.run _) hnext hno
    rw [Database.run, ← run_append, List.append_assoc, List.singleton_append] at hQ
    obtain rfl := Option.some.inj (hP.symm.trans hQ)
    exact hle.trans hmax
  case none =>
    intro hno
    have hle := run_project (C := fun d t => d.creates p t = false) (I := fun P => P.supply ≤ 0)
      (fun P h => h.supply.le) (fun d s P _ _ hC hen hle => by
        rw [creates_eq] at hC
        exact (Project.supply_apply hen hC).trans hle) h₀ hno hP
    have hsum := hsupplied.supply
    have hnonneg := hsupplied.nonneg
    simp only [AssetObject.project] at hle hsum hnonneg hheld
    omega

end

section
open Sample

/-- A transfer of a token by an investor who pays its fee of five in the token. -/
def payInToken : Step := .operation 0 (.transfer ⟨⟨5, 2⟩, 2, 3, ⟨1, 2⟩⟩)

/-- All tokens are issued and claimed. -/
def receivedRun : List Step := [create offering, maintain, invest 2 200, issue, receive 2]

/-- The five tokens of the fee are in no balance. -/
theorem tokens_inFees : Start genesis ∧ ∃ a ∈ (genesis.run (receivedRun ++ [payInToken])).assets[2]?,
    a.isProjectAsset = true ∧ (genesis.run (receivedRun ++ [payInToken])).accountBalances 2 +
      a.dynamicData.investmentCurrentSupply + 5 = a.dynamicData.currentSupply :=
  ⟨genesis_start, _, rfl, by decide, by decide⟩

theorem tokens_counted_received : ∃ a ∈ (genesis.run (receivedRun ++ [payInToken])).assets[2]?,
    a.dynamicData.currentSupply = 200000 ∧ TokensCounted genesis 2 (receivedRun ++ [payInToken]) a :=
  ⟨_, rfl, by decide, tokens_counted genesis_start rfl (by decide)⟩

end

/-! ### Tokens once -/

/-- The number of times that an account gets its tokens of a project in a run. -/
def Database.receiveCount (d₀ : Database) (p : AssetId) (x : AccountId) (steps : List Step) : Nat :=
  tally step (fun d s => (d.receives p x s).toNat) d₀ steps

/-- The step issues the tokens of a project to its investors again, when holders have burned all of them and the
    issuer has claimed no KHD. -/
def Database.reissues (d : Database) (p : AssetId) : Step → Bool
  | .operation _ (.issueAssetToInvestors o) => o.investmentAssetId = p && (d.project p).any fun P =>
    0 < P.issued && P.supply = 0 && P.raised = P.current
  | _ => false

namespace Project
variable {P : Project} {e : Event} {x : AccountId}

/-- The account has got its tokens of the project. -/
structure Received (P : Project) (x : AccountId) : Prop where
  issued : 0 < P.issued
  record : ∃ r ∈ P.records, r.investmentAccountId = x ∧ r.hasReceiveToken = true

theorem Received.of_receive (he : P.Enabled (.receive x)) : (P.apply (.receive x)).Received x := by
  obtain ⟨-, -, hissued, -, htokens, -⟩ := he
  refine ⟨hissued, ?_⟩
  -- a positive sum of tokens has a record in it
  obtain ⟨r, hr⟩ : ∃ r, r ∈ P.records.filter (·.investmentAccountId = x) := by
    refine List.exists_mem_of_ne_nil _ fun hnil => ?_
    rw [tokensOf, hnil] at htokens
    exact absurd htokens (lt_irrefl _)
  obtain ⟨hmem, hx⟩ := List.mem_filter.mp hr
  have hx' : r.investmentAccountId = x := by simpa using hx
  exact ⟨r.markReceived, List.mem_map.mpr ⟨r, hmem, if_pos hx'⟩, hx', rfl⟩

/-- An account that has got its tokens cannot get them again. -/
theorem Received.not_receive (h : P.Received x) : ¬P.Enabled (.receive x) := by
  rintro ⟨-, -, -, hnot, -⟩
  obtain ⟨r, hr, hx, hreceived⟩ := h.record
  rw [hnot r hr hx] at hreceived
  cases hreceived

/-- Marks of refunds and of tokens leave a mark of tokens. -/
theorem Received.of_map (h : P.Received x) {Q : Project} {f : AssetInvestment → AssetInvestment}
    (hissued : Q.issued = P.issued) (hrecords : Q.records = P.records.map f)
    (haccount : ∀ r, (f r).investmentAccountId = r.investmentAccountId)
    (hmark : ∀ r, r.hasReceiveToken = true → (f r).hasReceiveToken = true) : Q.Received x := by
  obtain ⟨r, hr, hx, hreceived⟩ := h.record
  refine ⟨hissued ▸ h.issued, f r, ?_, (haccount r).trans hx, hmark r hreceived⟩
  rw [hrecords]
  exact List.mem_map_of_mem hr

theorem Received.apply (h : P.Received x) (he : P.Enabled e)
    (hin : ∀ total amounts, e = .issue total amounts → P.supply = 0 → P.raised = P.current → ¬0 < P.issued) :
    (P.apply e).Received x := by
  cases e with
  | invest r asked now =>
    obtain ⟨r', hr', hx, hreceived⟩ := h.record
    exact ⟨h.issued, r', List.mem_append_left _ hr', hx, hreceived⟩
  | issue total amounts =>
    obtain ⟨-, -, hraised, hzero, -⟩ := he
    exact absurd h.issued (hin total amounts rfl hzero hraised)
  | refund y =>
    refine h.of_map (f := fun r => if r.investmentAccountId = y then r.markRefunded else r) rfl rfl ?_ ?_
    · intro r
      split <;> rfl
    · intro r hr
      split <;> exact hr
  | receive y =>
    refine h.of_map (f := fun r => if r.investmentAccountId = y then r.markReceived else r) rfl rfl ?_ ?_
    · intro r
      split <;> rfl
    · intro r hr
      split
      · rfl
      · exact hr
  | block maintained => cases maintained <;> exact ⟨h.issued, h.record⟩
  | _ => exact ⟨h.issued, h.record⟩

end Project

section
variable {d d₀ : Database} {p : AssetId} {P : Project} {x : AccountId} {s : Step} {steps : List Step}

theorem receives_of_none (hnone : d.project p = none) : d.receives p x s = false := by
  by_contra hreceives
  obtain ⟨P, hP⟩ := project_of_receives (Bool.not_eq_false _ ▸ hreceives)
  rw [hnone] at hP
  cases hP

/-- Unless the tokens of a project are issued again, an account gets its tokens of the project at most once. -/
theorem received_once (h₀ : Start d₀) (hC : Along Database.step (fun d s => d.reissues p s = false) d₀ steps) :
    d₀.receiveCount p x steps ≤ 1 := by
  have hzero : ∀ (d : Database) s, d.project p = none → (d.receives p x s).toNat = 0 := fun d s hnone => by
    rw [receives_of_none hnone]
    rfl
  cases hP : (d₀.run steps).project p with
  | none =>
    rw [receiveCount, tally_of_none hzero h₀.wellFormed hP]
    exact zero_le_one
  | some P =>
    have hinv := run_history (C := fun d s => d.reissues p s = false) (f := fun d s => (d.receives p x s).toNat)
      (I := fun P n => n = 0 ∨ n = 1 ∧ P.Received x) hzero (fun _ _ => .inl rfl)
      (fun d s P n _ hP hC hen h => ?_) h₀ hC hP
    · exact hinv.elim (fun h => h.trans_le zero_le_one) fun h => h.1.le
    · cases hr : d.receives p x s with
      | true =>
        -- the account gets its tokens now, so it did not before
        rw [receives_iff] at hr
        rw [hr] at hen ⊢
        rcases h with rfl | ⟨-, hreceived⟩
        · exact .inr ⟨rfl, .of_receive hen⟩
        · exact absurd hen hreceived.not_receive
      | false =>
        refine h.imp id fun ⟨hn, hreceived⟩ => ⟨hn, hreceived.apply hen fun total amounts he hsupply hraised hissued => ?_⟩
        obtain ⟨now, o, rfl, rfl⟩ := event_issue he
        rw [← Bool.not_eq_true] at hC
        simp only [Database.reissues, hP, Option.any_some, Bool.and_eq_true, decide_eq_true_eq] at hC
        exact hC ⟨trivial, ⟨hissued, hsupply⟩, hraised⟩

end

section
open Sample

/-- The investor burns all tokens. -/
def burn : Step := .operation 0 (.assetReserve ⟨noFee, 2, ⟨200000, 2⟩⟩)

theorem received_twice : Start genesis ∧ genesis.receiveCount 2 2 (receivedRun ++ [burn, issue, receive 2]) = 2 :=
  ⟨genesis_start, by decide⟩

theorem received_once_received : genesis.receiveCount 2 2 receivedRun = 1 ∧
    genesis.receiveCount 2 2 (receivedRun ++ [receive 2]) ≤ 1 :=
  ⟨by decide, received_once genesis_start (by decide)⟩

end

end Khc.Chain
