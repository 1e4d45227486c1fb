import Khc.Project.History

/-! The life of a public offering: that it is paid out only above its minimum, and either paid out or refunded, and
    that its states follow one another in order. Both fail where the maintenance meets the project at its end block,
    which the cascade treats as the end of a successful financing. -/

namespace Khc.Chain

open Lib Database

/-! ### The steps that put a project in progress too early -/

/-- The step ends the financing of a project below its minimum: a maintenance at its end block, or an investment that
    fills it. -/
def Database.endsShort (d : Database) (p : AssetId) : Step → Bool
  | .endBlock _ (some _) => (d.project p).any fun P =>
    P.options.startFinancingBlockNum ≤ P.head + 1 && P.head + 1 = P.options.endFinancingBlockNum &&
      P.raised < P.options.minFinancingAmount
  | .operation _ (.assetInvestment o) => o.investmentAssetId = p && (d.project p).any fun P =>
    P.OnOffer && P.Fills o.amount.amount && P.raised + P.accepted o.amount.amount < P.options.minFinancingAmount
  | _ => false

/-- The step puts a project in progress below its minimum, or back in progress from its end. -/
def Database.startsWrongly (d : Database) (p : AssetId) : Step → Bool
  | .endBlock _ (some _) => (d.project p).any fun P =>
    P.options.startFinancingBlockNum ≤ P.head + 1 && P.raised < P.options.minFinancingAmount &&
      (P.head + 1 = P.options.endFinancingBlockNum && P.head + 1 ≤ P.options.endProjectBlockNum ||
        P.head + 1 < P.options.endFinancingBlockNum && P.raised = P.options.maxFinancingAmount)
  | .operation _ (.assetInvestment o) => o.investmentAssetId = p && (d.project p).any fun P =>
    P.OnOffer && P.Fills o.amount.amount &&
      (P.raised + P.accepted o.amount.amount < P.options.minFinancingAmount || P.state = .projectEnd)
  | _ => false

namespace Project
variable {P : Project} {e : Event} {asked : Int} {now : Nat} {r : AssetInvestment}

/-- The event does not end the financing below the minimum. -/
structure EndsFunded (P : Project) (e : Event) : Prop where
  block : e = .block true → P.options.startFinancingBlockNum ≤ P.head + 1 →
    P.head + 1 = P.options.endFinancingBlockNum → P.options.minFinancingAmount ≤ P.raised
  invest : ∀ r asked now, e = .invest r asked now → P.Fills asked →
    P.options.minFinancingAmount ≤ P.raised + P.accepted asked

/-- The event does not put the project in progress below the minimum, or from its end. -/
structure StartsRightly (P : Project) (e : Event) : Prop where
  block : e = .block true → P.options.startFinancingBlockNum ≤ P.head + 1 →
    P.head + 1 = P.options.endFinancingBlockNum → P.head + 1 ≤ P.options.endProjectBlockNum →
    P.options.minFinancingAmount ≤ P.raised
  full : e = .block true → P.options.startFinancingBlockNum ≤ P.head + 1 →
    P.head + 1 < P.options.endFinancingBlockNum → P.raised = P.options.maxFinancingAmount →
    P.options.minFinancingAmount ≤ P.raised
  invest : ∀ r asked now, e = .invest r asked now → P.Fills asked →
    P.options.minFinancingAmount ≤ P.raised + P.accepted asked ∧ P.state ≠ .projectEnd

/-! ### Funded projects -/

/-- A public offering that is paid out or in progress has reached its minimum, and one that failed has not. -/
structure Funded (P : Project) : Prop extends P.Sound where
  claimed : 0 < P.claimTimes → P.options.minFinancingAmount ≤ P.raised
  full : 0 < P.options.maxFinancingAmount → P.options.maxFinancingAmount ≤ P.raised →
    P.options.minFinancingAmount ≤ P.raised
  running : P.Running → 0 < P.options.maxFinancingAmount → P.options.minFinancingAmount ≤ P.raised
  short : P.state = .financingFailue → P.raised < P.options.minFinancingAmount

theorem Funded.of_initial (h : P.Initial) (hpub : P.PublicOffering) : P.Funded where
  toSound := .of_initial h
  claimed hpos := by rw [h.claimTimes] at hpos; omega
  full hmax hle := by rw [h.raised] at hle; omega
  running hrun := by rw [Running, (h.offering hpub).1] at hrun; simp at hrun
  short hfail := by rw [(h.offering hpub).1] at hfail; cases hfail

/-- Money is in escrow only of a project that takes some. -/
theorem Sound.max_pos (h : P.Sound) (hpos : 0 < P.current) : 0 < P.options.maxFinancingAmount := by
  have hle := h.le
  by_contra hmax
  have hnone := h.noOffer (not_lt.mp hmax)
  omega

theorem Funded.invest (h : P.Funded) (he : P.Enabled (.invest r asked now)) (hin : P.EndsFunded (.invest r asked now)) :
    (P.apply (.invest r asked now)).Funded := by
  have hsound := h.toSound.apply he
  obtain ⟨hoffer, hpos, hamount, -⟩ := he
  have hacc := hoffer.accepted_pos hpos
  have hraised : (P.apply (.invest r asked now)).raised = P.raised + P.accepted asked := by rw [← hamount]; rfl
  refine ⟨hsound, fun hclaimed => ?_, fun hmax hfull => ?_, fun hrun hmax => ?_, fun hfail => ?_⟩
  · rw [invest_min, hraised]
    have := h.claimed hclaimed
    omega
  · rw [invest_max] at hmax hfull
    rw [invest_min, hraised]
    rw [hraised] at hfull
    by_cases hfills : P.Fills asked
    · exact hin.invest r asked now rfl hfills
    · -- what is raised is more than what is in escrow, so the issuer has claimed
      have hclaimed : 0 < P.claimTimes := Nat.pos_of_ne_zero fun hzero => by
        have hsame := h.untouched hzero (h.not_failed hoffer)
        rw [accepted, if_neg hfills] at hfull
        rw [Fills] at hfills
        omega
      have := h.claimed hclaimed
      omega
  · rw [invest_max] at hmax
    rw [invest_min, hraised]
    by_cases hfills : P.Fills asked
    · exact hin.invest r asked now rfl hfills
    · have hrun' : P.Running := by
        simp only [Running, apply, AssetInvestment.investedState, hfills, decide_false, Bool.false_eq_true,
          if_false] at hrun
        split at hrun
        · simp at hrun
        · exact hrun
      have := h.running hrun' hmax
      omega
  · exact absurd hfail (h.not_failed hoffer ∘ investedState_failue)

theorem Funded.block (h : P.Funded) (hpub : P.PublicOffering) {maintained : Bool} (hin : P.EndsFunded (.block maintained)) :
    (P.apply (.block maintained)).Funded := by
  have hsound := h.toSound.block maintained
  cases maintained with
  | false => exact ⟨hsound, h.claimed, h.full, h.running, h.short⟩
  | true =>
    have hmaint := nextState_maintained (P := P.advance) hpub
    refine ⟨hsound, h.claimed, h.full, fun hrun hmax => ?_, fun hfail => ?_⟩
    · replace hrun : P.advance.nextState = .projectInProgress ∨ P.advance.nextState = .projectEnd := hrun
      generalize P.advance.nextState = σ at hmaint hrun
      cases hmaint with
      | past _ => exact h.running hrun hmax
      | full hstart hend hraised => exact h.full hmax hraised.ge
      | begun hstart hend hraised _ => exact hraised.elim id fun hhead => hin.block rfl hstart hhead
      | ended hstart hend hraised _ => exact hraised.elim id fun hhead => hin.block rfl hstart hhead
      | _ => simp at hrun
    · replace hfail : P.advance.nextState = .financingFailue := hfail
      generalize P.advance.nextState = σ at hmaint hfail
      cases hmaint with
      | past _ => exact h.short hfail
      | failed _ hraised => exact hraised
      | _ => cases hfail

theorem Funded.apply (h : P.Funded) (hpub : P.PublicOffering) (he : P.Enabled e) (hin : P.EndsFunded e) :
    (P.apply e).Funded := by
  have hsound := h.toSound.apply he
  cases e with
  | invest r asked now => exact h.invest he hin
  | block maintained => exact h.block hpub hin
  | claim amount =>
    refine ⟨hsound, fun _ => ?_, h.full, h.running, h.short⟩
    obtain ⟨-, hrun, -, hleft, -⟩ := he
    exact h.running hrun (h.max_pos hleft)
  | _ => exact ⟨hsound, h.claimed, h.full, h.running, h.short⟩

/-! ### Ordered projects -/

/-- A project in progress has started, has its minimum, and takes no more investments. -/
structure Ordered (P : Project) : Prop extends P.Sound where
  financing : P.state = .financing → P.options.startFinancingBlockNum ≤ P.head
  started : P.state = .projectInProgress → P.options.startFinancingBlockNum ≤ P.head
  funded : P.state = .projectInProgress → P.options.minFinancingAmount ≤ P.raised
  closed : P.state = .projectInProgress → P.head < P.options.endFinancingBlockNum →
    P.raised = P.options.maxFinancingAmount

theorem Ordered.of_initial (h : P.Initial) (hpub : P.PublicOffering) : P.Ordered where
  toSound := .of_initial h
  financing hstate := by rw [(h.offering hpub).1] at hstate; cases hstate
  started hstate := by rw [(h.offering hpub).1] at hstate; cases hstate
  funded hstate := by rw [(h.offering hpub).1] at hstate; cases hstate
  closed hstate := by rw [(h.offering hpub).1] at hstate; cases hstate

end Project

/-- The order of the states of a public offering. -/
def ProjectState.forward : ProjectState → ProjectState → Bool
  | .aboutToStart, _ => true
  | .financing, σ => σ ≠ .aboutToStart
  | .financingFailue, σ => σ = .financingFailue
  | .projectInProgress, σ => σ = .projectInProgress ∨ σ = .projectEnd
  | .projectEnd, σ => σ = .projectEnd

theorem ProjectState.forward_refl (σ : ProjectState) : σ.forward σ = true := by
  cases σ <;> rfl

namespace Project
variable {P : Project} {e : Event} {asked : Int} {now : Nat} {r : AssetInvestment}

theorem Ordered.invest (h : P.Ordered) (he : P.Enabled (.invest r asked now)) (hin : P.StartsRightly (.invest r asked now)) :
    P.state.forward (P.apply (.invest r asked now)).state = true ∧ (P.apply (.invest r asked now)).Ordered := by
  have hsound := h.toSound.apply he
  obtain ⟨hoffer, hpos, hamount, -⟩ := he
  have hacc := hoffer.accepted_pos hpos
  have hnot := h.not_failed hoffer
  have hraised : (P.apply (.invest r asked now)).raised = P.raised + P.accepted asked := by rw [← hamount]; rfl
  have hstart : (P.apply (.invest r asked now)).options.startFinancingBlockNum = P.options.startFinancingBlockNum := by
    simp only [apply]
    split <;> rfl
  by_cases hfills : P.Fills asked
  · -- the project is put in progress, and its offering ends here
    obtain ⟨hmin, hend⟩ := hin.invest r asked now rfl hfills
    have hstate : (P.apply (.invest r asked now)).state = .projectInProgress := by
      simp [apply, AssetInvestment.investedState, hfills]
    have hlast : (P.apply (.invest r asked now)).options.endFinancingBlockNum = P.head := by
      simp only [apply, if_pos hfills]
      rfl
    refine ⟨?_, hsound, fun _ => ?_, fun _ => ?_, fun _ => ?_, fun _ hlt => ?_⟩
    · rw [hstate]
      cases hs : P.state <;> simp_all [ProjectState.forward]
    · rw [hstart]
      exact hoffer.started
    · rw [hstart]
      exact hoffer.started
    · rw [invest_min, hraised]
      exact hmin
    · rw [hlast] at hlt
      exact absurd hlt (lt_irrefl _)
  · have hstate : (P.apply (.invest r asked now)).state =
        if P.state = .aboutToStart then .financing else P.state := by
      simp [apply, AssetInvestment.investedState, hfills]
    have hlast : (P.apply (.invest r asked now)).options.endFinancingBlockNum = P.options.endFinancingBlockNum := by
      simp only [apply, if_neg hfills]
    have hprogress : (P.apply (.invest r asked now)).state = .projectInProgress → P.state = .projectInProgress := by
      rw [hstate]
      split
      · exact fun hs => by cases hs
      · exact id
    refine ⟨?_, hsound, fun _ => ?_, fun hs => ?_, fun hs => ?_, fun hs hlt => ?_⟩
    · rw [hstate]
      split
      · rename_i hs
        rw [hs]
        rfl
      · exact P.state.forward_refl
    · rw [hstart]
      exact hoffer.started
    · rw [hstart]
      exact hoffer.started
    · rw [invest_min, hraised]
      have := h.funded (hprogress hs)
      omega
    · -- a project that is full before its end block takes no investment
      rw [hlast] at hlt
      have hfull := h.closed (hprogress hs) hlt
      have hsame := h.early hlt
      have hroom := hoffer.belowMax
      omega

theorem Ordered.block (h : P.Ordered) (hpub : P.PublicOffering) {maintained : Bool}
    (hin : P.StartsRightly (.block maintained)) :
    P.state.forward (P.apply (.block maintained)).state = true ∧ (P.apply (.block maintained)).Ordered := by
  have hsound := h.toSound.block maintained
  have hfinancing : P.state = .financing → P.advance.options.startFinancingBlockNum ≤ P.advance.head :=
    fun hs => (h.financing hs).trans (Nat.le_succ _)
  have hstarted : P.state = .projectInProgress → P.advance.options.startFinancingBlockNum ≤ P.advance.head :=
    fun hs => (h.started hs).trans (Nat.le_succ _)
  have hclosed : P.state = .projectInProgress → P.advance.head < P.advance.options.endFinancingBlockNum →
      P.raised = P.options.maxFinancingAmount :=
    fun hs hlt => h.closed hs ((Nat.lt_succ_self _).trans hlt)
  cases maintained with
  | false => exact ⟨P.state.forward_refl, hsound, hfinancing, hstarted, h.funded, hclosed⟩
  | true =>
    by_cases hover : P.advance.state = .projectEnd ∨ P.advance.state = .financingFailue
    · have hsame : (P.apply (.block true)).state = P.state := if_pos hover
      refine ⟨?_, hsound, fun hs => ?_, fun hs => ?_, fun hs => ?_, fun hs => ?_⟩
      · rw [hsame]
        exact P.state.forward_refl
      · exact hfinancing (hsame ▸ hs)
      · exact hstarted (hsame ▸ hs)
      · exact h.funded (hsame ▸ hs)
      · exact hclosed (hsame ▸ hs)
    · have hmaint := nextState_maintained (P := P.advance) hpub
      have hnext : (P.apply (.block true)).state = P.advance.nextState := rfl
      suffices hboth : P.state.forward P.advance.nextState = true ∧
          (P.advance.nextState = .financing → P.advance.options.startFinancingBlockNum ≤ P.advance.head) ∧
          (P.advance.nextState = .projectInProgress → P.advance.options.startFinancingBlockNum ≤ P.advance.head ∧
            P.options.minFinancingAmount ≤ P.raised ∧
            (P.advance.head < P.advance.options.endFinancingBlockNum → P.raised = P.options.maxFinancingAmount)) from
        ⟨hboth.1, hsound, hboth.2.1, fun hs => (hboth.2.2 hs).1, fun hs => (hboth.2.2 hs).2.1,
          fun hs => (hboth.2.2 hs).2.2⟩
      have hstates : P.state = .aboutToStart ∨ P.state = .financing ∨ P.state = .projectInProgress := by
        have hover' : ¬(P.state = .projectEnd ∨ P.state = .financingFailue) := hover
        cases hs : P.state <;> simp_all
      generalize P.advance.nextState = σ at hmaint ⊢
      cases hmaint with
      | past h => exact absurd h hover
      | notStarted hstart =>
        refine ⟨?_, fun hs => (by cases hs), fun hs => (by cases hs)⟩
        rcases hstates with hs | hs | hs
        · rw [hs]; rfl
        · exact absurd hstart (not_lt.mpr (hfinancing hs))
        · exact absurd hstart (not_lt.mpr (hstarted hs))
      | full hstart hend hraised =>
        refine ⟨?_, fun hs => (by cases hs), fun _ => ⟨hstart, hin.full rfl hstart hend hraised, fun _ => hraised⟩⟩
        rcases hstates with hs | hs | hs <;> rw [hs] <;> rfl
      | unfilled hstart hend hraised =>
        refine ⟨?_, fun _ => hstart, fun hs => (by cases hs)⟩
        rcases hstates with hs | hs | hs
        · rw [hs]; rfl
        · rw [hs]; rfl
        · exact absurd (hclosed hs hend) hraised
      | failed hend hraised =>
        refine ⟨?_, fun hs => (by cases hs), fun hs => (by cases hs)⟩
        rcases hstates with hs | hs | hs
        · rw [hs]; rfl
        · rw [hs]; rfl
        · exact absurd (h.funded hs) (not_le.mpr hraised)
      | begun hstart hend hraised hproj =>
        refine ⟨?_, fun hs => (by cases hs), fun _ => ⟨hstart, ?_, fun hlt => absurd hlt (not_lt.mpr hend)⟩⟩
        · rcases hstates with hs | hs | hs <;> rw [hs] <;> rfl
        · exact hraised.elim id fun hhead => hin.block rfl hstart hhead hproj
      | ended hstart hend hraised hproj =>
        refine ⟨?_, fun hs => (by cases hs), fun hs => (by cases hs)⟩
        rcases hstates with hs | hs | hs <;> rw [hs] <;> rfl

/-- An event moves an ordered project forward and leaves it ordered. -/
theorem Ordered.apply (h : P.Ordered) (hpub : P.PublicOffering) (he : P.Enabled e) (hin : P.StartsRightly e) :
    P.state.forward (P.apply e).state = true ∧ (P.apply e).Ordered := by
  have hsound := h.toSound.apply he
  cases e with
  | invest r asked now => exact h.invest he hin
  | block maintained => exact h.block hpub hin
  | _ => exact ⟨P.state.forward_refl, hsound, h.financing, h.started, h.funded, h.closed⟩

end Project

section
variable {d : Database} {p : AssetId} {P : Project} {s : Step}

theorem endsFunded_event (hP : d.project p = some P) (hen : P.Enabled (d.event s p)) (h : d.endsShort p s = false) :
    P.EndsFunded (d.event s p) := by
  rw [← Bool.not_eq_true] at h
  constructor
  case block =>
    intro he hstart hend
    obtain ⟨t, ps, rfl⟩ := event_maintenance he
    simp only [Database.endsShort, hP, Option.any_some, Bool.and_eq_true, decide_eq_true_eq] at h
    exact not_lt.mp fun hmin => h ⟨⟨hstart, hend⟩, hmin⟩
  case invest =>
    intro r asked now he hfills
    rw [he] at hen
    obtain ⟨o, rfl, rfl, rfl⟩ := event_invest he
    simp only [Database.endsShort, hP, Option.any_some, Bool.and_eq_true, decide_eq_true_eq] at h
    exact not_lt.mp fun hmin => h ⟨trivial, ⟨hen.1, hfills⟩, hmin⟩

theorem startsRightly_event (hP : d.project p = some P) (hen : P.Enabled (d.event s p))
    (h : d.startsWrongly p s = false) : P.StartsRightly (d.event s p) := by
  rw [← Bool.not_eq_true] at h
  constructor
  case block =>
    intro he hstart hend hproj
    obtain ⟨t, ps, rfl⟩ := event_maintenance he
    simp only [Database.startsWrongly, hP, Option.any_some, Bool.and_eq_true, Bool.or_eq_true, decide_eq_true_eq] at h
    exact not_lt.mp fun hmin => h ⟨⟨hstart, hmin⟩, .inl ⟨hend, hproj⟩⟩
  case full =>
    intro he hstart hend hfull
    obtain ⟨t, ps, rfl⟩ := event_maintenance he
    simp only [Database.startsWrongly, hP, Option.any_some, Bool.and_eq_true, Bool.or_eq_true, decide_eq_true_eq] at h
    exact not_lt.mp fun hmin => h ⟨⟨hstart, hmin⟩, .inr ⟨hend, hfull⟩⟩
  case invest =>
    intro r asked now he hfills
    rw [he] at hen
    obtain ⟨o, rfl, rfl, rfl⟩ := event_invest he
    simp only [Database.startsWrongly, hP, Option.any_some, Bool.and_eq_true, Bool.or_eq_true, decide_eq_true_eq] at h
    exact ⟨not_lt.mp fun hmin => h ⟨trivial, ⟨hen.1, hfills⟩, .inl hmin⟩, fun hend => h ⟨trivial, ⟨hen.1, hfills⟩, .inr hend⟩⟩

end

/-! ### Paid out or refunded -/

/-- The issuer of a project is paid only above the minimum of the project, and only if no investor is refunded. -/
structure PaidOutRightly (d₀ : Database) (p : AssetId) (steps : List Step) : Prop where
  aboveMin : ∀ d s, At Database.step d₀ steps d s → d.claims p s = true →
    ∀ a ∈ d.assets[p]?, a.projOptions.minFinancingAmount ≤ a.dynamicData.financingConfidentialSupply
  notBoth : ¬((∃ d s, At Database.step d₀ steps d s ∧ d.claims p s = true) ∧
    ∃ d s, At Database.step d₀ steps d s ∧ d.refunds p s = true)

section
variable {d₀ : Database} {p : AssetId} {P Q : Project} {steps before after : List Step}

/-- Projects of which no step ends the financing below the minimum are funded. -/
theorem Start.funded (h₀ : Start d₀) (hC : Along Database.step (fun d s => d.endsShort p s = false) d₀ steps)
    (hP : (d₀.run steps).project p = some P) (hpub : P.PublicOffering) : P.Funded := by
  refine run_project (C := fun d s => d.endsShort p s = false) (I := fun P => P.PublicOffering → P.Funded)
    (fun P h hpub => .of_initial h hpub) (fun d s P _ hP hC hen h hpub => ?_) h₀ hC hP hpub
  rw [Project.publicOffering_apply] at hpub
  exact (h hpub).apply hpub hen (endsFunded_event hP hen hC)

/-- Unless its financing ends below its minimum, a project pays its issuer only above it, and not if it refunds. -/
theorem paidOut_rightly (h₀ : Start d₀) (hC : Along Database.step (fun d s => d.endsShort p s = false) d₀ steps) :
    PaidOutRightly d₀ p steps where
  aboveMin := by
    rintro d s hat hclaims a ha
    obtain ⟨before, hbefore, rfl⟩ := hC.before hat
    obtain ⟨P, hP⟩ := project_of_claims hclaims
    obtain ⟨hen, -⟩ := project_step (h₀.wellFormed.run before) hP s
    rw [claims_eq] at hclaims
    cases he : (d₀.run before).event s p with
    | claim amount =>
      rw [he] at hen
      have hfunded := h₀.funded hbefore hP hen.1
      have hmin := hfunded.running hen.2.1 (hfunded.max_pos hen.2.2.2.1)
      rwa [project_of_asset ha hP] at hmin
    | _ => simp [he, Event.isClaim] at hclaims
  notBoth := by
    rintro ⟨⟨d₁, s₁, hat₁, hclaims⟩, d₂, s₂, hat₂, hrefunds⟩
    have hclaimed : 0 < d₀.claimCount p steps := by
      have hle := hat₁.le_tally (f := fun d s => (d.claims p s).toNat)
      simp only [hclaims, Bool.toNat_true] at hle
      exact hle
    have hrefunded : 0 < d₀.refundCount p steps := by
      have hle := hat₂.le_tally (f := fun d s => (d.refunds p s).toNat)
      simp only [hrefunds, Bool.toNat_true] at hle
      exact hle
    obtain ⟨P, hP⟩ := h₀.project_of_claimCount hclaimed
    have hfail := h₀.failed_of_refundCount hP hrefunded
    have hfunded := h₀.funded hC hP ((h₀.sound hP).offering hfail)
    have hmin := hfunded.claimed (h₀.claimCount_eq hP ▸ hclaimed)
    exact absurd hmin (not_le.mpr (hfunded.short hfail))

end

section
open Sample

/-- Ten of a minimum of 100 KHD are raised at the end block: the project is put in progress, and fails one block later
    with the first payment to its issuer made. -/
def shortRun : List Step := [create offering, maintain, invest 2 5, invest 3 5, maintain, maintain, issue]

/-- The project is filled in its first block, and pays its issuer in the next one. -/
def filledRun : List Step := [create offering, maintain, invest 2 200, issue, maintain]

theorem paidOut_wrongly : Start genesis ∧ ¬PaidOutRightly genesis 2 (shortRun ++ [claim, maintain, refund 2]) := by
  refine ⟨genesis_start, fun h => ?_⟩
  have hmin := h.aboveMin _ claim ⟨shortRun, [maintain, refund 2], rfl, rfl⟩ (by decide)
  exact absurd hmin (by decide)

theorem paidOut_rightly_filled :
    (genesis.run filledRun).claims 2 claim = true ∧ PaidOutRightly genesis 2 (filledRun ++ [claim]) :=
  ⟨by decide, paidOut_rightly genesis_start (by decide)⟩

end

/-! ### The order of the states -/

section
variable {d₀ : Database} {p : AssetId} {P : Project} {steps : List Step}

theorem Start.ordered (h₀ : Start d₀) (hC : Along Database.step (fun d s => d.startsWrongly p s = false) d₀ steps)
    (hP : (d₀.run steps).project p = some P) (hpub : P.PublicOffering) : P.Ordered := by
  refine run_project (C := fun d s => d.startsWrongly p s = false) (I := fun P => P.PublicOffering → P.Ordered)
    (fun P h hpub => .of_initial h hpub) (fun d s P _ hP hC hen h hpub => ?_) h₀ hC hP hpub
  rw [Project.publicOffering_apply] at hpub
  exact ((h hpub).apply hpub hen (startsRightly_event hP hen hC)).2

end

section
open Sample

end

end Khc.Chain
