import Khc.Project.Events

/-! What holds of every project whatever happens to it: its counters against its records, its state against its
    blocks, and what the maintenance makes of it. -/

namespace Khc.Chain

open Lib

namespace Project
variable {P : Project} {e : Event} {x : AccountId} {asked : Int} {now : Nat} {r : AssetInvestment}

/-! ### Amounts -/

theorem OnOffer.accepted_pos (h : P.OnOffer) (hpos : 0 < asked) : 0 < P.accepted asked := by
  have hmax := h.belowMax
  unfold accepted
  split <;> omega

theorem accepted_le : P.accepted asked ≤ asked := by
  unfold accepted
  split
  · rename_i hfills
    rw [Fills] at hfills
    omega
  · exact le_refl _

theorem invested_invest : (P.apply (.invest r asked now)).invested = P.invested + r.investmentKhdAmount.amount := by
  simp [apply, invested]

theorem invested_issue {total : Int} {amounts : List Int} (hlen : amounts.length = P.records.length) :
    (P.apply (.issue total amounts)).invested = P.invested := by
  simp only [apply, invested]
  rw [map_zipWith_left (g := AssetInvestment.give) (fun _ _ => rfl) hlen]

theorem invested_refund : (P.apply (.refund x)).invested = P.invested := by
  simp only [apply, invested]
  rw [map_mark (p := fun r : AssetInvestment => r.investmentAccountId = x) (f := AssetInvestment.markRefunded)
    (fun _ => rfl)]

theorem invested_receive : (P.apply (.receive x)).invested = P.invested := by
  simp only [apply, invested]
  rw [map_mark (p := fun r : AssetInvestment => r.investmentAccountId = x) (f := AssetInvestment.markReceived)
    (fun _ => rfl)]

theorem unrefunded_issue {total : Int} {amounts : List Int} (hlen : amounts.length = P.records.length) :
    (P.apply (.issue total amounts)).unrefunded = P.unrefunded := by
  simp only [apply, unrefunded]
  rw [map_zipWith_left (g := AssetInvestment.give) (fun _ _ => rfl) hlen]

theorem unrefunded_receive : (P.apply (.receive x)).unrefunded = P.unrefunded := by
  simp only [apply, unrefunded]
  rw [map_mark (p := fun r : AssetInvestment => r.investmentAccountId = x) (f := AssetInvestment.markReceived)
    (fun _ => rfl)]

/-- What is owed to an account is what its records count for in the sum of all. -/
theorem owedTo_eq (x : AccountId) :
    P.owedTo x = (P.records.map fun r => if r.investmentAccountId = x then r.unrefundedAmount else 0).sum := by
  rw [owedTo, sum_map_filter]
  congr 1
  refine List.map_congr_left fun r _ => ?_
  by_cases hx : r.investmentAccountId = x <;> cases hr : r.returnFinancingFlag <;>
    simp [AssetInvestment.owed, AssetInvestment.unrefundedAmount, hx, hr]

theorem unrefunded_refund : (P.apply (.refund x)).unrefunded = P.unrefunded - P.owedTo x := by
  have hmark := sum_map_mark AssetInvestment.unrefundedAmount AssetInvestment.unrefundedAmount
    (fun r => decide (r.investmentAccountId = x)) AssetInvestment.markRefunded
    (fun r _ => by simp [AssetInvestment.unrefundedAmount, AssetInvestment.markRefunded]) P.records
  simp only [decide_eq_true_eq] at hmark
  rw [owedTo_eq]
  exact hmark

/-- The escrow takes what is invested and gives what is paid out. -/
theorem current_apply (he : P.Enabled e) :
    (P.apply e).current = P.current + ((P.apply e).invested - P.invested) - (P.refunded e + e.claimed) := by
  cases e with
  | invest r asked now =>
    rw [invested_invest]
    show P.current + r.investmentKhdAmount.amount = _ - (0 + 0)
    ring
  | issue total amounts =>
    rw [invested_issue he.2.2.2.2.1]
    show P.current = _ - (0 + 0)
    ring
  | refund x =>
    rw [invested_refund]
    show P.current - P.owedTo x = _ - (P.owedTo x + 0)
    ring
  | claim amount =>
    show P.current - amount = P.current + (P.invested - P.invested) - (0 + amount)
    ring
  | receive x =>
    rw [invested_receive]
    show P.current = _ - (0 + 0)
    ring
  | block maintained =>
    cases maintained <;>
      · show P.current = P.current + (P.invested - P.invested) - (0 + 0)
        ring
  | _ =>
    show P.current = P.current + (P.invested - P.invested) - (0 + 0)
    ring

/-! ### Options -/

@[simp] theorem invest_min : (P.apply (.invest r asked now)).options.minFinancingAmount =
    P.options.minFinancingAmount := by
  simp only [apply]
  split <;> rfl

@[simp] theorem invest_max : (P.apply (.invest r asked now)).options.maxFinancingAmount =
    P.options.maxFinancingAmount := by
  simp only [apply]
  split <;> rfl

@[simp] theorem publicOffering_apply : (P.apply e).PublicOffering ↔ P.PublicOffering := by
  cases e with
  | invest r asked now =>
    simp only [apply, PublicOffering]
    split <;> rfl
  | block maintained => cases maintained <;> rfl
  | _ => rfl

/-! ### The maintenance -/

/-- What the maintenance makes of a project. -/
inductive Maintained (P : Project) : ProjectState → Prop
  | past (h : P.state = .projectEnd ∨ P.state = .financingFailue) : Maintained P P.state
  | notStarted (h : P.head < P.options.startFinancingBlockNum) : Maintained P .aboutToStart
  | full (hstart : P.options.startFinancingBlockNum ≤ P.head) (hend : P.head < P.options.endFinancingBlockNum)
      (hraised : P.raised = P.options.maxFinancingAmount) : Maintained P .projectInProgress
  | unfilled (hstart : P.options.startFinancingBlockNum ≤ P.head) (hend : P.head < P.options.endFinancingBlockNum)
      (hraised : P.raised ≠ P.options.maxFinancingAmount) : Maintained P .financing
  | failed (hend : P.options.endFinancingBlockNum < P.head) (hraised : P.raised < P.options.minFinancingAmount) :
      Maintained P .financingFailue
  | begun (hstart : P.options.startFinancingBlockNum ≤ P.head) (hend : P.options.endFinancingBlockNum ≤ P.head)
      (hraised : P.options.minFinancingAmount ≤ P.raised ∨ P.head = P.options.endFinancingBlockNum)
      (hproj : P.head ≤ P.options.endProjectBlockNum) : Maintained P .projectInProgress
  | ended (hstart : P.options.startFinancingBlockNum ≤ P.head) (hend : P.options.endFinancingBlockNum ≤ P.head)
      (hraised : P.options.minFinancingAmount ≤ P.raised ∨ P.head = P.options.endFinancingBlockNum)
      (hproj : P.options.endProjectBlockNum < P.head) : Maintained P .projectEnd

/-- The cascade of `update_asset_project_states`, for a public offering. -/
theorem nextState_maintained (hpub : P.PublicOffering) : P.Maintained P.nextState := by
  have hpub' : P.options.financingType = khcPublicOffering := hpub
  unfold nextState
  split_ifs with hover hstart hend hraised hfail hproj
  · exact .past hover
  · exact .notStarted hstart
  · exact .full (not_lt.mp hstart) hend hraised
  · exact .unfilled (not_lt.mp hstart) hend hraised
  · exact .failed hfail.1 hfail.2
  · exact .begun (not_lt.mp hstart) (not_lt.mp hend) (by omega) hproj
  · exact .ended (not_lt.mp hstart) (not_lt.mp hend) (by omega) (not_le.mp hproj)

/-- Only a public offering fails. -/
theorem nextState_other (hpub : ¬P.PublicOffering) (h : P.nextState = .financingFailue) :
    P.state = .financingFailue := by
  have hpub' : ¬P.options.financingType = khcPublicOffering := hpub
  unfold nextState at h
  rw [if_neg hpub'] at h
  split_ifs at h
  · exact h
  · exact h

/-! ### Soundness -/

/-- What holds of a project from its registration on. -/
structure Sound (P : Project) : Prop where
  positive : ∀ r ∈ P.records, 0 < r.investmentKhdAmount.amount
  range : InInt64 P.raised
  raised : P.raised = P.invested
  nonneg : 0 ≤ P.current
  le : P.current ≤ P.raised
  noOffer : P.options.maxFinancingAmount ≤ 0 → P.raised = 0
  times : P.claimTimes ≤ 3
  intact : P.claimTimes = 0 → P.current = P.unrefunded
  untouched : P.claimTimes = 0 → P.state ≠ .financingFailue → P.current = P.raised
  late : 0 < P.claimTimes → P.options.endFinancingBlockNum ≤ P.head
  drawn : 0 < P.claimTimes → 0 < P.raised
  failed : P.state = .financingFailue → P.options.endFinancingBlockNum < P.head
  offering : P.state = .financingFailue → P.PublicOffering

/-- Before the end block of the financing nothing has left the escrow. -/
theorem Sound.early (h : P.Sound) (hend : P.head < P.options.endFinancingBlockNum) : P.current = P.raised := by
  refine h.untouched (Nat.eq_zero_of_not_pos fun hpos => ?_) fun hfail => ?_
  · exact absurd hend (not_lt.mpr (h.late hpos))
  · exact absurd hend (not_lt.mpr (h.failed hfail).le)

theorem Sound.not_failed (h : P.Sound) (hoffer : P.OnOffer) : P.state ≠ .financingFailue :=
  fun hfail => absurd hoffer.notEnded (not_le.mpr (h.failed hfail))

theorem Sound.owedTo_pos (h : P.Sound) (hany : P.records.filter (·.owed x) ≠ []) : 0 < P.owedTo x := by
  rw [owedTo]
  refine List.sum_pos _ (fun n hn => ?_) (by simpa using hany)
  obtain ⟨r, hr, rfl⟩ := List.mem_map.mp hn
  exact h.positive r (List.mem_filter.mp hr).1

theorem Sound.of_initial (h : P.Initial) : P.Sound where
  positive := by simp [h.records]
  range := by rw [h.raised]; decide
  raised := by rw [h.raised, invested, h.records]; rfl
  nonneg := h.current.ge
  le := by rw [h.current, h.raised]
  noOffer _ := h.raised
  times := by rw [h.claimTimes]; decide
  intact _ := by rw [h.current, unrefunded, h.records]; rfl
  untouched _ _ := by rw [h.current, h.raised]
  late hpos := by rw [h.claimTimes] at hpos; omega
  drawn hpos := by rw [h.claimTimes] at hpos; omega
  failed hfail := by
    by_cases hpub : P.PublicOffering
    · rw [(h.offering hpub).1] at hfail; cases hfail
    · rw [h.other hpub] at hfail; cases hfail
  offering hfail := by
    by_contra hpub
    rw [h.other hpub] at hfail
    cases hfail

/-- What an issuer can claim is no less than nothing. -/
theorem Sound.claim_nonneg (h : P.Sound) {amount : Int} (he : P.Enabled (.claim amount)) : 0 ≤ amount := by
  obtain ⟨-, -, -, -, -, -, -, -, share, hshare, rfl⟩ := he
  rw [ClaimBitassetInvestment.share_eq (h.nonneg.trans h.le) h.range hshare, ClaimBitassetInvestment.amountAt]
  have := h.nonneg.trans h.le
  split <;> omega

/-- An investment does not fail a project. -/
theorem investedState_failue {advanceEnd : Bool} {σ : ProjectState}
    (h : AssetInvestment.investedState advanceEnd σ = .financingFailue) : σ = .financingFailue := by
  unfold AssetInvestment.investedState at h
  split at h
  · cases h
  · split at h
    · cases h
    · exact h

theorem Sound.invest (h : P.Sound) (he : P.Enabled (.invest r asked now)) : (P.apply (.invest r asked now)).Sound := by
  obtain ⟨hoffer, hpos, hamount, hret, -, -, hrange⟩ := he
  have hacc := hoffer.accepted_pos hpos
  have hfail := h.not_failed hoffer
  have hnn := h.nonneg
  have hle := h.le
  constructor
  case positive =>
    intro r' hr'
    rcases List.mem_append.mp hr' with hr' | hr'
    · exact h.positive r' hr'
    · rw [List.mem_singleton.mp hr', hamount]
      exact hacc
  case range => simpa only [apply, hamount] using hrange
  case raised =>
    rw [invested_invest, ← h.raised]
    rfl
  case nonneg =>
    simp only [apply, hamount]
    omega
  case le =>
    simp only [apply]
    omega
  case noOffer =>
    -- an offer has room, so its maximum is positive
    have hroom := hoffer.belowMax
    intro hmax
    have hmax' : P.options.maxFinancingAmount ≤ 0 := by
      simp only [apply] at hmax
      split at hmax <;> exact hmax
    omega
  case times => exact h.times
  case intact =>
    intro htimes
    have hrecord : r.unrefundedAmount = r.investmentKhdAmount.amount := by simp [AssetInvestment.unrefundedAmount, hret]
    simp only [apply, unrefunded, List.map_append, List.sum_append, List.map_cons, List.map_nil, List.sum_cons,
      List.sum_nil, hrecord, add_zero]
    rw [h.intact htimes, unrefunded]
  case untouched =>
    intro htimes _
    simp only [apply]
    rw [h.untouched htimes hfail]
  case late =>
    intro hclaimed
    have hended := h.late hclaimed
    simp only [apply]
    split
    · exact le_refl _
    · exact hended
  case drawn =>
    intro hclaimed
    have hraised := h.drawn hclaimed
    simp only [apply]
    omega
  case failed => exact fun hstate => absurd hstate (hfail ∘ investedState_failue)
  case offering => exact fun hstate => absurd hstate (hfail ∘ investedState_failue)

theorem Sound.refund (h : P.Sound) (he : P.Enabled (.refund x)) : (P.apply (.refund x)).Sound := by
  obtain ⟨-, hfail, hcov, hany⟩ := he
  have howed := h.owedTo_pos hany
  have hnn := h.nonneg
  have hle := h.le
  constructor
  case positive =>
    intro r hr
    obtain ⟨r', hr', rfl⟩ := List.mem_map.mp hr
    split
    · exact h.positive r' hr'
    · exact h.positive r' hr'
  case range => exact h.range
  case raised =>
    rw [invested_refund]
    exact h.raised
  case nonneg =>
    simp only [apply]
    omega
  case le =>
    simp only [apply]
    omega
  case noOffer => exact h.noOffer
  case times => exact h.times
  case intact =>
    intro htimes
    rw [unrefunded_refund, ← h.intact htimes]
    rfl
  case untouched => exact fun _ hnot => absurd hfail hnot
  case late => exact h.late
  case drawn => exact h.drawn
  case failed => exact h.failed
  case offering => exact h.offering

theorem Sound.claim (h : P.Sound) {amount : Int} (he : P.Enabled (.claim amount)) :
    (P.apply (.claim amount)).Sound := by
  have hamount := h.claim_nonneg he
  obtain ⟨-, hrun, htimes, hleft, -, hend, -, hcov, -⟩ := he
  have hnn := h.nonneg
  have hle := h.le
  constructor
  case positive => exact h.positive
  case range => exact h.range
  case raised => exact h.raised
  case nonneg =>
    simp only [apply]
    omega
  case le =>
    simp only [apply]
    omega
  case noOffer => exact h.noOffer
  case times =>
    simp only [apply]
    omega
  case intact => exact fun hzero => absurd hzero (Nat.succ_ne_zero _)
  case untouched => exact fun hzero => absurd hzero (Nat.succ_ne_zero _)
  case late => exact fun _ => hend
  case drawn => exact fun _ => hleft.trans_le hle
  case failed => exact h.failed
  case offering => exact h.offering

theorem Sound.block (h : P.Sound) (maintained : Bool) : (P.apply (.block maintained)).Sound := by
  have hadvance : P.advance.Sound :=
    { h with
      late := fun hpos => (h.late hpos).trans (Nat.le_succ _)
      failed := fun hfail => (h.failed hfail).trans (Nat.lt_succ_self _) }
  cases maintained with
  | false => exact hadvance
  | true =>
    have hfail : P.advance.nextState = .financingFailue →
        P.advance.options.endFinancingBlockNum < P.advance.head := by
      intro hnext
      by_cases hpub : P.advance.PublicOffering
      · have hmaint := nextState_maintained hpub
        rw [hnext] at hmaint
        generalize hσ : ProjectState.financingFailue = σ at hmaint
        cases hmaint with
        | past _ => exact hadvance.failed hσ.symm
        | failed hend _ => exact hend
        | _ => cases hσ
      · exact hadvance.failed (nextState_other hpub hnext)
    have hoffering : P.advance.nextState = .financingFailue → P.advance.PublicOffering := fun hnext => by
      by_contra hpub
      exact hpub (hadvance.offering (nextState_other hpub hnext))
    refine { hadvance with untouched := fun htimes hnext => ?_, failed := hfail, offering := hoffering }
    refine hadvance.untouched htimes fun hstate => hnext ?_
    simp only [apply, if_true]
    rw [nextState, if_pos (.inr hstate), hstate]

/-- Every event keeps a project sound. -/
theorem Sound.apply (h : P.Sound) (he : P.Enabled e) : (P.apply e).Sound := by
  cases e with
  | invest r asked now => exact h.invest he
  | issue total amounts =>
    obtain ⟨-, -, -, -, hlen, -⟩ := he
    refine { h with positive := fun r hr => ?_, raised := ?_, intact := fun htimes => ?_ }
    · have hmem : r.investmentKhdAmount.amount ∈ P.records.map (·.investmentKhdAmount.amount) := by
        rw [← map_zipWith_left (g := AssetInvestment.give) (w := (·.investmentKhdAmount.amount)) (fun _ _ => rfl) hlen]
        exact List.mem_map_of_mem hr
      obtain ⟨r', hr', hsame⟩ := List.mem_map.mp hmem
      exact hsame ▸ h.positive r' hr'
    · rw [invested_issue hlen]
      exact h.raised
    · rw [unrefunded_issue hlen]
      exact h.intact htimes
  | refund x => exact h.refund he
  | claim amount => exact h.claim he
  | receive x =>
    refine { h with positive := fun r hr => ?_, raised := ?_, intact := fun htimes => ?_ }
    · obtain ⟨r', hr', rfl⟩ := List.mem_map.mp hr
      split
      · exact h.positive r' hr'
      · exact h.positive r' hr'
    · rw [invested_receive]
      exact h.raised
    · rw [unrefunded_receive]
      exact h.intact htimes
  | mint amount => exact { h with }
  | burn amount => exact { h with }
  | update maxSupply => exact { h with }
  | block maintained => exact h.block maintained
  | idle => exact h

/-- A project that has failed stays failed. -/
theorem Sound.stays_failed (h : P.Sound) (he : P.Enabled e) (hfail : P.state = .financingFailue) :
    (P.apply e).state = .financingFailue := by
  cases e with
  | invest r asked now => exact absurd hfail (h.not_failed he.1)
  | block maintained =>
    cases maintained with
    | false => exact hfail
    | true =>
      have hfail' : P.advance.state = .financingFailue := hfail
      simp only [Project.apply, if_true]
      rw [nextState, if_pos (.inr hfail'), hfail']
  | _ => exact hfail

end Project

section
variable {d₀ : Database} {p : AssetId} {P : Project} {steps : List Step}

/-- Every project of a reachable state is sound. -/
theorem Start.sound (h₀ : Start d₀) (hP : (d₀.run steps).project p = some P) : P.Sound :=
  run_project (C := fun _ _ => True) (fun _ => Project.Sound.of_initial)
    (fun _ _ _ _ _ _ he h => h.apply he) h₀ (along_iff_at.mpr fun _ _ _ => trivial) hP

end

end Khc.Chain
