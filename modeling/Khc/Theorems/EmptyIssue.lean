import Khc.Lib.Except
import Khc.Project.Run
import Khc.Project.Sound

/-! The issue of tokens to the investors where there are none: it would add what is left over to the last of no amounts. -/

namespace Khc.Chain

open Lib Database

/-! ### The evaluation -/

/-- The errors that stand for what the source does without a check: a division by zero, an index into an empty vector -/
def Unchecked (e : Error) : Prop := e = .divideByZero ∨ e = .undefinedBehavior

instance (e : Error) : Decidable (Unchecked e) := inferInstanceAs (Decidable (_ ∨ _))

section
variable {d : Database} {err : Error}

theorem never_of_error {α : Type} {x : Eval α} {e : Error} (herr : Unchecked err) (h : ∀ e', x = .error e' → e' = e)
    (he : ¬Unchecked e) : Never err x := by
  intro hx
  exact he (h err hx ▸ herr)

theorem never_fcAssert {c : Prop} [Decidable c] {e : Error} (herr : Unchecked err) (he : ¬Unchecked e) : Never err (fcAssert c e) :=
  never_of_error herr (fun _ h => (fcAssert_eq_error.mp h).2.symm) he

theorem never_safe {x : Int} (herr : Unchecked err) : Never err (safe x) :=
  never_of_error herr (fun _ h => safe_eq_error h) (by decide)

theorem never_getAsset {id : AssetId} (herr : Unchecked err) : Never err (d.getAsset id) :=
  never_of_error herr (fun _ h => getAsset_eq_error h) (by decide)

theorem never_getAccount {id : AccountId} (herr : Unchecked err) : Never err (d.getAccount id) := by
  refine never_of_error (e := .objectNotFound) herr (fun _ h => ?_) (by decide)
  unfold getAccount at h
  split at h
  · cases h
  · exact (Except.error.inj h).symm

theorem never_mul {a : Asset} {p : Price} (herr : Unchecked err) : Never err (a.mul p) := by
  unfold Asset.mul
  split
  · exact never_bind.mpr ⟨never_fcAssert herr (by decide), fun _ _ => never_bind.mpr ⟨never_fcAssert herr (by decide), fun _ _ => never_pure⟩⟩
  · split
    · exact never_bind.mpr ⟨never_fcAssert herr (by decide), fun _ _ => never_bind.mpr ⟨never_fcAssert herr (by decide), fun _ _ => never_pure⟩⟩
    · exact never_throw.mpr fun h => absurd (h ▸ herr) (by decide)

end

namespace IssueAssetToInvestors
variable {d : Database} {o : IssueAssetToInvestorsOperation} {err : Error} {objs : List Khc.Chain.AssetInvestment} {total raised : Int}
  {t t' : Totals}

theorem never_addShare {obj : Khc.Chain.AssetInvestment} (herr : Unchecked err) (hraised : raised ≠ 0) :
    Never err (addShare d total raised t obj) := by
  have hshare : Never err (uint128MulDiv total obj.investmentKhdAmount.amount raised) := by
    refine never_of_error (e := .to_uint64) herr (fun e he => ?_) (by decide)
    refine (uint128MulDiv_eq_error he).resolve_left fun hzero => ?_
    rw [hzero, uint128MulDiv, if_neg hraised] at he
    simp only at he
    split at he
    · cases he
    · exact pure_eq_error.mp he
  unfold addShare
  refine never_bind.mpr ⟨never_getAccount herr, fun _ _ => never_bind.mpr ⟨never_getAsset herr, fun _ _ =>
    never_bind.mpr ⟨never_fcAssert herr (by decide), fun _ _ => never_bind.mpr ⟨never_safe herr, fun _ _ =>
    never_bind.mpr ⟨hshare, fun _ _ => never_bind.mpr ⟨never_safe herr, fun _ _ => never_pure⟩⟩⟩⟩⟩⟩

/-- The loop notes an amount for each investment. -/
theorem length_issueAmounts (h : objs.foldlM (addShare d total raised) t = .ok t') :
    t'.issueAmounts.length = t.issueAmounts.length + objs.length := by
  induction objs generalizing t with
  | nil =>
    obtain rfl := Except.ok.inj h
    rfl
  | cons obj objs ih =>
    rw [List.foldlM_cons, bind_eq_ok] at h
    obtain ⟨t₁, h₁, h⟩ := h
    simp only [addShare, bind_eq_ok, pure_eq_ok] at h₁
    obtain ⟨_, _, _, _, _, _, _, _, amount, _, _, _, rfl⟩ := h₁
    rw [ih h, List.length_append, List.length_singleton, List.length_cons]
    omega

theorem never_addToLast {amounts : List Int} {rest : Int} (herr : Unchecked err) (hne : amounts ≠ []) :
    Never err (addToLast amounts rest) := by
  rw [addToLast, List.getLast?_eq_some_getLast hne]
  exact never_bind.mpr ⟨never_safe herr, fun _ _ => never_pure⟩

/-- Nothing is left unchecked where a project that has ended its financing has an investment and a raised amount. -/
theorem never_doEvaluate (herr : Unchecked err) (h : ∀ a, d.assets[o.investmentAssetId]? = some a → a.isProjectAsset = true →
      a.projOptions.financingType = khcPublicOffering → (a.dynamicData.state = .projectInProgress ∨ a.dynamicData.state = .projectEnd) →
      d.investmentsByAsset o.investmentAssetId ≠ [] ∧ a.dynamicData.financingConfidentialSupply ≠ 0) :
    Never err (doEvaluate d o) := by
  have hcheck : ∀ {c : Prop} [Decidable c] {e : Error} {β : Type} {f : Unit → Eval β}, ¬Unchecked e → (c → Never err (f ())) →
      Never err (fcAssert c e >>= f) := fun he hf =>
    never_bind.mpr ⟨never_fcAssert herr he, fun _ hc => hf (fcAssert_eq_ok.mp hc)⟩
  unfold doEvaluate
  refine hcheck (by decide) fun _ => never_bind.mpr ⟨never_getAsset herr, fun a ha => ?_⟩
  refine never_bind.mpr ⟨never_of_error herr (fun _ => isPublicOffering_eq_error) (by decide), fun publicOffering hpub => ?_⟩
  refine hcheck (by decide) fun hpub' => hcheck (by decide) fun _ => never_bind.mpr ⟨?_, fun financingEnd hend => ?_⟩
  · exact never_bind.mpr ⟨never_fcAssert herr (by decide), fun _ _ => never_pure⟩
  refine hcheck (by decide) fun hend' => never_bind.mpr ⟨never_of_error herr (fun _ => getAssetId_eq_error) (by decide), fun khd _ => ?_⟩
  refine hcheck (by decide) fun _ => hcheck (by decide) fun _ => never_bind.mpr ⟨never_mul herr, fun core _ => ?_⟩
  refine never_bind.mpr ⟨never_mul herr, fun tokens _ => ?_⟩
  obtain ⟨hproj, htype⟩ := isPublicOffering_eq_ok.mp (hpub' ▸ hpub)
  obtain ⟨-, hstate⟩ := isFinancingEnd_eq_ok.mp (hend' ▸ hend)
  obtain ⟨hinvested, hraised⟩ := h a (getAsset_eq_ok.mp ha) hproj htype hstate
  refine never_bind.mpr ⟨never_foldlM fun _ _ => never_addShare herr hraised, fun totals htotals => ?_⟩
  refine hcheck (by decide) fun _ => never_bind.mpr ⟨never_safe herr, fun rest _ => never_bind.mpr ⟨?_, fun amounts _ => ?_⟩⟩
  · refine never_addToLast herr fun hnil => hinvested ?_
    have hlength := length_issueAmounts htotals
    rw [hnil] at hlength
    exact List.length_eq_zero_iff.mp (by simpa using hlength.symm)
  · exact hcheck (by decide) fun _ => never_bind.mpr ⟨never_safe herr, fun _ _ => hcheck (by decide) fun _ => never_pure⟩

end IssueAssetToInvestors

/-! ### Projects that are financed -/

namespace Project
variable {P : Project} {e : Event}

/-- A maintenance at the head would begin or end the project although nothing has been raised. -/
structure BeginsEmpty (P : Project) : Prop where
  publicOffering : P.PublicOffering
  raised : P.raised = 0
  notFailed : P.state ≠ .financingFailue
  started : P.options.startFinancingBlockNum ≤ P.head
  reached : (P.head < P.options.endFinancingBlockNum ∧ P.options.maxFinancingAmount = 0) ∨ P.head = P.options.endFinancingBlockNum ∨
    (P.options.endFinancingBlockNum < P.head ∧ P.options.minFinancingAmount ≤ 0)

instance (P : Project) : Decidable P.BeginsEmpty :=
  decidable_of_iff (P.options.financingType = khcPublicOffering ∧ P.raised = 0 ∧ P.state ≠ .financingFailue ∧
      P.options.startFinancingBlockNum ≤ P.head ∧
      ((P.head < P.options.endFinancingBlockNum ∧ P.options.maxFinancingAmount = 0) ∨ P.head = P.options.endFinancingBlockNum ∨
        (P.options.endFinancingBlockNum < P.head ∧ P.options.minFinancingAmount ≤ 0)))
    ⟨fun ⟨h₁, h₂, h₃, h₄, h₅⟩ => ⟨h₁, h₂, h₃, h₄, h₅⟩, fun ⟨h₁, h₂, h₃, h₄, h₅⟩ => ⟨h₁, h₂, h₃, h₄, h₅⟩⟩

/-- What a project that has left its financing has -/
structure Financed (P : Project) : Prop extends P.Sound where
  financed : P.PublicOffering → P.Running → 0 < P.raised

theorem Financed.of_initial (h : P.Initial) : P.Financed where
  toSound := Sound.of_initial h
  financed hpub hrun := by
    rw [Running, (h.offering hpub).1] at hrun
    rcases hrun with hrun | hrun <;> cases hrun

theorem Financed.nextState (h : P.Financed) (hbegins : ¬P.BeginsEmpty) (hpub : P.PublicOffering)
    (hrun : P.nextState = .projectInProgress ∨ P.nextState = .projectEnd) : 0 < P.raised := by
  have hnonneg : 0 ≤ P.raised := h.nonneg.trans h.le
  refine lt_of_le_of_ne hnonneg fun hzero => ?_
  have hfail : P.state ≠ .financingFailue := by
    intro hstate
    rw [Project.nextState, if_pos (.inr hstate), hstate] at hrun
    rcases hrun with hrun | hrun <;> cases hrun
  have hmaint := nextState_maintained hpub
  generalize P.nextState = σ at hmaint hrun
  cases hmaint with
  | past hover => exact absurd (h.financed hpub (hover.elim .inr fun hstate => absurd hstate hfail)) (hzero ▸ lt_irrefl _)
  | full hstart hend hraised => exact hbegins ⟨hpub, hzero.symm, hfail, hstart, .inl ⟨hend, by omega⟩⟩
  | begun hstart hend hraised => exact hbegins ⟨hpub, hzero.symm, hfail, hstart, by omega⟩
  | ended hstart hend hraised => exact hbegins ⟨hpub, hzero.symm, hfail, hstart, by omega⟩
  | notStarted => rcases hrun with hrun | hrun <;> cases hrun
  | unfilled => rcases hrun with hrun | hrun <;> cases hrun
  | failed => rcases hrun with hrun | hrun <;> cases hrun

theorem Financed.apply (h : P.Financed) (he : P.Enabled e) (hbegins : e = .block true → ¬P.advance.BeginsEmpty) : (P.apply e).Financed where
  toSound := h.toSound.apply he
  financed := by
    cases e with
    | invest r asked now =>
      intro _ _
      obtain ⟨hoffer, hasked, hamount, -⟩ := he
      have hpos := hoffer.accepted_pos hasked
      have hnonneg := h.nonneg.trans h.le
      have hraised : (P.apply (.invest r asked now)).raised = P.raised + r.investmentKhdAmount.amount := rfl
      omega
    | block maintained =>
      cases maintained with
      | false => exact h.financed
      | true =>
        have hadvance : P.advance.Financed := ⟨h.toSound.block false, h.financed⟩
        exact fun hpub hrun => hadvance.nextState (hbegins rfl) hpub hrun
    | _ => exact h.financed

end Project

/-! ### Runs -/

/-- No maintenance begins or ends a project for which nothing has been raised. -/
def Database.KeepsUnfunded (d : Database) : Step → Prop
  | .endBlock _ (some _) => ∀ p P, d.project p = some P → ¬P.advance.BeginsEmpty
  | _ => True

/-- Only the registered assets are projects. -/
theorem keepsUnfunded_endBlock {d : Database} {t : Nat} {ps : ChainParameters} : d.KeepsUnfunded (.endBlock t (some ps)) ↔
    ∀ p ∈ List.range d.assets.length, ∀ P ∈ d.project p, ¬P.advance.BeginsEmpty := by
  refine ⟨fun h p _ P hP => h p P hP, fun h p P hP => h p ?_ P hP⟩
  obtain ⟨a, ha, -⟩ := project_eq_some.mp hP
  exact List.mem_range.mpr (lt_of_getElem? ha)

instance (d : Database) : (s : Step) → Decidable (d.KeepsUnfunded s)
  | .endBlock _ (some _) => decidable_of_iff _ keepsUnfunded_endBlock.symm
  | .endBlock _ none => .isTrue trivial
  | .operation _ _ => .isTrue trivial

section
variable {d₀ : Database} {p : AssetId} {P : Project} {steps : List Step}

theorem Start.financed (h₀ : Start d₀) (hC : Along Database.step KeepsUnfunded d₀ steps) (hP : (d₀.run steps).project p = some P) : P.Financed := by
  refine run_project (fun _ => Project.Financed.of_initial) (fun d s P _ hd hCs he h => h.apply he fun hblock => ?_) h₀ hC hP
  obtain ⟨t, ps, rfl⟩ := event_maintenance hblock
  exact hCs p P hd

/-- In every run in which no maintenance begins or ends a project for which nothing has been raised, an issue to the investors neither
    divides by zero nor reads the last of no amounts. -/
theorem issue_checked (h₀ : Start d₀) (hC : Along Database.step KeepsUnfunded d₀ steps) (o : IssueAssetToInvestorsOperation) :
    IssueAssetToInvestors.doEvaluate (d₀.run steps) o ≠ .error .divideByZero ∧
    IssueAssetToInvestors.doEvaluate (d₀.run steps) o ≠ .error .undefinedBehavior := by
  have hnever : ∀ err, Unchecked err → Never err (IssueAssetToInvestors.doEvaluate (d₀.run steps) o) := by
    intro err herr
    refine IssueAssetToInvestors.never_doEvaluate herr fun a ha hproj htype hstate => ?_
    have hP := project_eq_some.mpr ⟨a, ha, hproj, rfl⟩
    have hfinanced := h₀.financed hC hP
    have hraised : 0 < a.dynamicData.financingConfidentialSupply := hfinanced.financed htype hstate
    refine ⟨fun hnil => ?_, hraised.ne'⟩
    have hsum : a.dynamicData.financingConfidentialSupply =
        (((d₀.run steps).investmentsByAsset o.investmentAssetId).map (·.investmentKhdAmount.amount)).sum := hfinanced.raised
    rw [hnil] at hsum
    exact absurd hsum hraised.ne'
  exact ⟨hnever _ (.inl rfl), hnever _ (.inr rfl)⟩

open Sample

/-- An offering that may end with nothing raised -/
def Sample.anyAmount : ProjectAssetOptions := { offering with minFinancingAmount := 0 }

/-- Without an investment, the project begins after the end of the financing where the least amount is zero, and in the end block of the
    financing whatever the least amount is. -/
theorem issue_unchecked : Start genesis ∧
    IssueAssetToInvestors.doEvaluate (genesis.run [create anyAmount, maintain, maintain, maintain, maintain]) ⟨noFee, 1, 2⟩ =
      .error .undefinedBehavior ∧
    IssueAssetToInvestors.doEvaluate (genesis.run [create offering, maintain, maintain, maintain]) ⟨noFee, 1, 2⟩ =
      .error .undefinedBehavior := by
  refine ⟨genesis_start, map_eq_error.mp (?_ : (fun _ => ()) <$> _ = _), map_eq_error.mp (?_ : (fun _ => ()) <$> _ = _)⟩
  · decide +kernel
  · decide +kernel

/-- The offering is filled, and its tokens may be issued. -/
theorem issue_checked_filled :
    IssueAssetToInvestors.doEvaluate (genesis.run [create offering, maintain, invest 2 200, maintain]) ⟨noFee, 1, 2⟩ ≠
      .error .undefinedBehavior :=
  (issue_checked genesis_start (by decide +kernel) ⟨noFee, 1, 2⟩).2

end

end Khc.Chain
