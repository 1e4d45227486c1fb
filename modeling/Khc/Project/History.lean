import Khc.Project.Sound

/-! What a run has paid out of the escrow of a project: how often, and how much. -/

namespace Khc.Chain

open Lib Database

namespace Database
variable (d₀ : Database) (p : AssetId) (steps : List Step)

/-- The number of claims of the issuer in a run. -/
def claimCount : Nat := tally step (fun d s => (d.claims p s).toNat) d₀ steps

/-- The number of refunds in a run. -/
def refundCount : Nat := tally step (fun d s => (d.refunds p s).toNat) d₀ steps

/-- The KHD that a run has paid to the issuer. -/
def claimedTotal : Int := tally step (fun d s => d.claimed p s) d₀ steps

/-- The KHD that a run has paid back. -/
def refundedTotal : Int := tally step (fun d s => d.refunded p s) d₀ steps

end Database

section
variable {d d₀ : Database} {p : AssetId} {P : Project} {s : Step} {steps : List Step}

theorem claims_of_none (hnone : d.project p = none) : d.claims p s = false := by
  by_contra hclaims
  obtain ⟨P, hP⟩ := project_of_claims (Bool.not_eq_false _ ▸ hclaims)
  rw [hnone] at hP
  cases hP

theorem refunds_of_none (hnone : d.project p = none) : d.refunds p s = false := by
  by_contra hrefunds
  obtain ⟨P, hP⟩ := project_of_refunds (Bool.not_eq_false _ ▸ hrefunds)
  rw [hnone] at hP
  cases hP

/-- The counter of the project counts the claims. -/
theorem Start.claimCount_eq (h₀ : Start d₀) (hP : (d₀.run steps).project p = some P) :
    d₀.claimCount p steps = P.claimTimes := by
  refine run_history (C := fun _ _ => True) (f := fun d s => (d.claims p s).toNat)
    (I := fun P n => n = P.claimTimes) (fun d s hnone => ?_) (fun P h => ?_) (fun d s P n _ hP _ hen hn => ?_) h₀
    (along_iff_at.mpr fun _ _ _ => trivial) hP
  · rw [claims_of_none hnone]
    rfl
  · rw [h.claimTimes]
  · rw [claims_eq, hn]
    cases he : d.event s p with
    | block maintained => cases maintained <;> rfl
    | _ => rfl

/-- Whose issuer has claimed is a project. -/
theorem Start.project_of_claimCount (h₀ : Start d₀) (hclaimed : 0 < d₀.claimCount p steps) :
    ∃ P, (d₀.run steps).project p = some P := by
  cases hP : (d₀.run steps).project p with
  | some P => exact ⟨P, rfl⟩
  | none =>
    have hzero : d₀.claimCount p steps = 0 := by
      refine tally_of_none (fun d s hnone => ?_) h₀.wellFormed hP
      rw [claims_of_none hnone]
      rfl
    omega

/-- A project that has refunded has failed. -/
theorem Start.failed_of_refundCount (h₀ : Start d₀) (hP : (d₀.run steps).project p = some P)
    (hrefund : 0 < d₀.refundCount p steps) : P.state = .financingFailue := by
  have hinv := run_history (C := fun _ _ => True) (f := fun d s => (d.refunds p s).toNat)
    (I := fun P n => P.Sound ∧ (0 < n → P.state = .financingFailue)) (fun d s hnone => ?_)
    (fun P h => ⟨.of_initial h, fun hpos => absurd hpos (lt_irrefl _)⟩) (fun d s P n _ hP _ hen h => ?_) h₀
    (along_iff_at.mpr fun _ _ _ => trivial) hP
  · exact hinv.2 hrefund
  · rw [refunds_of_none hnone]
    rfl
  · refine ⟨h.1.apply hen, fun hpos => ?_⟩
    rcases Nat.eq_zero_or_pos n with rfl | hn
    · cases hr : d.refunds p s with
      | false => simp [hr] at hpos
      | true =>
        obtain ⟨x, hx⟩ := refunds_iff.mp hr
        rw [hx] at hen ⊢
        exact hen.2.1
    · exact h.1.stays_failed hen (h.2 hn)

/-- What is in escrow is what was invested, without what was paid out. -/
theorem Start.current_eq (h₀ : Start d₀) (hP : (d₀.run steps).project p = some P) :
    P.current = P.invested - d₀.refundedTotal p steps - d₀.claimedTotal p steps := by
  have hinv := run_history (C := fun _ _ => True) (f := fun d s => d.refunded p s + d.claimed p s)
    (I := fun P n => P.current = P.invested - n) (fun d s hnone => ?_) (fun P h => ?_)
    (fun d s P n _ hP _ hen h => ?_) h₀ (along_iff_at.mpr fun _ _ _ => trivial) hP
  · rw [hinv, tally_add, refundedTotal, claimedTotal]
    ring
  · rw [refunded_of_not_refunds (refunds_of_none hnone), claimed_of_not_claims (claims_of_none hnone)]
    rfl
  · rw [h.current, Project.invested, h.records]
    rfl
  · rw [refunded_eq hP, claimed_eq, Project.current_apply hen, h]
    ring

end

end Khc.Chain
