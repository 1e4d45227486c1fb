import Khc.Chain.Refund
import Khc.Project.Ledger

/-! Failed projects: what their records and their escrow stay from the failure on, and the room that the balances of
    KHD leave for what they owe. -/

namespace Khc.Chain

open Lib Database

namespace Project
variable {P Q : Project} {e : Event} {x : AccountId} {r : AssetInvestment}

/-- What has become of a failed project: it pays what it owes and no more, and no investment of it is owed anew. -/
structure FailedSince (P Q : Project) : Prop extends Q.Sound where
  stays : Q.state = .financingFailue
  paying : Q.current - Q.unrefunded = P.current - P.unrefunded
  owed : ∀ r ∈ Q.records, r.returnFinancingFlag = false → r ∈ P.records

theorem FailedSince.refl (h : P.Sound) (hfail : P.state = .financingFailue) : P.FailedSince P :=
  ⟨h, hfail, rfl, fun _ hr _ => hr⟩

theorem FailedSince.apply (h : P.FailedSince Q) (he : Q.Enabled e) : P.FailedSince (Q.apply e) := by
  have hsound := h.toSound.apply he
  have hstate := h.stays_failed he h.stays
  have hnot : ¬Q.Running := fun hrun => by simp [Running, h.stays] at hrun
  cases e with
  | invest r asked now => exact absurd h.stays (h.not_failed he.1)
  | issue total amounts => exact absurd he.2.1 hnot
  | claim amount => exact absurd he.2.1 hnot
  | receive x => exact absurd he.2.1 hnot
  | refund x =>
    refine ⟨hsound, hstate, ?_, fun r hr hret => ?_⟩
    · rw [unrefunded_refund, ← h.paying]
      simp only [Project.apply]
      ring
    obtain ⟨s, hs, rfl⟩ := List.mem_map.mp hr
    split at hret
    · cases hret
    · rename_i hother
      rw [if_neg hother]
      exact h.owed s hs hret
  | block maintained =>
    cases maintained <;> exact ⟨hsound, hstate, h.paying, h.owed⟩
  | _ => exact ⟨hsound, hstate, h.paying, h.owed⟩

/-- A refund marks the records of its account. -/
theorem marked_refund (hr : r ∈ (P.apply (.refund x)).records) (hx : r.investmentAccountId = x) :
    r.returnFinancingFlag = true := by
  obtain ⟨s, hs, rfl⟩ := List.mem_map.mp hr
  split at hx
  · rename_i hacc
    rw [if_pos hacc]
    rfl
  · rename_i hother
    exact absurd hx hother

/-- A project whose records are all marked owes nothing. -/
theorem unrefunded_eq_zero (h : ∀ r ∈ P.records, r.returnFinancingFlag = true) : P.unrefunded = 0 := by
  refine List.sum_eq_zero fun n hn => ?_
  obtain ⟨r, hr, rfl⟩ := List.mem_map.mp hn
  rw [AssetInvestment.unrefundedAmount, if_pos (h r hr)]

/-- A project owes an account no more than it owes all. -/
theorem Sound.owedTo_le (h : P.Sound) (x : AccountId) : P.owedTo x ≤ P.unrefunded := by
  rw [owedTo_eq, unrefunded]
  refine List.sum_le_sum fun r hr => ?_
  have hpos := h.positive r hr
  rw [AssetInvestment.unrefundedAmount]
  split
  · exact le_refl _
  · split
    · exact le_refl _
    · exact hpos.le

end Project

section
variable {d d₀ : Database} {p : AssetId} {P Q : Project} {a : AssetObject} {x : AccountId} {now : Nat}
  {o : RefundInvestmentOperation} {before after steps : List Step}

/-- What a failed project of a reachable state becomes. -/
theorem failed_run (h : WellFormed d) (hP : d.project p = some P) (hsound : P.Sound)
    (hfail : P.state = .financingFailue) (after : List Step) :
    ∃ Q, (d.run after).project p = some Q ∧ P.FailedSince Q :=
  project_run (C := fun _ _ => True) (I := fun Q => P.FailedSince Q) (fun _ _ _ _ _ _ he h => h.apply he) h
    (along_iff_at.mpr fun _ _ _ => trivial) hP (.refl hsound hfail)

/-- What an accepted refund is for the project. -/
theorem event_accepted (hacc : d.accepts now (.refundInvestment o) = true) :
    d.event (.operation now (.refundInvestment o)) o.investmentAssetId = .refund o.accountId := by
  rw [event_of_accepts hacc, Operation.event, if_pos rfl]

/-- An account that has had its money back is owed nothing in any later state. -/
theorem Start.settled (h₀ : Start d₀) (hacc : (d₀.run before).accepts now (.refundInvestment o) = true)
    (hQ : (((d₀.run before).step (.operation now (.refundInvestment o))).run after).project o.investmentAssetId =
      some Q) :
    Q.Sound ∧ ∀ r ∈ Q.records, r.investmentAccountId = o.accountId → r.returnFinancingFlag = true := by
  have hwf := h₀.wellFormed.run before
  have hrefunds : (d₀.run before).refunds o.investmentAssetId (.operation now (.refundInvestment o)) = true := by
    simp [refunds, hacc]
  obtain ⟨P, hP⟩ := project_of_refunds hrefunds
  obtain ⟨hen, hnext⟩ := project_step hwf hP (.operation now (.refundInvestment o))
  rw [event_accepted hacc] at hen hnext
  have hsound := h₀.sound hP
  obtain ⟨R, hR, hsince⟩ := failed_run (hwf.step _) hnext (hsound.apply hen) (hsound.stays_failed hen hen.2.1) after
  obtain rfl := Option.some.inj (hQ.symm.trans hR)
  refine ⟨hsince.toSound, fun r hr hx => ?_⟩
  rw [← Bool.not_eq_false]
  intro hret
  have hmarked := Project.marked_refund (hsince.owed r hr hret) hx
  rw [hret] at hmarked
  exact Bool.false_ne_true hmarked

/-! ### Room for what is owed -/

theorem Start.escrow_nonneg (h₀ : Start d₀) (ha : a ∈ (d₀.run steps).assets) : 0 ≤ a.escrow := by
  unfold AssetObject.escrow
  split
  · rename_i hproj
    obtain ⟨p, hp⟩ := List.mem_iff_getElem?.mp ha
    exact (h₀.sound (project_eq_some.mpr ⟨a, hp, hproj, rfl⟩)).nonneg
  · exact le_refl _

/-- KHD is there with the first project. -/
theorem WellFormed.khd_of_project (h : WellFormed d) (hP : d.project p = some P) :
    ∃ khd k, d.findSymbol khdAssetSymbol = some khd ∧ d.kinds[khd]? = some k ∧ k.symbol = khdAssetSymbol ∧
      k.marketIssued = true := by
  obtain ⟨a, ha, hproj, -⟩ := project_eq_some.mp hP
  obtain ⟨k, hk, hsym, hissued⟩ := h.registry.khd ⟨a.kind, mem_kinds (mem_of_getElem? ha), hproj⟩
  obtain ⟨khd, hkhd⟩ := List.mem_iff_getElem?.mp hk
  exact ⟨khd, k, hsym ▸ h.findSymbol hkhd, hkhd, hsym, hissued⟩

/-- What an account has and what a project has in escrow are together no more than there is. -/
theorem Start.room (h₀ : Start d₀) (hP : (d₀.run steps).project p = some P) {khd : AssetId}
    (hkhd : (d₀.run steps).findSymbol khdAssetSymbol = some khd) (hx : x < (d₀.run steps).accounts.length) :
    (d₀.run steps).balances x khd + P.current ≤ maxShareSupply := by
  have hwf := h₀.wellFormed.run steps
  obtain ⟨q, k, hq, hk, hsym, hissued⟩ := hwf.khd_of_project hP
  obtain rfl := Option.some.inj (hkhd.symm.trans hq)
  have htotal := h₀.bounded_run steps khd k hk hsym hissued
  obtain ⟨a, ha, hproj, rfl⟩ := project_eq_some.mp hP
  have hescrow : a.dynamicData.financingCurrentSupply ≤ (d₀.run steps).escrow := by
    rw [← escrow_of_project hproj]
    refine List.single_le_sum (fun n hn => ?_) _ (List.mem_map_of_mem (mem_of_getElem? ha))
    obtain ⟨b, hb, rfl⟩ := List.mem_map.mp hn
    exact h₀.escrow_nonneg hb
  have hfees : 0 ≤ (d₀.run steps).accumulatedFees khd := by
    unfold accumulatedFees
    split
    · rename_i b hb
      exact (hwf.counted b (mem_of_getElem? hb)).fees
    · exact le_refl _
  have hbalance := balances_le hwf.balances hx khd
  rw [total, held] at htotal
  simp only [AssetObject.project]
  omega

end

end Khc.Chain
