import Khc.Project.Run

/-! Which step of the chain each event of a project comes from, and what steps pay out of the escrow of a project. -/

namespace Khc.Chain

open Lib Database

namespace Database
variable (d : Database)

/-- The operation does not throw. -/
def accepts (now : Nat) (op : Operation) : Bool := (d.applyOperation now op).isOk

/-- The issuer of the project claims KHD. -/
def claims (p : AssetId) : Step → Bool
  | .operation now (.claimBitassetInvestment o) => o.assetId = p && d.accepts now (.claimBitassetInvestment o)
  | _ => false

/-- The KHD that a step pays to the issuer of a project. -/
def claimed (p : AssetId) : Step → Int
  | .operation now (.claimBitassetInvestment o) =>
    if d.claims p (.operation now (.claimBitassetInvestment o)) then
      match ClaimBitassetInvestment.doEvaluate d o with
      | .ok e => e.khdAmount.amount
      | .error _ => 0
    else 0
  | _ => 0

/-- An investor gets an investment in the project back. -/
def refunds (p : AssetId) : Step → Bool
  | .operation now (.refundInvestment o) => o.investmentAssetId = p && d.accepts now (.refundInvestment o)
  | _ => false

/-- The KHD that a step pays back to an investor of a project. -/
def refunded (p : AssetId) : Step → Int
  | .operation now (.refundInvestment o) =>
    if d.refunds p (.operation now (.refundInvestment o)) then
      match RefundInvestment.doEvaluate d o with
      | .ok objs => RefundInvestment.amountOf objs
      | .error _ => 0
    else 0
  | _ => 0

/-- The account gets its tokens of the project. -/
def receives (p : AssetId) (x : AccountId) : Step → Bool
  | .operation now (.claimAssetInvestment o) =>
    o.assetId = p && o.accountId = x && d.accepts now (.claimAssetInvestment o)
  | _ => false

/-- Tokens of the project are created. -/
def creates (p : AssetId) : Step → Bool
  | .operation now (.assetIssue o) => o.assetToIssue.assetId = p && d.accepts now (.assetIssue o)
  | .operation now (.issueAssetToInvestors o) => o.investmentAssetId = p && d.accepts now (.issueAssetToInvestors o)
  | _ => false

end Database

/-- The event is a claim of the issuer. -/
def Event.isClaim : Event → Bool
  | .claim _ => true
  | _ => false

/-- The event creates tokens. -/
def Event.creates : Event → Bool
  | .issue _ _ => true
  | .mint _ => true
  | _ => false

/-- The KHD that an event pays to the issuer. -/
def Event.claimed : Event → Int
  | .claim amount => amount
  | _ => 0

/-- The KHD that an event pays back. -/
def Project.refunded (P : Project) : Event → Int
  | .refund x => P.owedTo x
  | _ => 0

section
variable {d d' : Database} {p : AssetId} {P : Project} {now : Nat} {op : Operation} {s : Step}

theorem accepts_iff : d.accepts now op = true ↔ ∃ d', d.applyOperation now op = .ok d' := by
  unfold Database.accepts
  cases d.applyOperation now op with
  | ok d' => simp [Except.isOk, Except.toBool]
  | error e => simp [Except.isOk, Except.toBool]

/-- A rejected operation leaves the state as it was. -/
theorem step_of_rejected (h : d.accepts now op = false) : d.step (.operation now op) = d := by
  unfold Database.accepts at h
  cases hs : d.applyOperation now op with
  | ok d' =>
    rw [hs] at h
    cases h
  | error e => simp only [Database.step, hs]

theorem event_of_accepts (h : d.accepts now op = true) : d.event (.operation now op) p = op.event d now p := by
  obtain ⟨d', hs⟩ := accepts_iff.mp h
  simp only [Database.event, hs]

theorem event_of_rejected (h : d.accepts now op = false) : d.event (.operation now op) p = .idle := by
  unfold Database.accepts at h
  cases hs : d.applyOperation now op with
  | ok d' =>
    rw [hs] at h
    cases h
  | error e => simp only [Database.event, hs]

/-- An event other than the end of a block is what an accepted operation is for the project. -/
theorem event_operation {e : Event} (h : d.event s p = e) (hidle : e ≠ .idle) (hblock : ∀ b, e ≠ .block b) :
    ∃ now op, s = .operation now op ∧ d.accepts now op = true ∧ op.event d now p = e := by
  cases s with
  | operation now op =>
    refine ⟨now, op, rfl, ?_⟩
    cases hacc : d.accepts now op with
    | true =>
      rw [event_of_accepts hacc] at h
      exact ⟨rfl, h⟩
    | false =>
      rw [event_of_rejected hacc] at h
      exact absurd h.symm hidle
  | endBlock timestamp maintenance => exact absurd h.symm (hblock _)

theorem event_invest {r : AssetInvestment} {asked : Int} (h : d.event s p = .invest r asked now) :
    ∃ o, s = .operation now (.assetInvestment o) ∧ o.investmentAssetId = p ∧ o.amount.amount = asked := by
  obtain ⟨n, op, rfl, -, hop⟩ := event_operation h (by simp) (by simp)
  cases op with
  | assetInvestment o =>
    simp only [Operation.event] at hop
    split at hop
    · rename_i hp
      split at hop
      · injection hop with _ hasked hnow
        exact ⟨o, by rw [hnow], hp, hasked⟩
      · cases hop
    · cases hop
  | _ => grind [Operation.event]

theorem event_issue {total : Int} {amounts : List Int} (h : d.event s p = .issue total amounts) :
    ∃ now o, s = .operation now (.issueAssetToInvestors o) ∧ o.investmentAssetId = p := by
  obtain ⟨n, op, rfl, -, hop⟩ := event_operation h (by simp) (by simp)
  cases op <;> grind [Operation.event]

theorem event_refund {x : AccountId} (h : d.event s p = .refund x) :
    ∃ now o, s = .operation now (.refundInvestment o) ∧ o.investmentAssetId = p ∧ o.accountId = x ∧
      d.accepts now (.refundInvestment o) = true := by
  obtain ⟨n, op, rfl, hacc, hop⟩ := event_operation h (by simp) (by simp)
  cases op <;> grind [Operation.event]

theorem event_claim {amount : Int} (h : d.event s p = .claim amount) :
    ∃ now o, s = .operation now (.claimBitassetInvestment o) ∧ o.assetId = p ∧
      d.accepts now (.claimBitassetInvestment o) = true := by
  obtain ⟨n, op, rfl, hacc, hop⟩ := event_operation h (by simp) (by simp)
  cases op <;> grind [Operation.event]

theorem event_receive {x : AccountId} (h : d.event s p = .receive x) :
    ∃ now o, s = .operation now (.claimAssetInvestment o) ∧ o.assetId = p ∧ o.accountId = x ∧
      d.accepts now (.claimAssetInvestment o) = true := by
  obtain ⟨n, op, rfl, hacc, hop⟩ := event_operation h (by simp) (by simp)
  cases op <;> grind [Operation.event]

theorem event_maintenance (h : d.event s p = .block true) : ∃ t ps, s = .endBlock t (some ps) := by
  cases s with
  | operation now op =>
    cases hacc : d.accepts now op with
    | true =>
      rw [event_of_accepts hacc] at h
      cases op <;> grind [Operation.event]
    | false =>
      rw [event_of_rejected hacc] at h
      cases h
  | endBlock timestamp maintenance =>
    injection h with hsome
    obtain ⟨ps, rfl⟩ := Option.isSome_iff_exists.mp hsome
    exact ⟨timestamp, ps, rfl⟩

/-! ### Payments and tokens -/

/-- The checks of an accepted operation have succeeded. -/
theorem claim_evaluated {o : ClaimBitassetInvestmentOperation} (h : d.accepts now (.claimBitassetInvestment o) = true) :
    ∃ e, ClaimBitassetInvestment.doEvaluate d o = .ok e := by
  obtain ⟨d', hs⟩ := accepts_iff.mp h
  simp only [Database.applyOperation, bind_eq_ok] at hs
  obtain ⟨-, -, hs⟩ := hs
  obtain ⟨-, e, -, -, he, -⟩ := startEvaluate_inv hs
  exact ⟨e, he⟩

theorem refund_evaluated {o : RefundInvestmentOperation} (h : d.accepts now (.refundInvestment o) = true) :
    RefundInvestment.doEvaluate d o = .ok (RefundInvestment.refundables d o.accountId o.investmentAssetId) := by
  obtain ⟨d', hs⟩ := accepts_iff.mp h
  simp only [Database.applyOperation, bind_eq_ok] at hs
  obtain ⟨-, -, hs⟩ := hs
  obtain ⟨-, objs, -, -, he, -⟩ := startEvaluate_inv hs
  rw [he, (RefundInvestment.doEvaluate_inv he).1]

theorem issue_evaluated {o : IssueAssetToInvestorsOperation} (h : d.accepts now (.issueAssetToInvestors o) = true) :
    ∃ e, IssueAssetToInvestors.doEvaluate d o = .ok e := by
  obtain ⟨d', hs⟩ := accepts_iff.mp h
  simp only [Database.applyOperation, bind_eq_ok] at hs
  obtain ⟨-, -, hs⟩ := hs
  obtain ⟨-, e, -, -, he, -⟩ := startEvaluate_inv hs
  exact ⟨e, he⟩

theorem receive_evaluated {o : ClaimAssetInvestmentOperation} (h : d.accepts now (.claimAssetInvestment o) = true) :
    ∃ e, ClaimAssetInvestment.doEvaluate d o = .ok e := by
  obtain ⟨d', hs⟩ := accepts_iff.mp h
  simp only [Database.applyOperation, bind_eq_ok] at hs
  obtain ⟨-, -, hs⟩ := hs
  obtain ⟨-, e, -, -, he, -⟩ := startEvaluate_inv hs
  exact ⟨e, he⟩

theorem claims_eq : d.claims p s = (d.event s p).isClaim := by
  cases hc : d.claims p s with
  | true =>
    cases s with
    | operation now op =>
      cases op with
      | claimBitassetInvestment o =>
        obtain ⟨hp, hacc⟩ : o.assetId = p ∧ d.accepts now (.claimBitassetInvestment o) = true := by
          simpa [Database.claims] using hc
        obtain ⟨e, he⟩ := claim_evaluated hacc
        rw [event_of_accepts hacc, Operation.event, if_pos hp, he]
        rfl
      | _ => cases hc
    | endBlock timestamp maintenance => cases hc
  | false =>
    cases he : d.event s p with
    | claim amount =>
      obtain ⟨now, o, rfl, hp, hacc⟩ := event_claim he
      simp [Database.claims, hp, hacc] at hc
    | _ => rfl

theorem claimed_eq : d.claimed p s = (d.event s p).claimed := by
  cases s with
  | operation now op =>
    cases hacc : d.accepts now op with
    | true =>
      rw [event_of_accepts hacc]
      cases op <;> grind [Operation.event, Database.claimed, Database.claims, Event.claimed]
    | false =>
      rw [event_of_rejected hacc]
      cases op <;> grind [Operation.event, Database.claimed, Database.claims, Event.claimed]
  | endBlock timestamp maintenance => rfl

theorem refunds_iff : d.refunds p s = true ↔ ∃ x, d.event s p = .refund x := by
  constructor
  · intro hr
    cases s with
    | operation now op =>
      cases op with
      | refundInvestment o =>
        obtain ⟨hp, hacc⟩ : o.investmentAssetId = p ∧ d.accepts now (.refundInvestment o) = true := by
          simpa [Database.refunds] using hr
        exact ⟨o.accountId, by rw [event_of_accepts hacc, Operation.event, if_pos hp]⟩
      | _ => cases hr
    | endBlock timestamp maintenance => cases hr
  · rintro ⟨x, hx⟩
    obtain ⟨now, o, rfl, hp, -, hacc⟩ := event_refund hx
    simp [Database.refunds, hp, hacc]

theorem refunded_eq (hP : d.project p = some P) : d.refunded p s = P.refunded (d.event s p) := by
  cases s with
  | operation now op =>
    cases op with
    | refundInvestment o =>
      simp only [Database.refunded, Database.refunds, Bool.and_eq_true, decide_eq_true_eq]
      by_cases hp : o.investmentAssetId = p
      · cases hacc : d.accepts now (.refundInvestment o) with
        | true =>
          subst hp
          rw [event_of_accepts hacc, Operation.event, if_pos rfl, if_pos ⟨rfl, rfl⟩, refund_evaluated hacc,
            refundables_records hP]
          rfl
        | false =>
          rw [event_of_rejected hacc, if_neg (by simp)]
          rfl
      · rw [if_neg fun h => hp h.1]
        cases he : d.event (.operation now (.refundInvestment o)) p with
        | refund x =>
          obtain ⟨n, o', hop, hp', -⟩ := event_refund he
          injection hop with _ hop
          injection hop with hop
          exact absurd (hop ▸ hp') hp
        | _ => rfl
    | _ =>
      cases he : d.event _ p with
      | refund x =>
        obtain ⟨n, o', hop, -⟩ := event_refund he
        cases hop
      | _ => rfl
  | endBlock timestamp maintenance => rfl

theorem receives_iff {x : AccountId} : d.receives p x s = true ↔ d.event s p = .receive x := by
  constructor
  · intro hr
    cases s with
    | operation now op =>
      cases op with
      | claimAssetInvestment o =>
        obtain ⟨⟨hp, rfl⟩, hacc⟩ :
            (o.assetId = p ∧ o.accountId = x) ∧ d.accepts now (.claimAssetInvestment o) = true := by
          simpa [Database.receives] using hr
        rw [event_of_accepts hacc, Operation.event, if_pos hp]
      | _ => cases hr
    | endBlock timestamp maintenance => cases hr
  · intro he
    obtain ⟨now, o, rfl, hp, hx, hacc⟩ := event_receive he
    simp [Database.receives, hp, hx, hacc]

theorem creates_eq : d.creates p s = (d.event s p).creates := by
  cases s with
  | operation now op =>
    cases hacc : d.accepts now op with
    | true =>
      rw [event_of_accepts hacc]
      cases op with
      | issueAssetToInvestors o =>
        obtain ⟨e, he⟩ := issue_evaluated hacc
        by_cases hp : o.investmentAssetId = p
        · simp [Database.creates, Operation.event, he, hp, hacc, Event.creates]
        · simp [Database.creates, Operation.event, hp, Event.creates]
      | _ => grind [Operation.event, Database.creates, Event.creates]
    | false =>
      rw [event_of_rejected hacc]
      cases op <;> grind [Database.creates, Event.creates]
  | endBlock timestamp maintenance => rfl

/-- Only projects are paid out, -/
theorem project_of_claims (h : d.claims p s = true) : ∃ P, d.project p = some P := by
  rw [claims_eq] at h
  cases he : d.event s p with
  | claim amount =>
    obtain ⟨now, o, rfl, rfl, hacc⟩ := event_claim he
    obtain ⟨e, hev⟩ := claim_evaluated hacc
    obtain ⟨a, hadm⟩ := ClaimBitassetInvestment.doEvaluate_inv hev
    exact ⟨_, project_eq_some.mpr ⟨a, hadm.asset, hadm.project, rfl⟩⟩
  | _ => simp [he, Event.isClaim] at h

/-- refunded -/
theorem project_of_refunds (h : d.refunds p s = true) : ∃ P, d.project p = some P := by
  obtain ⟨x, he⟩ := refunds_iff.mp h
  obtain ⟨now, o, rfl, rfl, -, hacc⟩ := event_refund he
  obtain ⟨-, a, hadm⟩ := RefundInvestment.doEvaluate_inv (refund_evaluated hacc)
  exact ⟨_, project_eq_some.mpr ⟨a, hadm.asset, hadm.project, rfl⟩⟩

/-- or give tokens to their investors. -/
theorem project_of_receives {x : AccountId} (h : d.receives p x s = true) : ∃ P, d.project p = some P := by
  obtain ⟨now, o, rfl, rfl, -, hacc⟩ := event_receive (receives_iff.mp h)
  obtain ⟨e, hev⟩ := receive_evaluated hacc
  obtain ⟨a, hadm⟩ := ClaimAssetInvestment.doEvaluate_inv hev
  exact ⟨_, project_eq_some.mpr ⟨a, hadm.asset, hadm.project, rfl⟩⟩

theorem claimed_of_not_claims (h : d.claims p s = false) : d.claimed p s = 0 := by
  rw [claimed_eq]
  rw [claims_eq] at h
  cases he : d.event s p with
  | claim amount => simp [he, Event.isClaim] at h
  | _ => rfl

theorem refunded_of_not_refunds (h : d.refunds p s = false) : d.refunded p s = 0 := by
  cases s with
  | operation now op =>
    cases op with
    | refundInvestment o => simp [Database.refunded, h]
    | _ => rfl
  | endBlock timestamp maintenance => rfl

end

end Khc.Chain
