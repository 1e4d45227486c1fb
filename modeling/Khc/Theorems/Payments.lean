import Khc.Project.History

/-! The money of a project: what it raises against its maximum, and what its issuer draws against what it has raised.
    An investment is capped by what is in escrow, which the claims of the issuer have drawn down. -/

namespace Khc.Chain

open Lib Database

namespace Project
variable {P : Project} {e : Event} {asked amount : Int} {now : Nat} {r : AssetInvestment}

theorem raised_invest (he : P.Enabled (.invest r asked now)) :
    (P.apply (.invest r asked now)).raised = P.raised + P.accepted asked := by
  rw [← he.2.2.1]
  rfl

end Project

/-! ### The cap -/

/-- The step invests more in a project than is left to its maximum, after money has left its escrow. -/
def Database.overfunds (d : Database) (p : AssetId) : Step → Bool
  | .operation _ (.assetInvestment o) => o.investmentAssetId = p && (d.project p).any fun P =>
    P.OnOffer && P.current ≠ P.raised && P.options.maxFinancingAmount - P.raised < o.amount.amount
  | _ => false

/-- The counters of a public offering are those of its records and its payments, and within its maximum. -/
structure FundsCounted (d₀ : Database) (p : AssetId) (steps : List Step) (a : AssetObject) : Prop where
  nonneg : 0 ≤ a.dynamicData.financingCurrentSupply
  le : a.dynamicData.financingCurrentSupply ≤ a.dynamicData.financingConfidentialSupply
  cap : 0 ≤ a.projOptions.maxFinancingAmount →
    a.dynamicData.financingConfidentialSupply ≤ a.projOptions.maxFinancingAmount
  raised : a.dynamicData.financingConfidentialSupply =
    (((d₀.run steps).investmentsByAsset p).map (·.investmentKhdAmount.amount)).sum
  current : a.dynamicData.financingCurrentSupply =
    (((d₀.run steps).investmentsByAsset p).map (·.investmentKhdAmount.amount)).sum -
      d₀.refundedTotal p steps - d₀.claimedTotal p steps

section
variable {d d₀ : Database} {p : AssetId} {P : Project} {a : AssetObject} {steps : List Step}

/-- Within its maximum a project stays, but for an investment after a payment. -/
theorem Start.capped (h₀ : Start d₀) (hC : Along Database.step (fun d s => d.overfunds p s = false) d₀ steps)
    (hP : (d₀.run steps).project p = some P) (hmax : 0 ≤ P.options.maxFinancingAmount) :
    P.raised ≤ P.options.maxFinancingAmount := by
  have hinv := run_project (C := fun d s => d.overfunds p s = false)
    (I := fun P => P.Sound ∧ (0 ≤ P.options.maxFinancingAmount → P.raised ≤ P.options.maxFinancingAmount))
    (fun P h => ⟨.of_initial h, fun hmax => h.raised ▸ hmax⟩) (fun d s P _ hP hC hen h => ⟨h.1.apply hen, ?_⟩) h₀ hC hP
  · exact hinv.2 hmax
  · cases he : d.event s p with
    | invest r asked now =>
      rw [he] at hen
      rw [Project.invest_max, Project.raised_invest hen]
      intro hmax
      have hcap := h.2 hmax
      have hle := h.1.le
      have hacc : P.accepted asked ≤ asked := Project.accepted_le
      obtain ⟨o, rfl, rfl, rfl⟩ := event_invest he
      rw [← Bool.not_eq_true] at hC
      simp only [Database.overfunds, hP, Option.any_some, Bool.and_eq_true, decide_eq_true_eq] at hC
      by_cases hsame : P.current = P.raised
      · unfold Project.accepted
        split
        · omega
        · rename_i hfills
          rw [Project.Fills] at hfills
          omega
      · have hroom : ¬P.options.maxFinancingAmount - P.raised < o.amount.amount :=
          fun hlt => hC ⟨trivial, ⟨hen.1, hsame⟩, hlt⟩
        omega
    | block maintained => cases maintained <;> exact h.2
    | _ => exact h.2

/-- Unless somebody invests more than is left after a payment, the funds of a public offering are counted rightly. -/
theorem funds_counted (h₀ : Start d₀) (hC : Along Database.step (fun d s => d.overfunds p s = false) d₀ steps)
    (ha : (d₀.run steps).assets[p]? = some a) (hproj : a.isProjectAsset = true) : FundsCounted d₀ p steps a := by
  have hP := project_eq_some.mpr ⟨a, ha, hproj, rfl⟩
  have hsound := h₀.sound hP
  exact ⟨hsound.nonneg, hsound.le, h₀.capped hC hP, hsound.raised, h₀.current_eq hP⟩

end

section
open Sample

/-- At the end block of the financing the issuer is paid, and the project takes investments for what he has got. -/
def overfundedRun : List Step :=
  [create offering, maintain, invest 2 150, maintain, maintain, issue, claim, invest 3 95]

theorem funds_overfunded : Start genesis ∧ ∃ a ∈ (genesis.run overfundedRun).assets[2]?,
    a.isProjectAsset = true ∧ ¬FundsCounted genesis 2 overfundedRun a :=
  ⟨genesis_start, _, rfl, by decide, fun h => absurd (h.cap (by decide)) (by decide)⟩

theorem funds_counted_filled : ∃ a ∈ (genesis.run [create offering, maintain, invest 2 150, invest 3 150]).assets[2]?,
    FundsCounted genesis 2 [create offering, maintain, invest 2 150, invest 3 150] a :=
  ⟨_, rfl, funds_counted genesis_start (by decide) rfl (by decide)⟩

end

/-! ### The claims of the issuer -/

/-- The step invests in a project that has paid its issuer. -/
def Database.investsLate (d : Database) (p : AssetId) : Step → Bool
  | .operation _ (.assetInvestment o) => o.investmentAssetId = p && (d.project p).any fun P =>
    P.OnOffer && 0 < P.claimTimes
  | _ => false

namespace Project

/-- What is left of an amount after so many claims of thirty percent, of which the third takes the rest. -/
def leftAfter (raised : Int) : Nat → Int
  | 0 => raised
  | 1 => raised - raised * 30 / 100
  | 2 => raised - raised * 30 / 100 - raised * 30 / 100
  | _ => 0

/-- A project that has paid its issuer shares of what it has raised, `paid` in all. -/
structure Shared (P : Project) (paid : Int) : Prop extends P.Sound where
  left : P.state ≠ .financingFailue → P.current = leftAfter P.raised P.claimTimes
  paidOut : P.state ≠ .financingFailue → paid = P.raised - P.current
  all : P.claimTimes = 3 → P.current = 0 ∧ paid = P.raised

variable {P : Project} {e : Event} {asked amount paid : Int} {now : Nat} {r : AssetInvestment}

theorem leftAfter_sub (raised : Int) {times : Nat} (h : times < 3) :
    leftAfter raised times - ClaimBitassetInvestment.amountAt times raised (raised * 30 / 100) =
      leftAfter raised (times + 1) := by
  match times, h with
  | 0, _ => rfl
  | 1, _ => rfl
  | 2, _ => exact sub_self _

theorem Shared.of_initial (h : P.Initial) : P.Shared 0 where
  toSound := .of_initial h
  left _ := by rw [h.current, h.claimTimes, h.raised]; rfl
  paidOut _ := by rw [h.raised, h.current]; rfl
  all htimes := by rw [h.claimTimes] at htimes; cases htimes

theorem Shared.claim (h : P.Shared paid) (he : P.Enabled (.claim amount)) :
    (P.apply (.claim amount)).Shared (paid + amount) := by
  have hsound := h.toSound.claim he
  obtain ⟨-, hrun, htimes, -, -, -, -, -, share, hshare, hamount⟩ := he
  have hnot : P.state ≠ .financingFailue := fun hfail => by simp [Running, hfail] at hrun
  have hleft := h.left hnot
  have hpaid := h.paidOut hnot
  rw [ClaimBitassetInvestment.share_eq (h.nonneg.trans h.le) h.range hshare] at hamount
  have hnext : P.current - amount = leftAfter P.raised (P.claimTimes + 1) := by
    rw [hleft, hamount, leftAfter_sub P.raised htimes]
  refine ⟨hsound, fun _ => hnext, fun _ => ?_, fun hall => ?_⟩
  · simp only [Project.apply]
    omega
  · simp only [Project.apply] at hall ⊢
    have hzero : P.current - amount = 0 := by rw [hnext, hall]; rfl
    omega

theorem Shared.apply (h : P.Shared paid) (he : P.Enabled e)
    (hin : ∀ r asked now, e = .invest r asked now → P.claimTimes = 0) : (P.apply e).Shared (paid + e.claimed) := by
  have hsound := h.toSound.apply he
  cases e with
  | claim amount => exact h.claim he
  | invest r asked now =>
    have hnot := h.not_failed he.1
    have htimes := hin r asked now rfl
    have hleft := h.left hnot
    have hpaid := h.paidOut hnot
    rw [htimes] at hleft
    refine ⟨hsound, fun _ => ?_, fun _ => ?_, fun hall => ?_⟩
    · simp only [Project.apply, htimes, leftAfter, hleft]
    · simp only [Project.apply, Event.claimed]
      omega
    · simp only [Project.apply, htimes] at hall
      cases hall
  | refund x =>
    refine ⟨hsound, fun hnot => absurd he.2.1 hnot, fun hnot => absurd he.2.1 hnot, fun hall => ?_⟩
    -- nothing is left to refund after the third claim
    have howed := h.owedTo_pos he.2.2.2
    have hcov := he.2.2.1
    have hzero := (h.all hall).1
    omega
  | block maintained =>
    have hnot : (P.apply (.block maintained)).state ≠ .financingFailue → P.state ≠ .financingFailue :=
      fun hnot hfail => hnot (h.stays_failed he hfail)
    show (P.apply (.block maintained)).Shared (paid + 0)
    rw [add_zero]
    cases maintained with
    | false => exact ⟨hsound, h.left, h.paidOut, h.all⟩
    | true => exact ⟨hsound, h.left ∘ hnot, h.paidOut ∘ hnot, h.all⟩
  | _ =>
    show (Project.apply P _).Shared (paid + 0)
    rw [add_zero]
    exact ⟨hsound, h.left, h.paidOut, h.all⟩

/-- The third claim of a project that is paid in shares finds what it asks for. -/
theorem Shared.third (h : P.Shared paid) (hrun : P.Running) (htimes : P.claimTimes = 2) :
    0 < P.current ∧ ∀ share, uint128MulDiv P.raised khcFirstClaimInvestmentRatio khc100Percent = .ok share →
      P.current = ClaimBitassetInvestment.amountAt P.claimTimes P.raised share := by
  have hnot : P.state ≠ .financingFailue := fun hfail => by simp [Running, hfail] at hrun
  have hleft : P.current = P.raised - P.raised * 30 / 100 - P.raised * 30 / 100 := by rw [h.left hnot, htimes]; rfl
  have hraised := h.drawn (by omega)
  refine ⟨by omega, fun share hshare => ?_⟩
  rw [hleft, htimes, ClaimBitassetInvestment.share_eq hraised.le h.range hshare]
  rfl

end Project

/-- The issuer of a project claims three times, each in its time, and gets what the project has raised. -/
structure ClaimedInThree (d₀ : Database) (p : AssetId) (steps : List Step) : Prop where
  three : d₀.claimCount p steps ≤ 3
  inTime : ∀ s, (d₀.run steps).claims p s = true → ∀ a ∈ (d₀.run steps).assets[p]?,
    ClaimBitassetInvestment.blockAt a.projOptions (d₀.run steps).parameters.blockInterval (d₀.claimCount p steps) ≤
      (d₀.run steps).headBlockNumber
  paid : d₀.claimCount p steps = 3 → ∀ a ∈ (d₀.run steps).assets[p]?,
    d₀.claimedTotal p steps = a.dynamicData.financingConfidentialSupply ∧ a.dynamicData.financingCurrentSupply = 0
  third : d₀.claimCount p steps = 2 → ∀ o e, o.assetId = p →
    ClaimBitassetInvestment.doEvaluate (d₀.run steps) o = .error e → e ≠ .noInvestmentLess ∧ e ≠ .claimTooLarge

section
variable {d₀ : Database} {p : AssetId} {P : Project} {steps : List Step}

theorem Start.shared (h₀ : Start d₀) (hC : Along Database.step (fun d s => d.investsLate p s = false) d₀ steps)
    (hP : (d₀.run steps).project p = some P) : P.Shared (d₀.claimedTotal p steps) := by
  refine run_history (C := fun d s => d.investsLate p s = false) (f := fun d s => d.claimed p s)
    (I := fun P n => P.Shared n) (fun d s hnone => claimed_of_not_claims (claims_of_none hnone))
    (fun P h => .of_initial h) (fun d s P n _ hP hC hen h => ?_) h₀ hC hP
  rw [claimed_eq]
  refine h.apply hen fun r asked now he => ?_
  rw [he] at hen
  obtain ⟨o, rfl, rfl, rfl⟩ := event_invest he
  rw [← Bool.not_eq_true] at hC
  simp only [Database.investsLate, hP, Option.any_some, Bool.and_eq_true, decide_eq_true_eq] at hC
  exact Nat.eq_zero_of_not_pos fun hpos => hC ⟨trivial, hen.1, hpos⟩

/-- Unless somebody invests after a claim, the claims of the issuer are three, and all that is raised. -/
theorem claimed_inThree (h₀ : Start d₀)
    (hC : Along Database.step (fun d s => d.investsLate p s = false) d₀ steps) : ClaimedInThree d₀ p steps where
  three := by
    rcases Nat.eq_zero_or_pos (d₀.claimCount p steps) with hzero | hpos
    · rw [hzero]
      decide
    · obtain ⟨P, hP⟩ := h₀.project_of_claimCount hpos
      rw [h₀.claimCount_eq hP]
      exact (h₀.sound hP).times
  inTime := by
    rintro s hclaims a ha
    obtain ⟨P, hP⟩ := project_of_claims hclaims
    rw [claims_eq] at hclaims
    cases he : (d₀.run steps).event s p with
    | claim amount =>
      obtain ⟨now, o, rfl, rfl, hacc⟩ := event_claim he
      obtain ⟨e, hev⟩ := claim_evaluated hacc
      obtain ⟨b, hadm⟩ := ClaimBitassetInvestment.doEvaluate_inv hev
      obtain rfl := Option.some.inj (hadm.asset.symm.trans ha)
      have hblock := hadm.block
      rwa [h₀.claimCount_eq hP, project_of_asset ha hP]
    | _ => simp [he, Event.isClaim] at hclaims
  paid := by
    rintro hall a ha
    obtain ⟨P, hP⟩ := h₀.project_of_claimCount (show 0 < d₀.claimCount p steps by omega)
    obtain ⟨hzero, hpaid⟩ := (h₀.shared hC hP).all (h₀.claimCount_eq hP ▸ hall)
    rw [project_of_asset ha hP] at hzero hpaid
    exact ⟨hpaid, hzero⟩
  third := by
    rintro htwo o e rfl hev
    obtain ⟨P, hP⟩ := h₀.project_of_claimCount (show 0 < d₀.claimCount o.assetId steps by omega)
    by_contra hlack
    obtain ⟨a, hlacking⟩ := ClaimBitassetInvestment.doEvaluate_lack hev (by tauto)
    have htimes : P.claimTimes = 2 := h₀.claimCount_eq hP ▸ htwo
    have hPa := project_of_asset hlacking.asset hP
    have hrun : P.Running := by
      rw [hPa]
      exact hlacking.running
    obtain ⟨hpos, hamount⟩ := (h₀.shared hC hP).third hrun htimes
    rw [hPa] at hpos hamount
    rcases hlacking.lack with hnone | ⟨share, hshare, hless⟩
    · exact absurd hpos (not_lt.mpr hnone)
    · exact absurd (hamount share hshare) hless.ne

end

section
open Sample

/-- A chain that is old enough for all claims of a project that names its first block as its start. -/
def old : Database := { genesis with headBlockNumber := 600000 }

/-- The same offering, at the head of that chain. -/
def recent : ProjectAssetOptions :=
  { offering with startFinancingBlockNum := 600001, endFinancingBlockNum := 600003, endProjectBlockNum := 700000 }

theorem old_start : Start old := { genesis_start with }

/-- An investment follows the first claim. -/
def lateRun : List Step :=
  [create recent, maintain, invest 2 150, maintain, maintain, issue, claim, invest 3 10, claim, claim]

theorem claimed_notAll : Start old ∧ ¬ClaimedInThree old 2 lateRun :=
  ⟨old_start, fun h => absurd (h.paid (by decide)) (by decide)⟩

/-- The issuer claims three times. -/
def claimedRun : List Step := [create recent, maintain, invest 2 150, maintain, maintain, issue, claim, claim, claim]

theorem claimed_inThree_recent : old.claimCount 2 claimedRun = 3 ∧ ClaimedInThree old 2 claimedRun :=
  ⟨by decide, claimed_inThree old_start (by decide)⟩

end

end Khc.Chain
