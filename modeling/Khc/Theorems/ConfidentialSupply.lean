import Khc.Blind.Effects
import Khc.Market.Reachable

/-! The confidential supply: it is what the live balances hide, as long as the outputs hide what their proofs are to show. -/

namespace Khc

open Lib
open Auth (Authority)
open Chain (Asset AccountId AssetId InInt64 maxShareSupply)
open Market (Eval PaidFee AccountBalance fcAssert_eq_ok safe_eq_ok)

namespace Market.Database
variable {d d' : Market.Database} {account owner : AccountId} {delta fee : Asset} {a : AssetId} {paid : PaidFee}

theorem Solvent.balancesOf_nonneg (hd : d.Solvent) : 0 ≤ d.balancesOf a := by
  refine List.sum_nonneg fun x hx => ?_
  obtain ⟨b, hb, rfl⟩ := List.mem_map.mp hx
  exact Asset.of_nonneg (hd.balances b hb)

theorem Solvent.getBalance_nonneg (hd : d.Solvent) : 0 ≤ d.getBalance account a := by
  unfold getBalance
  cases hb : d.balances.find? (AccountBalance.isOf account a) with
  | none => exact le_refl 0
  | some b => exact hd.balances b (List.mem_of_find?_eq_some hb)

/-- A fee is of an asset that exists. -/
theorem prepareFee_known (h : d.prepareFee account fee = .ok paid) :
    (∃ x, d.getAsset fee.assetId = .ok x) ∧ fee.assetId < d.dynamicData.length := by
  unfold prepareFee at h
  split at h
  · simp only [bind_eq_ok] at h
    obtain ⟨_, -, _, -, x, hx, dyn, hdyn, -⟩ := h
    exact ⟨⟨x, hx⟩, (List.getElem?_eq_some_iff.mp (lookup_eq_ok.mp hdyn)).1⟩
  · exact (throw_ne_ok.mp h).elim

theorem getDynamicData_total (h : a < d.dynamicData.length) : ∃ x, d.getDynamicData a = .ok x :=
  ⟨d.dynamicData[a], lookup_eq_ok.mpr (List.getElem?_eq_getElem h)⟩

end Market.Database

namespace Blind

variable {P K A : Type} [LinearOrder K] [LinearOrder A] {d d' : Database P K A} {op : Operation P K A} {ops : List (Operation P K A)}
  {o : TransferFromBlind K A} {a : AssetId}

/-! ### Backed supplies -/

/-- Of several outputs, each hides an amount that its proof is to show, and a single one does not make up for a fee that is too high. -/
structure Operation.Ranged (op : Operation P K A) : Prop where
  several : 1 < op.created.length → ∀ c ∈ op.created, c.hidden ≤ maxShareSupply
  single : op.created.length = 1 → op.unblinded ≤ sumHidden op.spent + op.blinded

instance Operation.decidableRanged (op : Operation P K A) : Decidable op.Ranged :=
  decidable_of_iff (_ ∧ _) ⟨fun h => ⟨h.1, h.2⟩, fun h => ⟨h.several, h.single⟩⟩

namespace Database

/-- The live balances of an asset hide its confidential supply. -/
structure Backed (d : Database P K A) : Prop where
  hidden : ∀ a, hiddenOf d.blindedBalances a = d.confidentialSupply a
  ranged : ∀ b ∈ d.blindedBalances, 0 ≤ b.commitment.hidden ∧ b.commitment.hidden ≤ maxShareSupply

/-- What every accepted operation keeps -/
structure Sound (d : Database P K A) : Prop where
  regular : d.Regular
  solvent : d.market.Solvent
  collected : ∀ a, 0 ≤ d.collected a
  held : ∀ a, d.held a ≤ maxShareSupply

/-- Nothing is blinded yet, and there is no more of an asset than there can be. -/
structure Start (d : Database P K A) : Prop where
  blindedBalances : d.blindedBalances = []
  supply : ∀ a, d.confidentialSupply a = 0
  solvent : d.market.Solvent
  collected : ∀ a, 0 ≤ d.collected a
  held : ∀ a, d.held a ≤ maxShareSupply

theorem Start.sound (hd : d.Start) : d.Sound :=
  ⟨⟨by rw [hd.blindedBalances]; exact List.nodup_nil, fun a => (hd.supply a).ge⟩, hd.solvent, hd.collected, hd.held⟩

theorem Start.backed (hd : d.Start) : d.Backed where
  hidden a := by
    rw [hd.blindedBalances, hd.supply]
    rfl
  ranged b hb := by
    rw [hd.blindedBalances] at hb
    exact absurd hb List.not_mem_nil

theorem Sound.public_le (hd : d.Sound) : d.market.balancesOf a + d.confidentialSupply a ≤ maxShareSupply := by
  have hheld : d.market.balancesOf a + d.confidentialSupply a + d.collected a ≤ maxShareSupply := hd.held a
  have hcollected := hd.collected a
  omega

theorem Sound.supply_le (hd : d.Sound) : d.confidentialSupply a ≤ maxShareSupply := by
  have hpublic := hd.public_le (a := a)
  have hbalances := hd.solvent.balancesOf_nonneg (a := a)
  omega

theorem Sound.effect (hd : d.Sound) (h : Effect d d' op) : d'.Sound where
  regular := h.regular
  solvent := h.solvent hd.solvent
  collected a := (hd.collected a).trans (h.collected a)
  held a := (h.held a).trans_le (hd.held a)

end Database

section
variable {bs : List (BlindedBalance K A)} {b : BlindedBalance K A}

theorem hidden_le_hiddenOf (hb : b ∈ bs) : b.commitment.hidden ≤ hiddenOf bs b.assetId := by
  have hnonneg : ∀ x ∈ bs.map fun c => if c.assetId = b.assetId then c.commitment.hidden else 0, 0 ≤ x := by
    intro x hx
    obtain ⟨c, -, rfl⟩ := List.mem_map.mp hx
    split_ifs
    · exact c.commitment.hidden_nonneg
    · exact le_refl 0
  have hle := List.single_le_sum hnonneg _ (List.mem_map_of_mem hb)
  rwa [if_pos rfl] at hle

end

/-! ### One operation -/

/-- The outputs hide what the inputs hide and what was public, if they do so in the group and no sum wraps around. -/
theorem Effect.sums_eq (h : Effect d d' op) (hd : d.Sound) (hbacked : d.Backed)
    (hcreated : (∀ c ∈ op.created, c.hidden ≤ maxShareSupply) ∨ op.created.length = 1 ∧ op.unblinded ≤ sumHidden op.spent + op.blinded) :
    sumHidden op.created = sumHidden op.spent + op.blinded - op.unblinded := by
  have hspent := h.spent
  rw [hbacked.hidden] at hspent
  have hspent₀ : 0 ≤ sumHidden op.spent := sumHidden_nonneg
  have hcreated₀ : 0 ≤ sumHidden op.created := sumHidden_nonneg
  have hsupply := h.supply op.asset
  rw [if_pos rfl] at hsupply
  have hbefore := hd.supply_le (a := op.asset)
  have hafter := (hd.effect h).supply_le (a := op.asset)
  have hbefore₀ := hd.regular.supply op.asset
  have hafter₀ := h.regular.supply op.asset
  have hmax : maxShareSupply = 10 ^ 18 := by decide
  have hzero : sumHidden op.spent + op.blinded - sumHidden op.created - op.unblinded = 0 := by
    rcases hcreated with hcreated | ⟨hone, hfee⟩
    · have hsum := sumHidden_lt h.short hcreated
      exact eq_of_dvd h.sums (by omega) (by omega)
    · obtain ⟨c, hc⟩ := List.length_eq_one_iff.mp hone
      have hlt : sumHidden op.created < groupOrder := by
        rw [hc, sumHidden_cons]
        exact (add_zero c.hidden).trans_lt c.hidden_lt
      refine Int.eq_zero_of_abs_lt_dvd h.sums (abs_lt.mpr ⟨by omega, ?_⟩)
      unfold groupOrder
      omega
  omega

theorem Effect.backed_iff (h : Effect d d' op) (hd : d.Sound) (hbacked : d.Backed) : d'.Backed ↔ op.Ranged := by
  constructor
  · intro hbacked'
    have hcreated : ∀ c ∈ op.created, c.hidden ≤ maxShareSupply := by
      intro c hc
      obtain ⟨b, hb, rfl⟩ := List.mem_map.mp (h.created c hc)
      exact (hbacked'.ranged b hb).2
    have hsums := h.sums_eq hd hbacked (.inl hcreated)
    have hcreated₀ : 0 ≤ sumHidden op.created := sumHidden_nonneg
    exact ⟨fun _ => hcreated, fun _ => by omega⟩
  · intro hranged
    have hcreated : (∀ c ∈ op.created, c.hidden ≤ maxShareSupply) ∨
        op.created.length = 1 ∧ op.unblinded ≤ sumHidden op.spent + op.blinded := by
      rcases lt_trichotomy op.created.length 1 with hlt | hone | hgt
      · rw [List.length_eq_zero_iff.mp (Nat.lt_one_iff.mp hlt)]
        exact .inl fun c hc => absurd hc List.not_mem_nil
      · exact .inr ⟨hone, hranged.single hone⟩
      · exact .inl (hranged.several hgt)
    have hsums := h.sums_eq hd hbacked hcreated
    have hhidden : ∀ a, hiddenOf d'.blindedBalances a = d'.confidentialSupply a := by
      intro a
      rw [h.hidden, h.supply, hbacked.hidden, hsums]
      split_ifs
      · ring
      · rfl
    refine ⟨hhidden, fun b hb => ⟨b.commitment.hidden_nonneg, (hidden_le_hiddenOf hb).trans ?_⟩⟩
    rw [hhidden]
    exact (hd.effect h).supply_le

/-! ### Withdrawals -/

/-- Live inputs that are not the same are all removed. -/
theorem removeInputs_total {inputs : List (BlindInput K A)} (hdistinct : (inputs.map (·.commitment)).Nodup)
    (hlive : ∀ i ∈ inputs, d.findBlinded i.commitment ≠ none) : ∃ d', inputs.foldlM (fun d i => d.removeBlinded i) d = .ok d' := by
  induction inputs generalizing d with
  | nil => exact ⟨d, rfl⟩
  | cons i inputs ih =>
    rw [List.map_cons, List.nodup_cons] at hdistinct
    have hremove : d.removeBlinded i = .ok { d with blindedBalances := d.blindedBalances.eraseP (·.commitment = i.commitment) } :=
      bind_eq_ok.mpr ⟨(), fcAssert_eq_ok.mpr (hlive i List.mem_cons_self), rfl⟩
    obtain ⟨d', h⟩ := ih (d := { d with blindedBalances := d.blindedBalances.eraseP (·.commitment = i.commitment) }) hdistinct.2 fun i' hi' => by
      have hne : i'.commitment ≠ i.commitment := fun heq => hdistinct.1 (heq ▸ List.mem_map_of_mem hi')
      rw [findBlinded_removed hne]
      exact hlive i' (List.mem_cons_of_mem _ hi')
    exact ⟨d', by rw [List.foldlM_cons, hremove, ok_bind, h]⟩

theorem changeConfidential_total {x : Int} (hknown : a < d.market.dynamicData.length) (hin : InInt64 (d.confidentialSupply a + x))
    (hnonneg : 0 ≤ d.confidentialSupply a + x) : ∃ d', d.changeConfidential ⟨x, a⟩ = .ok d' ∧ d'.market = d.market := by
  obtain ⟨y, hy⟩ := Market.Database.getDynamicData_total hknown
  exact ⟨_, bind_eq_ok.mpr ⟨y, hy, bind_eq_ok.mpr ⟨_, safe_eq_ok.mpr ⟨hin, rfl⟩, bind_eq_ok.mpr ⟨(), fcAssert_eq_ok.mpr hnonneg, rfl⟩⟩⟩, rfl⟩

/-- A balance gets an amount that is there in all. -/
theorem deposit_total (account : AccountId) {delta : Asset} (hd : d.market.Solvent) (hdelta : 0 ≤ delta.amount)
    (hbound : d.market.balancesOf delta.assetId + delta.amount ≤ maxShareSupply) : ∃ d', d.adjustBalance account delta = .ok d' := by
  have hle : d.market.getBalance account delta.assetId ≤ d.market.balancesOf delta.assetId := Market.Database.getBalance_le_balancesOf hd
  have hnonneg : 0 ≤ d.market.getBalance account delta.assetId := hd.getBalance_nonneg
  unfold maxShareSupply at hbound
  have hin : InInt64 (d.market.getBalance account delta.assetId + delta.amount) := ⟨by omega, by omega⟩
  obtain ⟨m, hm⟩ := Market.Database.adjustBalance_total hin (by omega)
  exact ⟨{ d with market := m }, by rw [Database.adjustBalance, hm]; rfl⟩

section
variable [DecidableEq (Authority K A)] [LinearOrder Commitment]

/-- A transfer of live balances by their owners that is valid by itself and whose fee is accepted -/
structure Database.Withdrawal (d : Database P K A) (o : TransferFromBlind K A) : Prop where
  valid : o.validate = .ok ()
  amounts : InInt64 o.amount.amount ∧ InInt64 o.fee.amount
  owned : ∀ i ∈ o.inputs, ∃ b, d.findBlinded i.commitment = some b ∧ b.assetId = o.fee.assetId ∧ b.owner = i.owner
  fee : ∃ paid d₁ d₂, d.market.prepareFee grapheneTempAccount o.fee = .ok paid ∧ paid.core ≥ d.currentFees (.transferFromBlind o) ∧
    d.convertFee paid = .ok d₁ ∧ d₁.payFee .transferFromBlind grapheneTempAccount paid.core = .ok d₂

theorem Database.Withdrawal.checked (hw : d.Withdrawal o) : o.inputs.forM (d.checkInput o.fee.assetId) = .ok () := by
  refine forM_eq_ok.mpr fun i hi => ?_
  obtain ⟨b, hb, hasset, howner⟩ := hw.owned i hi
  rw [Database.checkInput, hb]
  exact bind_eq_ok.mpr ⟨(), fcAssert_eq_ok.mpr hasset, fcAssert_eq_ok.mpr howner⟩

/-- The inputs of a withdrawal hide its amount and its fee. -/
theorem Database.Withdrawal.total (hw : d.Withdrawal o) (hd : d.Sound) (hbacked : d.Backed) :
    0 < o.amount.amount ∧ 0 ≤ o.fee.amount ∧ o.amount.assetId = o.fee.assetId ∧ (o.inputs.map (·.commitment)).IsChain (· < ·) ∧
      o.amount.amount + o.fee.amount ≤ d.confidentialSupply o.fee.assetId := by
  have hvalid := hw.valid
  simp only [TransferFromBlind.validate, bind_eq_ok, fcAssert_eq_ok, checkSorted_eq_ok] at hvalid
  obtain ⟨_, hamount, _, hfee, _, -, _, hasset, _, ⟨-, hsorted⟩, hsums⟩ := hvalid
  have hlive : ∀ i ∈ o.inputs, d.findBlinded i.commitment ≠ none := by
    intro i hi
    obtain ⟨b, hb, -⟩ := hw.owned i hi
    rw [hb]
    exact Option.some_ne_none b
  obtain ⟨d', h⟩ := removeInputs_total (nodup_of_sorted hsorted) hlive
  obtain ⟨-, -, hle, -⟩ := spend_inputs h rfl hd.regular hsorted hw.checked
  rw [hbacked.hidden] at hle
  have hbound : o.fee.amount + o.amount.amount < 2 ^ 64 := by
    have hle := hw.amounts.1.2
    have hle' := hw.amounts.2.2
    omega
  have hblind : (blind o.blindingFactor (toUInt64 (o.fee.amount + o.amount.amount))).hidden = o.fee.amount + o.amount.amount :=
    blind_amount (add_nonneg hfee hamount.le) hbound
  have hsums := hsums.1
  rw [sumHidden_cons, hblind] at hsums
  have hspent₀ : 0 ≤ sumHidden (o.inputs.map (·.commitment)) := sumHidden_nonneg
  have hsupply := hd.supply_le (a := o.fee.assetId)
  have hmax : maxShareSupply = 10 ^ 18 := by decide
  have hnil : sumHidden [] = 0 := rfl
  have hzero := eq_of_dvd hsums (by omega) (by omega)
  exact ⟨hamount, hfee, hasset, hsorted, by omega⟩

/-- A withdrawal of live balances is accepted. -/
theorem Database.Withdrawal.accepted [RangeProof P] (hw : d.Withdrawal o) (hd : d.Sound) (hbacked : d.Backed) :
    ∃ d', d.apply (.transferFromBlind o) = .ok d' := by
  obtain ⟨hamount, hfee, hasset, hsorted, htotal⟩ := hw.total hd hbacked
  obtain ⟨paid, d₁, d₂, hpaid, hcore, h₁, h₂⟩ := hw.fee
  obtain ⟨⟨x, hx⟩, hknown⟩ := Market.Database.prepareFee_known hpaid
  have hcharged := charged hpaid h₁ h₂
  have hpublic := hd.public_le (a := o.fee.assetId)
  have hmax : maxShareSupply = 10 ^ 18 := by decide
  have hfeeOf : o.fee.of o.fee.assetId = o.fee.amount := if_pos rfl
  have hamountOf : o.amount.of o.fee.assetId = o.amount.amount := if_pos hasset
  -- the fee goes to the temporary account, and the amount to the receiver
  have hbalances₂ := hcharged.grows.balances o.fee.assetId
  rw [Pi.zero_apply, add_zero] at hbalances₂
  obtain ⟨d₃, h₃⟩ := deposit_total grapheneTempAccount (hcharged.solvent hd.solvent) hfee (by omega)
  obtain ⟨hgrows₃, hsame₃⟩ := adjustBalance_grows h₃
  have hgrows := hcharged.grows.trans hgrows₃
  have hbalances₃ := hgrows.balances o.fee.assetId
  rw [Pi.add_apply, Pi.zero_apply, zero_add, hfeeOf] at hbalances₃
  obtain ⟨d₄, h₄⟩ := deposit_total o.«to» (hgrows.solvent hd.solvent) hamount.le (by rw [hasset]; omega)
  obtain ⟨hgrows₄, hsame₄⟩ := adjustBalance_grows h₄
  have hgrows' := hgrows.trans hgrows₄
  have hbalances₄ := hgrows'.balances o.fee.assetId
  rw [Pi.add_apply, Pi.add_apply, Pi.zero_apply, zero_add, hfeeOf, hamountOf] at hbalances₄
  -- the inputs are removed, and the supply covers them
  have hsame : d₄.blindedBalances = d.blindedBalances := by rw [hsame₄, hsame₃, hcharged.blindedBalances]
  have hlive : ∀ i ∈ o.inputs, d₄.findBlinded i.commitment ≠ none := by
    intro i hi
    obtain ⟨b, hb, -⟩ := hw.owned i hi
    rw [Database.findBlinded, hsame, ← Database.findBlinded, hb]
    exact Option.some_ne_none b
  obtain ⟨d₅, h₅⟩ := removeInputs_total (nodup_of_sorted hsorted) hlive
  obtain ⟨hspent, -⟩ := spend_inputs h₅ hsame hd.regular hsorted hw.checked
  have hgrows₅ := hgrows'.trans (.of_blinded hspent)
  have hsupply := hgrows₅.supply o.fee.assetId
  simp only [Pi.add_apply, Pi.zero_apply, add_zero] at hsupply
  have hsupplyLe := hd.supply_le (a := o.fee.assetId)
  have hknown₅ : o.fee.assetId < d₅.market.dynamicData.length := hgrows₅.known ▸ hknown
  have hsafe : InInt64 (o.amount.amount + o.fee.amount) := ⟨by omega, by omega⟩
  obtain ⟨d₆, h₆, hmarket₆⟩ := changeConfidential_total hknown₅ (x := -(o.amount.amount + o.fee.amount)) ⟨by omega, by omega⟩ (by omega)
  -- the temporary account has the fee
  have hsolvent₂ := hcharged.solvent hd.solvent
  have hmarket₅ : d₅.market = d₄.market := by rw [hspent]
  have hgot : o.fee.amount ≤ d₆.market.getBalance grapheneTempAccount o.fee.assetId := by
    rw [hmarket₆, hmarket₅]
    obtain ⟨m₃, hm₃, rfl⟩ := adjustBalance_eq_ok h₃
    obtain ⟨m₄, hm₄, rfl⟩ := adjustBalance_eq_ok h₄
    have hcredits := (Market.Database.adjustBalance_credits hm₃).trans (Market.Database.adjustBalance_credits hm₄)
    have hbefore : 0 ≤ d₂.market.getBalance grapheneTempAccount o.fee.assetId := hsolvent₂.getBalance_nonneg
    rw [hcredits, Pi.add_apply, Pi.add_apply, Market.credit_apply, Market.credit_apply, if_pos rfl, hfeeOf, hamountOf]
    split_ifs <;> omega
  have hall : d₆.market.getBalance grapheneTempAccount o.fee.assetId ≤ d₄.market.balancesOf o.fee.assetId := by
    rw [hmarket₆, hmarket₅]
    exact Market.Database.getBalance_le_balancesOf (hgrows'.solvent hd.solvent)
  have hin : InInt64 (d₆.market.getBalance grapheneTempAccount o.fee.neg.assetId + o.fee.neg.amount) := by
    have hneg : o.fee.neg = ⟨-o.fee.amount, o.fee.assetId⟩ := rfl
    rw [hneg]
    exact ⟨by dsimp only; omega, by dsimp only; omega⟩
  have hcovers : 0 ≤ d₆.market.getBalance grapheneTempAccount o.fee.neg.assetId + o.fee.neg.amount := by
    have hneg : o.fee.neg = ⟨-o.fee.amount, o.fee.assetId⟩ := rfl
    rw [hneg]
    dsimp only
    omega
  obtain ⟨m, hm⟩ := Market.Database.adjustBalance_total hin hcovers
  have hevaluated : o.doEvaluate d = .ok () := bind_eq_ok.mpr ⟨x, hx, hw.checked⟩
  have happlied : o.doApply d₂ = .ok d₆ := bind_eq_ok.mpr ⟨d₃, h₃, bind_eq_ok.mpr ⟨d₄, h₄, bind_eq_ok.mpr ⟨d₅, h₅,
    bind_eq_ok.mpr ⟨_, safe_eq_ok.mpr ⟨hsafe, rfl⟩, by rw [hasset, h₆]⟩⟩⟩⟩
  have hpayed : d₆.adjustBalance grapheneTempAccount o.fee.neg = .ok { d₆ with market := m } := by
    rw [Database.adjustBalance, hm]
    rfl
  exact ⟨_, bind_eq_ok.mpr ⟨(), hw.valid, bind_eq_ok.mpr ⟨paid, hpaid, bind_eq_ok.mpr ⟨(), fcAssert_eq_ok.mpr hcore,
    bind_eq_ok.mpr ⟨(), hevaluated, bind_eq_ok.mpr ⟨d₁, h₁, bind_eq_ok.mpr ⟨d₂, h₂, bind_eq_ok.mpr ⟨d₆, happlied, hpayed⟩⟩⟩⟩⟩⟩⟩⟩

/-! ### Runs -/

variable [RangeProof P]

/-- What the operations take from public balances, and what they give back to them and to the fees -/
def blindedOf (ops : List (Operation P K A)) (a : AssetId) : Int := (ops.map fun op => if op.asset = a then op.blinded else 0).sum

def unblindedOf (ops : List (Operation P K A)) (a : AssetId) : Int := (ops.map fun op => if op.asset = a then op.unblinded else 0).sum

def Database.applyAll (d : Database P K A) (ops : List (Operation P K A)) : Eval (Database P K A) := ops.foldlM (fun d op => d.apply op) d

/-- After the operations, the supply is covered, nothing is lost, no more has been moved back than was blinded, and the rest can be. -/
structure Covers (d : Database P K A) (ops : List (Operation P K A)) (d' : Database P K A) : Prop where
  backed : d'.Backed
  held : ∀ a, d'.held a = d.held a
  moved : ∀ a, unblindedOf ops a ≤ blindedOf ops a
  withdrawable : ∀ o, d'.Withdrawal o → ∃ d'', d'.apply (.transferFromBlind o) = .ok d''

theorem run_sound (hd : d.Sound) (h : d.applyAll ops = .ok d') : d'.Sound ∧ (∀ a, d'.held a = d.held a) ∧
    ∀ a, d'.confidentialSupply a + unblindedOf ops a = d.confidentialSupply a + blindedOf ops a := by
  induction ops generalizing d with
  | nil =>
    obtain rfl := Except.ok.inj h
    exact ⟨hd, fun _ => rfl, fun _ => rfl⟩
  | cons op ops ih =>
    rw [Database.applyAll, List.foldlM_cons, bind_eq_ok] at h
    obtain ⟨d₁, h₁, h⟩ := h
    have heffect := apply_effect h₁ hd.regular
    obtain ⟨hd', hheld, hsupply⟩ := ih (hd.effect heffect) h
    refine ⟨hd', fun a => (hheld a).trans (heffect.held a), fun a => ?_⟩
    have hrest := hsupply a
    rw [heffect.supply] at hrest
    unfold blindedOf unblindedOf at hrest ⊢
    rw [List.map_cons, List.sum_cons, List.map_cons, List.sum_cons]
    split_ifs at hrest ⊢ <;> omega

theorem run_backed (hd : d.Sound) (hbacked : d.Backed) (hops : ∀ op ∈ ops, op.Ranged) (h : d.applyAll ops = .ok d') :
    d'.Backed := by
  induction ops generalizing d with
  | nil =>
    obtain rfl := Except.ok.inj h
    exact hbacked
  | cons op ops ih =>
    rw [Database.applyAll, List.foldlM_cons, bind_eq_ok] at h
    obtain ⟨d₁, h₁, h⟩ := h
    rw [List.forall_mem_cons] at hops
    have heffect := apply_effect h₁ hd.regular
    exact ih (hd.effect heffect) ((heffect.backed_iff hd hbacked).mpr hops.1) hops.2 h

/-- The confidential supply is covered all along a run exactly where all its operations are ranged. -/
theorem confidentialSupply_covered_iff (hd : d.Start) (h : d.applyAll ops = .ok d') :
    (∀ before after d₁, ops = before ++ after → d.applyAll before = .ok d₁ → Covers d before d₁) ↔ ∀ op ∈ ops, op.Ranged := by
  constructor
  · intro hcovers op hop
    obtain ⟨before, after, rfl⟩ := List.append_of_mem hop
    rw [Database.applyAll, List.foldlM_append, bind_eq_ok] at h
    obtain ⟨d₁, h₁, h⟩ := h
    rw [List.foldlM_cons, bind_eq_ok] at h
    obtain ⟨d₂, h₂, -⟩ := h
    have hrun : d.applyAll (before ++ [op]) = .ok d₂ := by
      rw [Database.applyAll, List.foldlM_append, h₁, ok_bind, List.foldlM_cons, h₂]
      rfl
    have hbacked₁ := (hcovers before (op :: after) d₁ rfl h₁).backed
    have hbacked₂ := (hcovers (before ++ [op]) after d₂ (by rw [List.append_assoc]; rfl) hrun).backed
    obtain ⟨hsound₁, -⟩ := run_sound hd.sound h₁
    exact ((apply_effect h₂ hsound₁.regular).backed_iff hsound₁ hbacked₁).mp hbacked₂
  · intro hops before after d₁ heq h₁
    have hbefore : ∀ op ∈ before, op.Ranged := fun op hop => hops op (heq ▸ List.mem_append_left after hop)
    obtain ⟨hsound, hheld, hsupply⟩ := run_sound hd.sound h₁
    have hbacked := run_backed hd.sound hd.backed hbefore h₁
    refine ⟨hbacked, hheld, fun a => ?_, fun o hw => hw.accepted hsound hbacked⟩
    have hmoved := hsupply a
    have hnonneg := hsound.regular.supply a
    rw [hd.supply] at hmoved
    omega

end

/-! ### Concrete runs -/

theorem commitment_injective : Function.Injective fun c : Commitment => toLex (c.value, c.blinding) := by
  rintro ⟨v, b⟩ ⟨v', b'⟩ h
  have hpair : (v, b) = (v', b') := toLex.injective h
  obtain ⟨rfl, rfl⟩ := Prod.mk.inj hpair
  rfl

instance : LinearOrder Commitment := LinearOrder.lift' (fun c => toLex (c.value, c.blinding)) commitment_injective

/-- A proof that only states the greatest value -/
instance : RangeProof Nat := ⟨some⟩

deriving instance DecidableEq for FlatMap, Authority

def anyone : Authority Nat Nat := ⟨0, ∅, ∅, ∅⟩

def sample : Database Nat Nat Nat where
  market := { Market.Database.fresh with accounts := List.replicate 5 ⟨none, [], []⟩, statistics := List.replicate 5 {} }
  blindedBalances := []
  confidentialSupply _ := 0
  fbaAccumulators _ := ⟨true, 0⟩
  currentFees _ := 0

/-- An output that is said to hide at most a hundred -/
def output (value blinding : Nat) : BlindOutput Nat Nat Nat := ⟨blind blinding value, 100, anyone⟩

def input (value blinding : Nat) : BlindInput Nat Nat := ⟨blind blinding value, anyone⟩

/-- Ten are blinded in two balances, which are joined for a fee of one and moved back. -/
def roundTrip : List (Operation Nat Nat Nat) :=
  [.transferToBlind ⟨⟨0, 0⟩, ⟨10, 0⟩, 0, 3, [output 4 1, output 6 2]⟩,
   .blindTransfer ⟨⟨1, 0⟩, [input 4 1, input 6 2], [output 9 3]⟩,
   .transferFromBlind ⟨⟨0, 0⟩, ⟨9, 0⟩, 1, 3, [input 9 3]⟩]

/-- One is blinded in two balances, which hide ten and what makes up for it in the group. -/
def inflation : List (Operation Nat Nat Nat) :=
  [.transferToBlind ⟨⟨0, 0⟩, ⟨1, 0⟩, 0, 0, [output 10 1, output (groupOrder - 9) (groupOrder - 1)]⟩]

theorem sample_start : sample.Start where
  blindedBalances := rfl
  supply _ := rfl
  solvent := ⟨by decide, by decide⟩
  collected a := by
    rcases a with _ | _ | _ | a
    · decide
    · decide
    · decide
    · exact le_refl 0
  held a := by
    rcases a with _ | _ | _ | a
    · decide
    · decide
    · decide
    · exact (by decide : (0 : Int) ≤ maxShareSupply)

theorem confidentialSupply_covered_roundTrip : ∃ d', sample.applyAll roundTrip = .ok d' ∧ Covers sample roundTrip d' := by
  have hok : (sample.applyAll roundTrip).toOption.isSome = true := by decide +kernel
  cases h : sample.applyAll roundTrip with
  | ok d' => exact ⟨d', rfl, (confidentialSupply_covered_iff sample_start h).mpr (by decide +kernel) roundTrip [] d' (List.append_nil _).symm h⟩
  | error e =>
    rw [h] at hok
    cases hok

/-- The range proofs of two outputs are parsed, but they are not those of what the outputs hide. -/
theorem confidentialSupply_inflated : ¬ ∀ (d : Database Nat Nat Nat) ops d', d.Start → d.applyAll ops = .ok d' → Covers d ops d' := by
  intro h
  have hinflated : (sample.applyAll inflation).toOption.map (fun d => decide (hiddenOf d.blindedBalances 0 = d.confidentialSupply 0)) =
      some false := by decide +kernel
  cases hrun : sample.applyAll inflation with
  | ok d' =>
    rw [hrun] at hinflated
    have hne := of_decide_eq_false (Option.some.inj hinflated)
    exact hne ((h sample inflation d' sample_start hrun).backed.hidden 0)
  | error e =>
    rw [hrun] at hinflated
    cases hinflated

end Blind

end Khc
