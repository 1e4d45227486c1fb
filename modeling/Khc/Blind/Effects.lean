import Khc.Blind.Hidden
import Khc.Market.Accounts
import Khc.Market.Operations

/-! # What confidential transfers do to balances, the supply and the blinded balances -/

/-! Public balances, the confidential supply and the fees that are collected: what the fee of an operation and a payment do to them. -/

namespace Khc

open Lib
open Chain (Asset AccountId AssetId InInt64 maxShareSupply)
open Market (Eval PaidFee fcAssert_eq_ok safe_eq_ok put put_self)

namespace Market.Database
variable {d d' : Market.Database} {F : Shift} {account : AccountId} {delta fee : Asset} {a : AssetId} {core : Int}

theorem Moves.liquid (m : Moves d d' F) : d'.liquid a = d.liquid a + F .total a := by
  have h := m.amounts .total a
  simp only [amount, total, m.limitOrders] at h
  omega

theorem adjustBalance_same (h : d.adjustBalance account delta = .ok d') : d' = { d with balances := d'.balances } := by
  unfold adjustBalance at h
  split at h
  · obtain rfl := Except.ok.inj h
    rfl
  · split at h
    · simp only [bind_eq_ok, fcAssert_eq_ok, pure_eq_ok] at h
      obtain ⟨-, -, rfl⟩ := h
      rfl
    · simp only [bind_eq_ok, fcAssert_eq_ok, pure_eq_ok] at h
      obtain ⟨-, -, _, -, rfl⟩ := h
      rfl

theorem adjustBalance_balancesOf (h : d.adjustBalance account delta = .ok d') : d'.balancesOf a = d.balancesOf a + delta.of a := by
  have hliquid := (adjustBalance_moves h).liquid (a := a)
  have hfees := adjustBalance_sameFees h
  simp only [liquid, hfees.accumulated, hfees.pools, hfees.pending, put_self] at hliquid
  omega

/-- A payment within the range and from enough balance is made. -/
theorem adjustBalance_total (h : InInt64 (d.getBalance account delta.assetId + delta.amount))
    (henough : 0 ≤ d.getBalance account delta.assetId + delta.amount) : ∃ d', d.adjustBalance account delta = .ok d' := by
  unfold adjustBalance
  split
  · exact ⟨d, rfl⟩
  · rename_i hzero
    unfold getBalance at h henough
    split
    · rename_i hnone
      rw [hnone] at henough
      have hpos : delta.amount > 0 := lt_of_le_of_ne (by simpa using henough) (Ne.symm hzero)
      exact ⟨_, bind_eq_ok.mpr ⟨(), fcAssert_eq_ok.mpr hpos, rfl⟩⟩
    · rename_i b hb
      rw [hb] at h henough
      exact ⟨_, bind_eq_ok.mpr ⟨(), fcAssert_eq_ok.mpr fun _ => by simp at henough; omega, bind_eq_ok.mpr ⟨_, safe_eq_ok.mpr ⟨h, rfl⟩, rfl⟩⟩⟩

theorem accumulateFees_same (h : d.accumulateFees fee = .ok d') :
    d'.balances = d.balances ∧ d'.dynamicData.length = d.dynamicData.length := by
  obtain ⟨x, x', -, -, rfl⟩ := modifyDynamicData_eq_ok h
  exact ⟨rfl, List.length_set⟩

theorem fundFeePool_same (h : d.fundFeePool a core = .ok d') : d'.balances = d.balances ∧ d'.dynamicData.length = d.dynamicData.length := by
  obtain ⟨x, x', -, -, rfl⟩ := modifyDynamicData_eq_ok h
  exact ⟨rfl, List.length_set⟩

theorem payFee_same (h : d.payFee account core = .ok d') : d'.balances = d.balances ∧ d'.dynamicData = d.dynamicData := by
  obtain ⟨s, s', -, -, rfl⟩ := modifyStatistics_eq_ok h
  exact ⟨rfl, rfl⟩

end Market.Database

namespace Blind

variable {P K A : Type} [LinearOrder K] [LinearOrder A] {d d' d₁ d₂ : Database P K A} {id : Fees.FbaAccumulatorId} {payer account : AccountId}
  {fee delta : Asset} {paid : PaidFee} {a : AssetId}

def sumFba (fbas : Fees.FbaAccumulatorId → FbaAccumulator) : Int :=
  (fbas .transferToBlind).accumulatedFbaFees + (fbas .blindTransfer).accumulatedFbaFees + (fbas .transferFromBlind).accumulatedFbaFees

theorem sumFba_update {fbas : Fees.FbaAccumulatorId → FbaAccumulator} {fba : FbaAccumulator} :
    sumFba (Function.update fbas id fba) = sumFba fbas + (fba.accumulatedFbaFees - (fbas id).accumulatedFbaFees) := by
  unfold sumFba
  cases id <;> simp <;> ring

namespace Database
variable (d : Database P K A)

/-- Fees that are with the asset, in fee pools, with accounts and in the accumulators -/
def collected (a : AssetId) : Int :=
  d.market.accumulatedFees a + Asset.of ⟨d.market.feePools + d.market.pendingFees + sumFba d.fbaAccumulators, 0⟩ a

/-- Balances of accounts, the confidential supply and the fees that are collected -/
def held (a : AssetId) : Int := d.market.balancesOf a + d.confidentialSupply a + d.collected a

end Database

theorem liquid_add_fba : d.market.liquid a + Asset.of ⟨sumFba d.fbaAccumulators, 0⟩ a = d.market.balancesOf a + d.collected a := by
  rw [Market.Database.liquid, Database.collected, Asset.of_add (n := sumFba d.fbaAccumulators)]
  ring

/-! ### Fees -/

/-- The fee is collected, before anybody has paid it. -/
structure Charged (d d' : Database P K A) (fee : Asset) : Prop where
  same : d' = { d with market := d'.market, fbaAccumulators := d'.fbaAccumulators }
  balances : d'.market.balances = d.market.balances
  known : d'.market.dynamicData.length = d.market.dynamicData.length
  solvent : d.market.Solvent → d'.market.Solvent
  collected : ∀ a, d'.collected a = d.collected a + fee.of a

theorem convertFee_charged (h : d.convertFee paid = .ok d') :
    d' = { d with market := d'.market } ∧ d'.market.balances = d.market.balances ∧
      d'.market.dynamicData.length = d.market.dynamicData.length ∧ (d.market.Solvent → d'.market.Solvent) ∧
      ∀ a, d'.market.liquid a = d.market.liquid a + if paid.fee.assetId = 0 then 0 else paid.fee.of a - Asset.of ⟨paid.core, 0⟩ a := by
  unfold Database.convertFee at h
  split at h
  · obtain rfl := Except.ok.inj h
    exact ⟨rfl, rfl, rfl, fun hd => hd, fun a => by rw [if_pos ‹_›, add_zero]⟩
  · rename_i hcore
    simp only [bind_eq_ok, pure_eq_ok] at h
    obtain ⟨m₁, h₁, m₂, h₂, rfl⟩ := h
    obtain ⟨hbalances, hknown⟩ := Market.Database.accumulateFees_same h₁
    obtain ⟨hbalances', hknown'⟩ := Market.Database.fundFeePool_same h₂
    have m := (Market.Database.accumulateFees_moves h₁ (.inl paid.fee_nonneg)).trans (Market.Database.fundFeePool_moves h₂)
    refine ⟨rfl, hbalances'.trans hbalances, hknown'.trans hknown, m.solvent, fun a => ?_⟩
    have hneg : Asset.of ⟨-paid.core, 0⟩ a = -Asset.of ⟨paid.core, 0⟩ a := Asset.of_neg (x := ⟨paid.core, 0⟩)
    rw [m.liquid, Pi.add_apply, Pi.add_apply, put_self, put_self, hneg, if_neg hcore, sub_eq_add_neg]

theorem payFee_charged {core : Int} (h : d.payFee id payer core = .ok d') :
    d' = { d with market := d'.market, fbaAccumulators := d'.fbaAccumulators } ∧ d'.market.balances = d.market.balances ∧
      d'.market.dynamicData.length = d.market.dynamicData.length ∧ (d.market.Solvent → d'.market.Solvent) ∧
      ∀ a, d'.collected a = d.collected a + Asset.of ⟨core, 0⟩ a := by
  unfold Database.payFee at h
  dsimp only at h
  split at h
  · simp only [bind_eq_ok, safe_eq_ok, pure_eq_ok] at h
    obtain ⟨_, ⟨-, rfl⟩, rfl⟩ := h
    refine ⟨rfl, rfl, rfl, fun hd => hd, fun a => ?_⟩
    rw [Database.collected, Database.collected, sumFba_update, add_sub_cancel_left, ← add_assoc, Asset.of_add (n := core), ← add_assoc]
  · simp only [bind_eq_ok, pure_eq_ok] at h
    obtain ⟨m, hm, rfl⟩ := h
    obtain ⟨hbalances, hdynamic⟩ := Market.Database.payFee_same hm
    have hmoves := Market.Database.payFee_moves hm
    refine ⟨rfl, hbalances, by rw [hdynamic], hmoves.solvent, fun a => ?_⟩
    have hliquid := hmoves.liquid (a := a)
    have hpublic : m.balancesOf a = d.market.balancesOf a := by rw [Market.Database.balancesOf, hbalances, Market.Database.balancesOf]
    rw [put_self] at hliquid
    have hbefore := liquid_add_fba (d := d) (a := a)
    have hafter := liquid_add_fba (d := { d with market := m }) (a := a)
    dsimp only at hafter
    omega

theorem charged (hpaid : d.market.prepareFee payer fee = .ok paid) (h₁ : d.convertFee paid = .ok d₁)
    (h₂ : d₁.payFee id payer paid.core = .ok d₂) : Charged d d₂ fee := by
  obtain ⟨rfl, hcore⟩ := Market.Database.prepareFee_eq_ok hpaid
  obtain ⟨hsame, hbalances, hknown, hsolvent, hliquid⟩ := convertFee_charged h₁
  obtain ⟨hsame', hbalances', hknown', hsolvent', hcollected⟩ := payFee_charged h₂
  have hfba : d₁.fbaAccumulators = d.fbaAccumulators := by rw [hsame]
  have hpublic : d₁.market.balancesOf = d.market.balancesOf := by
    funext a
    rw [Market.Database.balancesOf, hbalances, Market.Database.balancesOf]
  refine ⟨by rw [hsame', hsame], hbalances'.trans hbalances, hknown'.trans hknown, fun hd => hsolvent' (hsolvent hd), fun a => ?_⟩
  have hbefore := liquid_add_fba (d := d) (a := a)
  have hafter := liquid_add_fba (d := d₁) (a := a)
  rw [hliquid, hfba, hpublic] at hafter
  rw [hcollected]
  split at hafter
  · rename_i hzero
    rw [hcore hzero, Asset.of_mk hzero]
    omega
  · omega

end Blind

end Khc

/-! What an accepted operation does: to balances, the confidential supply and fees, and to the blinded balances. -/

namespace Khc.Blind

open Lib
open Auth (Authority)
open Chain (Asset AccountId AssetId InInt64 maxShareSupply)
open Fees (FbaAccumulatorId)
open Market (Eval PaidFee fcAssert_eq_ok safe_eq_ok)

variable {P K A : Type} [LinearOrder K] [LinearOrder A] {d d' d'' d₁ d₂ : Database P K A} {op : Operation P K A}
  {account : AccountId} {fee delta : Asset} {a q : AssetId}

/-! ### What an operation says -/

namespace Operation

/-- The asset whose blinded balances it is about -/
def asset : Operation P K A → AssetId
  | .transferToBlind o => o.amount.assetId
  | .transferFromBlind o => o.fee.assetId
  | .blindTransfer o => o.fee.assetId

def spent : Operation P K A → List Commitment
  | .transferToBlind _ => []
  | .transferFromBlind o => o.inputs.map (·.commitment)
  | .blindTransfer o => o.inputs.map (·.commitment)

def created : Operation P K A → List Commitment
  | .transferToBlind o => o.outputs.map (·.commitment)
  | .transferFromBlind _ => []
  | .blindTransfer o => o.outputs.map (·.commitment)

/-- What it takes from public balances, and what it gives to them and to the fees -/
def blinded : Operation P K A → Int
  | .transferToBlind o => o.amount.amount
  | .transferFromBlind _ => 0
  | .blindTransfer _ => 0

def unblinded : Operation P K A → Int
  | .transferToBlind _ => 0
  | .transferFromBlind o => o.amount.amount + o.fee.amount
  | .blindTransfer o => o.fee.amount

end Operation

/-! ### Sums of funds -/

/-- Balances, the confidential supply and the fees grow. -/
structure Grows (d d' : Database P K A) (balances supply collected : AssetId → Int) : Prop where
  solvent : d.market.Solvent → d'.market.Solvent
  known : d'.market.dynamicData.length = d.market.dynamicData.length
  balances : ∀ a, d'.market.balancesOf a = d.market.balancesOf a + balances a
  supply : ∀ a, d'.confidentialSupply a = d.confidentialSupply a + supply a
  collected : ∀ a, d'.collected a = d.collected a + collected a

section
variable {b b' s s' c c' : AssetId → Int}

theorem Grows.trans (h : Grows d d' b s c) (h' : Grows d' d'' b' s' c') : Grows d d'' (b + b') (s + s') (c + c') where
  solvent hd := h'.solvent (h.solvent hd)
  known := h'.known.trans h.known
  balances a := by rw [h'.balances, h.balances, Pi.add_apply, add_assoc]
  supply a := by rw [h'.supply, h.supply, Pi.add_apply, add_assoc]
  collected a := by rw [h'.collected, h.collected, Pi.add_apply, add_assoc]

theorem Grows.of_blinded {bs : List (BlindedBalance K A)} (h : d' = { d with blindedBalances := bs }) : Grows d d' 0 0 0 := by
  subst h
  exact ⟨fun hd => hd, rfl, fun a => (add_zero _).symm, fun a => (add_zero _).symm, fun a => (add_zero _).symm⟩

theorem Grows.held (h : Grows d d' b s c) : d'.held a = d.held a + (b a + s a + c a) := by
  rw [Database.held, h.balances, h.supply, h.collected, Database.held]
  ring

end

theorem Charged.grows (h : Charged d d' fee) : Grows d d' 0 0 fee.of where
  solvent := h.solvent
  known := h.known
  balances a := by rw [Market.Database.balancesOf, h.balances, Pi.zero_apply, add_zero, Market.Database.balancesOf]
  supply a := by rw [h.same, Pi.zero_apply, add_zero]
  collected := h.collected

theorem Charged.blindedBalances (h : Charged d d' fee) : d'.blindedBalances = d.blindedBalances := by rw [h.same]

theorem adjustBalance_eq_ok (h : d.adjustBalance account delta = .ok d') : ∃ m, d.market.adjustBalance account delta = .ok m ∧
    d' = { d with market := m } := by
  simp only [Database.adjustBalance, bind_eq_ok, pure_eq_ok] at h
  obtain ⟨m, hm, rfl⟩ := h
  exact ⟨m, hm, rfl⟩

theorem adjustBalance_grows (h : d.adjustBalance account delta = .ok d') :
    Grows d d' delta.of 0 0 ∧ d'.blindedBalances = d.blindedBalances := by
  obtain ⟨m, hm, rfl⟩ := adjustBalance_eq_ok h
  have hfees := Market.Database.adjustBalance_sameFees hm
  refine ⟨⟨(Market.Database.adjustBalance_moves hm).solvent, ?_, fun a => Market.Database.adjustBalance_balancesOf hm,
    fun a => (add_zero _).symm, fun a => ?_⟩, rfl⟩
  · rw [Market.Database.adjustBalance_same hm]
  · rw [Database.collected, hfees.accumulated, hfees.pools, hfees.pending, Pi.zero_apply, add_zero, Database.collected]

theorem changeConfidential_grows (h : d.changeConfidential delta = .ok d') :
    Grows d d' 0 delta.of 0 ∧ d'.blindedBalances = d.blindedBalances ∧ 0 ≤ d'.confidentialSupply delta.assetId := by
  obtain ⟨-, hnonneg, rfl⟩ := changeConfidential_eq_ok h
  refine ⟨⟨fun hd => hd, rfl, fun a => (add_zero _).symm, fun a => ?_, fun a => (add_zero _).symm⟩, rfl, ?_⟩
  · dsimp only
    rw [Function.update_apply, Asset.of]
    by_cases ha : a = delta.assetId
    · rw [if_pos ha, if_pos ha.symm, ha]
    · rw [if_neg ha, if_neg fun heq => ha heq.symm, add_zero]
  · dsimp only
    rw [Function.update_self]
    exact hnonneg

/-! ### Checks -/

section
variable [LinearOrder Commitment] {cs : List Commitment} {u : Unit}

theorem checkSorted_eq_ok : checkSorted cs = .ok u ↔ cs.length < 2 ^ 32 ∧ cs.IsChain (· < ·) := by
  simp only [checkSorted, bind_eq_ok, fcAssert_eq_ok]
  constructor
  · rintro ⟨_, hlen, hchain⟩
    exact ⟨hlen, hchain⟩
  · rintro ⟨hlen, hchain⟩
    exact ⟨(), hlen, hchain⟩

theorem nodup_of_sorted (h : cs.IsChain (· < ·)) : cs.Nodup := h.pairwise.imp fun hlt => ne_of_lt hlt

end

variable [DecidableEq (Authority K A)]

/-- All inputs are of the asset. -/
theorem checkInput_asset {i : BlindInput K A} (h : d.checkInput q i = .ok ()) (b : BlindedBalance K A) (hb : d.findBlinded i.commitment = some b) :
    b.assetId = q := by
  rw [Database.checkInput, hb] at h
  simp only [bind_eq_ok, fcAssert_eq_ok] at h
  obtain ⟨_, hasset, -⟩ := h
  exact hasset

/-! ### The effect of an operation -/

namespace Database

/-- No commitment is there twice, and the supplies are none below zero. -/
structure Regular (d : Database P K A) : Prop where
  nodup : (d.blindedBalances.map (·.commitment)).Nodup
  supply : ∀ a, 0 ≤ d.confidentialSupply a

end Database

/-- What is held of an asset stays the same; the inputs are live and go, the outputs are new. -/
structure Effect (d d' : Database P K A) (op : Operation P K A) : Prop where
  solvent : d.market.Solvent → d'.market.Solvent
  held : ∀ a, d'.held a = d.held a
  collected : ∀ a, d.collected a ≤ d'.collected a
  supply : ∀ a, d'.confidentialSupply a = d.confidentialSupply a + if op.asset = a then op.blinded - op.unblinded else 0
  regular : d'.Regular
  hidden : ∀ a, hiddenOf d'.blindedBalances a =
    hiddenOf d.blindedBalances a + if op.asset = a then sumHidden op.created - sumHidden op.spent else 0
  spent : sumHidden op.spent ≤ hiddenOf d.blindedBalances op.asset
  created : ∀ c ∈ op.created, c ∈ d'.blindedBalances.map (·.commitment)
  short : op.created.length < 2 ^ 32
  amounts : 0 ≤ op.blinded ∧ 0 ≤ op.unblinded
  sums : (groupOrder : Int) ∣ sumHidden op.spent + op.blinded - sumHidden op.created - op.unblinded

omit [DecidableEq (Authority K A)] in
theorem startEvaluate_eq_ok {payer : AccountId} {id : FbaAccumulatorId} {doEvaluate : Eval Unit}
    {doApply : Database P K A → Eval (Database P K A)} (h : d.startEvaluate op payer fee id doEvaluate doApply = .ok d') : ∃ d₁ d₂, 0 ≤ fee.amount ∧
    doEvaluate = .ok () ∧ Charged d d₁ fee ∧ doApply d₁ = .ok d₂ ∧ d₂.adjustBalance payer fee.neg = .ok d' := by
  simp only [Database.startEvaluate, bind_eq_ok, fcAssert_eq_ok] at h
  obtain ⟨paid, hpaid, _, hfee, _, heval, d₁, h₁, d₂, h₂, d₃, h₃, h⟩ := h
  obtain ⟨rfl, -⟩ := Market.Database.prepareFee_eq_ok hpaid
  exact ⟨d₂, d₃, paid.fee_nonneg, heval, charged hpaid h₁ h₂, h₃, h⟩

omit [DecidableEq (Authority K A)] in
theorem supply_step {x : Int} (hd : d.Regular) (h : ∀ a, d'.confidentialSupply a = d.confidentialSupply a + if q = a then x else 0)
    (hq : 0 ≤ d'.confidentialSupply q) : ∀ a, 0 ≤ d'.confidentialSupply a := by
  intro a
  by_cases ha : q = a
  · exact ha ▸ hq
  · rw [h, if_neg ha, add_zero]
    exact hd.supply a

section
variable [LinearOrder Commitment] [RangeProof P]

theorem transferToBlind_effect {o : TransferToBlind P K A} (h : d.apply (.transferToBlind o) = .ok d') (hd : d.Regular) :
    Effect d d' (.transferToBlind o) := by
  simp only [Database.apply, bind_eq_ok] at h
  obtain ⟨_, hvalid, h⟩ := h
  simp only [TransferToBlind.validate, bind_eq_ok, fcAssert_eq_ok, checkSorted_eq_ok] at hvalid
  obtain ⟨_, -, _, hamount, _, ⟨hshort, -⟩, _, -, _, -, _, hsums, -⟩ := hvalid
  obtain ⟨d₁, d₄, hfee, -, hcharged, happly, hpay⟩ := startEvaluate_eq_ok h
  simp only [TransferToBlind.doApply, bind_eq_ok] at happly
  obtain ⟨d₂, h₂, d₃, h₃, h₄⟩ := happly
  obtain ⟨hgrows₂, hsame₂⟩ := adjustBalance_grows h₂
  obtain ⟨hgrows₃, hsame₃, hnonneg⟩ := changeConfidential_grows h₃
  obtain ⟨hin, -, -⟩ := changeConfidential_eq_ok h₃
  obtain ⟨hgrows₅, hsame₅⟩ := adjustBalance_grows hpay
  have hlive : d₃.blindedBalances = d.blindedBalances := by rw [hsame₃, hsame₂, hcharged.blindedBalances]
  obtain ⟨hcreated, hnodup, -, hmem, hhidden⟩ := createOutputs h₄ (hlive ▸ hd.nodup)
  have hgrows := (((hcharged.grows.trans hgrows₂).trans hgrows₃).trans (.of_blinded hcreated)).trans hgrows₅
  have hsupply : ∀ a, d'.confidentialSupply a = d.confidentialSupply a + if o.amount.assetId = a then o.amount.amount - 0 else 0 := by
    intro a
    rw [hgrows.supply]
    simp only [Pi.add_apply, Pi.zero_apply, Asset.of, zero_add, add_zero, sub_zero]
  have hbefore : d₂.confidentialSupply o.amount.assetId = d.confidentialSupply o.amount.assetId := by
    rw [(hcharged.grows.trans hgrows₂).supply, Pi.add_apply, Pi.zero_apply, add_zero, add_zero]
  have hbound : o.amount.amount < 2 ^ 64 := by
    have hpos := hd.supply o.amount.assetId
    have hle := hin.2
    rw [hbefore] at hle
    omega
  refine ⟨hgrows.solvent, fun a => ?_, fun a => ?_, hsupply, ⟨hsame₅ ▸ hnodup, supply_step hd hsupply ?_⟩, fun a => ?_, hiddenOf_nonneg,
    fun c hc => ?_, hshort, ⟨hamount.le, le_refl 0⟩, ?_⟩
  · rw [hgrows.held]
    simp only [Pi.add_apply, Pi.zero_apply, Asset.of_neg]
    ring
  · rw [hgrows.collected]
    have hcollected := Asset.of_nonneg (a := a) hfee
    simpa only [Pi.add_apply, Pi.zero_apply, add_zero, le_add_iff_nonneg_right] using hcollected
  · rw [hsupply, if_pos rfl, sub_zero]
    exact add_nonneg (hd.supply _) hamount.le
  · rw [hsame₅, hhidden, hlive]
    simp only [Operation.asset, Operation.created, Operation.spent, sumHidden, List.map_nil, List.sum_nil, sub_zero]
  · rw [hsame₅, hmem]
    exact .inr hc
  · have hblind : (blind o.blindingFactor (toUInt64 o.amount.amount)).hidden = o.amount.amount := blind_amount hamount.le hbound
    have hsums := hsums.1
    simp only [sumHidden_cons, hblind] at hsums
    simpa [Operation.spent, Operation.blinded, Operation.created, Operation.unblinded, sumHidden] using hsums

omit [RangeProof P] in
/-- The inputs of an operation are taken away. -/
theorem spend_inputs {inputs : List (BlindInput K A)} (h : inputs.foldlM (fun d i => d.removeBlinded i) d₁ = .ok d₂)
    (hlive : d₁.blindedBalances = d.blindedBalances) (hd : d.Regular) (hsorted : (inputs.map (·.commitment)).IsChain (· < ·))
    (hasset : inputs.forM (d.checkInput q) = .ok ()) :
    d₂ = { d₁ with blindedBalances := d₂.blindedBalances } ∧ (d₂.blindedBalances.map (·.commitment)).Nodup ∧
      sumHidden (inputs.map (·.commitment)) ≤ hiddenOf d.blindedBalances q ∧
      ∀ a, hiddenOf d₂.blindedBalances a =
        hiddenOf d.blindedBalances a - if q = a then sumHidden (inputs.map (·.commitment)) else 0 := by
  have hq : ∀ i ∈ inputs, ∀ b, d₁.findBlinded i.commitment = some b → b.assetId = q := by
    intro i hi b hb
    rw [Database.findBlinded, hlive] at hb
    exact checkInput_asset (forM_eq_ok.mp hasset i hi) b hb
  obtain ⟨hsame, hsub, -, hhidden⟩ := removeInputs h (nodup_of_sorted hsorted) hq
  rw [hlive] at hsub hhidden
  refine ⟨hsame, hd.nodup.sublist (hsub.map _), ?_, hhidden⟩
  have hrest : 0 ≤ hiddenOf d₂.blindedBalances q := hiddenOf_nonneg
  rw [hhidden, if_pos rfl] at hrest
  omega

theorem transferFromBlind_effect {o : TransferFromBlind K A} (h : d.apply (.transferFromBlind o) = .ok d') (hd : d.Regular) :
    Effect d d' (.transferFromBlind o) := by
  simp only [Database.apply, bind_eq_ok] at h
  obtain ⟨_, hvalid, h⟩ := h
  simp only [TransferFromBlind.validate, bind_eq_ok, fcAssert_eq_ok, checkSorted_eq_ok] at hvalid
  obtain ⟨_, hamount, _, -, _, -, _, hsameAsset, _, ⟨-, hsorted⟩, hsums⟩ := hvalid
  obtain ⟨d₁, d₅, hfee, heval, hcharged, happly, hpay⟩ := startEvaluate_eq_ok h
  simp only [TransferFromBlind.doEvaluate, bind_eq_ok] at heval
  obtain ⟨_, -, hasset⟩ := heval
  simp only [TransferFromBlind.doApply, bind_eq_ok, safe_eq_ok] at happly
  obtain ⟨d₂, h₂, d₃, h₃, d₄, h₄, spent, ⟨hin, rfl⟩, h₅⟩ := happly
  obtain ⟨hgrows₂, hsame₂⟩ := adjustBalance_grows h₂
  obtain ⟨hgrows₃, hsame₃⟩ := adjustBalance_grows h₃
  obtain ⟨hgrows₅, hsame₅, hnonneg⟩ := changeConfidential_grows h₅
  obtain ⟨hgrows₆, hsame₆⟩ := adjustBalance_grows hpay
  have hlive : d₃.blindedBalances = d.blindedBalances := by rw [hsame₃, hsame₂, hcharged.blindedBalances]
  obtain ⟨hspent, hnodup, hle, hhidden⟩ := spend_inputs h₄ hlive hd hsorted hasset
  have hgrows := ((((hcharged.grows.trans hgrows₂).trans hgrows₃).trans (.of_blinded hspent)).trans hgrows₅).trans hgrows₆
  have hsupply : ∀ a, d'.confidentialSupply a =
      d.confidentialSupply a + if o.fee.assetId = a then 0 - (o.amount.amount + o.fee.amount) else 0 := by
    intro a
    rw [hgrows.supply, ← hsameAsset]
    simp only [Pi.add_apply, Pi.zero_apply, Asset.of, zero_add, add_zero, zero_sub]
  refine ⟨hgrows.solvent, fun a => ?_, fun a => ?_, hsupply, ⟨?_, supply_step hd hsupply ?_⟩, fun a => ?_, hle, fun c hc => absurd hc List.not_mem_nil,
    Nat.pow_pos (n := 32) (by decide), ⟨le_refl 0, add_nonneg hamount.le hfee⟩, ?_⟩
  · rw [hgrows.held]
    have hsum : Asset.of ⟨-(o.amount.amount + o.fee.amount), o.amount.assetId⟩ a = -o.amount.of a - o.fee.of a := by
      simp only [Asset.of, hsameAsset]
      split_ifs <;> ring
    simp only [Pi.add_apply, Pi.zero_apply, Asset.of_neg, hsum]
    ring
  · rw [hgrows.collected]
    have hcollected := Asset.of_nonneg (a := a) hfee
    simpa only [Pi.add_apply, Pi.zero_apply, add_zero, le_add_iff_nonneg_right] using hcollected
  · rw [hsame₆, hsame₅]
    exact hnodup
  · rw [hgrows₆.supply, Pi.zero_apply, add_zero, ← hsameAsset]
    exact hnonneg
  · rw [hsame₆, hsame₅, hhidden]
    simp only [Operation.asset, Operation.created, Operation.spent, sumHidden, List.map_nil, List.sum_nil]
    split_ifs <;> ring
  · have hbound : o.fee.amount + o.amount.amount < 2 ^ 64 := by
      have hle := hin.2
      omega
    have hblind : (blind o.blindingFactor (toUInt64 (o.fee.amount + o.amount.amount))).hidden = o.fee.amount + o.amount.amount :=
      blind_amount (add_nonneg hfee hamount.le) hbound
    have hsums := hsums.1
    simp only [sumHidden_cons, hblind] at hsums
    simpa [Operation.spent, Operation.blinded, Operation.created, Operation.unblinded, sumHidden, add_comm, sub_sub] using hsums

theorem blindTransfer_effect {o : BlindTransfer P K A} (h : d.apply (.blindTransfer o) = .ok d') (hd : d.Regular) :
    Effect d d' (.blindTransfer o) := by
  simp only [Database.apply, bind_eq_ok] at h
  obtain ⟨_, hvalid, h⟩ := h
  simp only [BlindTransfer.validate, bind_eq_ok, fcAssert_eq_ok, checkSorted_eq_ok] at hvalid
  obtain ⟨_, ⟨-, hsorted⟩, _, ⟨hshort, -⟩, _, -, _, -, _, hsums, -⟩ := hvalid
  obtain ⟨d₁, d₅, hfee, heval, hcharged, happly, hpay⟩ := startEvaluate_eq_ok h
  simp only [BlindTransfer.doEvaluate, bind_eq_ok] at heval
  obtain ⟨_, -, _, -, hasset⟩ := heval
  simp only [BlindTransfer.doApply, bind_eq_ok] at happly
  obtain ⟨d₂, h₂, d₃, h₃, d₄, h₄, h₅⟩ := happly
  obtain ⟨hgrows₂, hsame₂⟩ := adjustBalance_grows h₂
  obtain ⟨hgrows₅, hsame₅, hnonneg⟩ := changeConfidential_grows h₅
  obtain ⟨hgrows₆, hsame₆⟩ := adjustBalance_grows hpay
  have hlive : d₂.blindedBalances = d.blindedBalances := by rw [hsame₂, hcharged.blindedBalances]
  obtain ⟨hspent, hnodup, hle, hhidden⟩ := spend_inputs h₃ hlive hd hsorted hasset
  obtain ⟨hcreated, hnodup', -, hmem, hhidden'⟩ := createOutputs h₄ hnodup
  have hgrows := ((((hcharged.grows.trans hgrows₂).trans (.of_blinded hspent)).trans (.of_blinded hcreated)).trans hgrows₅).trans hgrows₆
  have hsupply : ∀ a, d'.confidentialSupply a = d.confidentialSupply a + if o.fee.assetId = a then 0 - o.fee.amount else 0 := by
    intro a
    rw [hgrows.supply]
    simp only [Pi.add_apply, Pi.zero_apply, zero_add, add_zero, zero_sub]
    rw [Asset.of_neg, Asset.of]
    split_ifs
    · rfl
    · rfl
  refine ⟨hgrows.solvent, fun a => ?_, fun a => ?_, hsupply, ⟨?_, supply_step hd hsupply ?_⟩, fun a => ?_, hle, fun c hc => ?_,
    hshort, ⟨le_refl 0, hfee⟩, ?_⟩
  · rw [hgrows.held]
    simp only [Pi.add_apply, Pi.zero_apply, Asset.of_neg]
    ring
  · rw [hgrows.collected]
    have hcollected := Asset.of_nonneg (a := a) hfee
    simpa only [Pi.add_apply, Pi.zero_apply, add_zero, le_add_iff_nonneg_right] using hcollected
  · rw [hsame₆, hsame₅]
    exact hnodup'
  · rw [hgrows₆.supply, Pi.zero_apply, add_zero]
    exact hnonneg
  · rw [hsame₆, hsame₅, hhidden', hhidden]
    have hop : (if (Operation.blindTransfer o).asset = a then
        sumHidden (Operation.blindTransfer o).created - sumHidden (Operation.blindTransfer o).spent else 0) =
        if o.fee.assetId = a then sumHidden (o.outputs.map (·.commitment)) - sumHidden (o.inputs.map (·.commitment)) else 0 := rfl
    rw [hop]
    split_ifs <;> ring
  · rw [hsame₆, hsame₅, hmem]
    exact .inr hc
  · simpa [Operation.spent, Operation.blinded, Operation.created, Operation.unblinded] using hsums.1

theorem apply_effect (h : d.apply op = .ok d') (hd : d.Regular) : Effect d d' op := by
  cases op with
  | transferToBlind o => exact transferToBlind_effect h hd
  | transferFromBlind o => exact transferFromBlind_effect h hd
  | blindTransfer o => exact blindTransfer_effect h hd

end

end Khc.Blind
