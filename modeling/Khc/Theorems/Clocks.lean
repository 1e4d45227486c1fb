import Khc.Project.Run

/-! Nodes with different clocks: two of them that apply the same operations reach the same state, unless an investment
    completes a financing. -/

namespace Khc.Chain

open Lib

/-- The same step on two nodes, whatever their clocks -/
inductive Step.OnNodes : Step → Step → Prop
  | operation (now now' : Nat) (op : Operation) : OnNodes (.operation now op) (.operation now' op)
  | endBlock (timestamp : Nat) (maintenance : Option ChainParameters) :
    OnNodes (.endBlock timestamp maintenance) (.endBlock timestamp maintenance)

namespace Database
variable {d : Database} {op : Operation}

/-- The step is an investment that passes its evaluation and brings what is raised to the maximum. -/
def completes (d : Database) : Step → Bool
  | .operation _ (.assetInvestment o) => (AssetInvestment.doEvaluate d o).isOk && (d.assets[o.investmentAssetId]?).any fun a =>
    a.dynamicData.financingCurrentSupply + o.amount.amount ≥ a.projOptions.maxFinancingAmount
  | _ => false

/-- What is applied matters only after the evaluation and the fee. -/
theorem startEvaluate_congr {α : Type} {ev : Eval α} {ap ap' : Database → Int → α → Eval Database}
    (h : ∀ core e, ev = .ok e → ap (d.charge op.fee core) core e = ap' (d.charge op.fee core) core e) :
    d.startEvaluate op ev ap = d.startEvaluate op ev ap' := by
  unfold startEvaluate
  refine bind_congr fun core => bind_congr fun _ => ?_
  cases hev : ev with
  | error e => rfl
  | ok e =>
    simp only [Lib.ok_bind]
    cases hfee : d.convertFee op.fee core with
    | error _ => rfl
    | ok d₁ =>
      obtain rfl := convertFee_inv hfee
      simp only [Lib.ok_bind, h core e hev]

/-- An investment that does not complete the financing does not read the clock. -/
theorem doApply_clock {o : AssetInvestmentOperation} {now now' : Nat} (h : ∀ a, d.assets[o.investmentAssetId]? = some a →
    a.dynamicData.financingCurrentSupply + o.amount.amount < a.projOptions.maxFinancingAmount) :
    AssetInvestment.doApply d now o = AssetInvestment.doApply d now' o := by
  unfold AssetInvestment.doApply getAsset
  cases ha : d.assets[o.investmentAssetId]? with
  | none => rfl
  | some a =>
    simp only [Lib.ok_bind]
    cases hasked : safe (a.dynamicData.financingCurrentSupply + o.amount.amount) with
    | error _ => rfl
    | ok asked =>
      obtain ⟨-, rfl⟩ := safe_eq_ok.mp hasked
      have hopen : decide (a.dynamicData.financingCurrentSupply + o.amount.amount ≥ a.projOptions.maxFinancingAmount) = false :=
        decide_eq_false (not_le.mpr (h a ha))
      simp only [Lib.ok_bind, hopen, Bool.false_eq_true, if_false]

theorem step_clock {s s' : Step} (hs : s.OnNodes s') (h : d.completes s = false) : d.step s = d.step s' := by
  cases hs with
  | endBlock => rfl
  | operation now now' op =>
    have hsame : d.applyOperation now op = d.applyOperation now' op := by
      cases op with
      | assetInvestment o =>
        refine bind_congr fun _ => startEvaluate_congr fun core e he => doApply_clock fun a ha => ?_
        obtain ⟨b, fees, pool, hb, rfl⟩ := of_charge_getElem? ha
        have hopen : ¬b.projOptions.maxFinancingAmount ≤ b.dynamicData.financingCurrentSupply + o.amount.amount := by
          simpa [completes, he, hb, Except.isOk, Except.toBool] using h
        exact not_le.mp hopen
      | _ => rfl
    simp only [step, hsame]

end Database

/-- As long as no investment completes a financing, nodes that apply the same operations reach the same states, whatever their
    clocks. -/
theorem run_clocks {d : Database} {steps steps' : List Step} (h : List.Forall₂ Step.OnNodes steps steps')
    (hopen : Along Database.step (fun d s => d.completes s = false) d steps) : d.run steps = d.run steps' :=
  run_eq_of_forall₂ (fun _ _ _ hd hs => Database.step_clock hs hd) h hopen

section
open Sample

/-- The investment that fills the project puts the clock of the node into its options. -/
theorem run_reads_clock : Start genesis ∧ ¬∀ steps steps', List.Forall₂ Step.OnNodes steps steps' →
    genesis.run steps = genesis.run steps' := by
  refine ⟨genesis_start, fun h => ?_⟩
  have hsame := h [create offering, maintain, .operation 7 (.assetInvestment ⟨noFee, 2, 2, ⟨200, 1⟩⟩)]
    [create offering, maintain, .operation 8 (.assetInvestment ⟨noFee, 2, 2, ⟨200, 1⟩⟩)]
    (.cons (.operation _ _ _) (.cons (.endBlock _ _) (.cons (.operation _ _ _) .nil)))
  have htimes := congrArg (fun d : Database => d.assets.map fun a => a.projOptions.endFinancingTime) hsame
  revert htimes
  decide

/-- An investment that leaves something to be raised -/
theorem run_clocks_open : (genesis.run [create offering, maintain, invest 2 60]).investments.length = 1 ∧
    genesis.run [create offering, maintain, invest 2 60] =
      genesis.run [create offering, maintain, .operation 8 (.assetInvestment ⟨noFee, 2, 2, ⟨60, 1⟩⟩)] :=
  ⟨by decide, run_clocks (.cons (.operation _ _ _) (.cons (.endBlock _ _) (.cons (.operation _ _ _) .nil))) (by decide)⟩

end

end Khc.Chain
