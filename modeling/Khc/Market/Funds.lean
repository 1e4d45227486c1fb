import Khc.Market.Holdings

/-! The updates of balances, statistics and dynamic data: what they do to the quantities, and that they leave orders,
    supplies and settlements alone. -/

namespace Khc.Market

open Lib
open Chain (Asset Price AccountId AssetId)

namespace Database

/-- From the first state to the second, the quantities grow by `F`; orders and settlements stay as they are. -/
structure Moves (d d' : Database) (F : Shift) : Prop where
  same : d' = { d with
    statistics := d'.statistics, balances := d'.balances, dynamicData := d'.dynamicData, applied := d'.applied }
  amounts : Changes d d' F
  solvent : d.Solvent → d'.Solvent

namespace Moves
variable {d d' d'' : Database} {F G : Shift}

theorem refl : Moves d d 0 := ⟨rfl, fun _ _ => (add_zero _).symm, id⟩

theorem trans (h : Moves d d' F) (h' : Moves d' d'' G) : Moves d d'' (F + G) where
  same := by rw [h'.same, h.same]
  amounts q a := by rw [h'.amounts, h.amounts, Pi.add_apply, Pi.add_apply, add_assoc]
  solvent hd := h'.solvent (h.solvent hd)

theorem congr (h : Moves d d' F) (hF : F = G) : Moves d d' G := hF ▸ h

theorem andThen (h : Moves d d' F) (h' : Moves d' d'' 0) : Moves d d'' F := (h.trans h').congr (add_zero F)

theorem limitOrders (h : Moves d d' F) : d'.limitOrders = d.limitOrders := by rw [h.same]
theorem callOrders (h : Moves d d' F) : d'.callOrders = d.callOrders := by rw [h.same]
theorem settlements (h : Moves d d' F) : d'.settlements = d.settlements := by rw [h.same]
theorem bids (h : Moves d d' F) : d'.bids = d.bids := by rw [h.same]
theorem bitassets (h : Moves d d' F) : d'.bitassets = d.bitassets := by rw [h.same]
theorem bitasset (h : Moves d d' F) (a : AssetId) : d'.bitasset a = d.bitasset a := by rw [Database.bitasset, h.bitassets, Database.bitasset]

theorem ite {c : Prop} [Decidable c] {x : Eval Database} (h : (if c then x else .ok d) = .ok d')
    (hx : c → x = .ok d' → Moves d d' F) : Moves d d' (if c then F else 0) := by
  by_cases hc : c
  · rw [if_pos hc] at h ⊢
    exact hx hc h
  · rw [if_neg hc] at h ⊢
    obtain rfl := Except.ok.inj h
    exact refl

end Moves

section
variable {d d' : Database} {account : AccountId} {asset : AssetId} {delta fee : Asset} {amount : Int}

/-! ### Balances -/

theorem adjustBalance_moves (h : d.adjustBalance account delta = .ok d') : Moves d d' (put .total delta.of) := by
  unfold adjustBalance at h
  split at h
  · rename_i hzero
    obtain rfl := Except.ok.inj h
    have hnone : delta.of = 0 := funext fun a => Asset.of_eq_zero hzero
    exact Moves.refl.congr (by rw [hnone, put_zero])
  · split at h
    · rename_i hnone
      simp only [bind_eq_ok, fcAssert_eq_ok, pure_eq_ok] at h
      obtain ⟨-, hpos, rfl⟩ := h
      refine ⟨rfl, amount_put (fun a => ?_) fun q hq a => ?_, fun hd => ⟨fun b hb => ?_, hd.fees⟩⟩
      · simp [Database.amount, total, liquid, balancesOf, accumulatedFees, feePools, pendingFees]
        ring
      · cases q <;> first | rfl | exact absurd rfl hq
      · rcases List.mem_append.mp hb with hb | hb
        · exact hd.balances b hb
        · rw [List.mem_singleton.mp hb]
          exact le_of_lt hpos
    · rename_i b hb
      simp only [bind_eq_ok, fcAssert_eq_ok, pure_eq_ok, safe_eq_ok] at h
      obtain ⟨-, henough, balance, ⟨-, rfl⟩, rfl⟩ := h
      have hasset : b.assetType = delta.assetId := by
        have := List.find?_some hb
        simp only [AccountBalance.isOf, Bool.decide_and, Bool.and_eq_true, decide_eq_true_eq] at this
        exact this.2
      refine ⟨rfl, amount_put (fun a => ?_) fun q hq a => ?_, fun hd => ⟨fun b' hb' => ?_, hd.fees⟩⟩
      · have hsum := sum_map_updateFirst (fun b : AccountBalance => Asset.of ⟨b.balance, b.assetType⟩ a)
          (f := fun b' => { b' with balance := b.balance + delta.amount }) hb
        simp only [Database.amount, total, liquid, balancesOf, accumulatedFees, feePools, pendingFees] at *
        rw [hsum, hasset, Asset.of_add]
        ring
      · cases q <;> first | rfl | exact absurd rfl hq
      · rcases mem_updateFirst hb' with hb' | ⟨b'', -, rfl⟩
        · exact hd.balances b' hb'
        · have := hd.balances b (List.mem_of_find?_eq_some hb)
          show 0 ≤ b.balance + delta.amount
          by_cases hneg : delta.amount < 0
          · have := henough hneg
            omega
          · omega

/-! ### Statistics and dynamic data -/

theorem lookup_eq_ok {α : Type} {l : List α} {i : Nat} {x : α} : lookup l i = .ok x ↔ l[i]? = some x := by
  unfold lookup
  split <;> simp_all

theorem getBitasset_eq_ok {b : BitassetData} : d.getBitasset asset = .ok b ↔ d.bitasset asset = some b := by
  unfold getBitasset
  split <;> simp_all

theorem modifyStatistics_eq_ok {f : AccountStatistics → Eval AccountStatistics}
    (h : d.modifyStatistics account f = .ok d') :
    ∃ s s', d.statistics[account]? = some s ∧ f s = .ok s' ∧ d' = { d with statistics := d.statistics.set account s' } := by
  simp only [modifyStatistics, getStatistics, bind_eq_ok, lookup_eq_ok, pure_eq_ok] at h
  obtain ⟨s, hs, s', hf, rfl⟩ := h
  exact ⟨s, s', hs, hf, rfl⟩

theorem modifyDynamicData_eq_ok {f : AssetDynamicData → Eval AssetDynamicData}
    (h : d.modifyDynamicData asset f = .ok d') :
    ∃ x x', d.dynamicData[asset]? = some x ∧ f x = .ok x' ∧
      d' = { d with dynamicData := d.dynamicData.set asset x' } := by
  simp only [modifyDynamicData, getDynamicData, bind_eq_ok, lookup_eq_ok, pure_eq_ok] at h
  obtain ⟨x, hx, x', hf, rfl⟩ := h
  exact ⟨x, x', hx, hf, rfl⟩

/-- A column of a table that is changed at one place -/
theorem getD_map_set {α : Type} {l : List α} {x y : α} {i : Nat} (w : α → Int) (h : l[i]? = some x) (j : Nat) :
    ((l.set i y)[j]?.map w).getD 0 = (l[j]?.map w).getD 0 + if i = j then w y - w x else 0 := by
  rw [List.getElem?_set]
  split
  · rename_i ha
    subst ha
    rw [if_pos (List.getElem?_eq_some_iff.mp h).1, h, Option.map_some, Option.map_some, Option.getD_some, Option.getD_some,
      add_sub_cancel]
  · simp

/-- A change of statistics that raises the pending fees by the amount -/
theorem modifyStatistics_pending {f : AccountStatistics → Eval AccountStatistics} (h : d.modifyStatistics account f = .ok d')
    (hf : ∀ s s', f s = .ok s' → s'.totalCoreInOrders = s.totalCoreInOrders ∧
      s'.pendingFees + s'.pendingVestedFees = s.pendingFees + s.pendingVestedFees + amount) :
    Moves d d' (put .total (Asset.of ⟨amount, 0⟩)) := by
  obtain ⟨s, s', hs, hfs, rfl⟩ := modifyStatistics_eq_ok h
  obtain ⟨hcore, hpending⟩ := hf s s' hfs
  refine ⟨rfl, amount_put (fun a => ?_) fun q hq a => ?_, fun hd => ⟨hd.balances, hd.fees⟩⟩
  · have hsum := sum_map_set (fun s : AccountStatistics => s.pendingFees + s.pendingVestedFees) (y := s') hs
    rw [hpending, add_sub_cancel_left] at hsum
    simp only [Database.amount, total, liquid, balancesOf, accumulatedFees, feePools, pendingFees] at *
    rw [hsum, ← add_assoc, Asset.of_add]
    ring
  · cases q with
    | total => exact absurd rfl hq
    | uncounted account' =>
      have hcount := getD_map_set AccountStatistics.totalCoreInOrders (y := s') hs account'
      rw [hcore, sub_self, ite_self, add_zero] at hcount
      simp only [Database.amount, totalCoreInOrders, coreInOrders, hcount]
    | _ => rfl

theorem payFee_moves (h : d.payFee account amount = .ok d') : Moves d d' (put .total (Asset.of ⟨amount, 0⟩)) := by
  refine modifyStatistics_pending h fun s s' hs => ?_
  split at hs
  · simp only [bind_eq_ok, safe_eq_ok, pure_eq_ok] at hs
    obtain ⟨_, ⟨-, rfl⟩, rfl⟩ := hs
    exact ⟨rfl, add_right_comm ..⟩
  · simp only [bind_eq_ok, safe_eq_ok, pure_eq_ok] at hs
    obtain ⟨_, ⟨-, rfl⟩, rfl⟩ := hs
    exact ⟨rfl, (add_assoc ..).symm⟩

theorem adjustCoreInOrders_moves (h : d.adjustCoreInOrders account delta = .ok d') :
    Moves d d' (put (.uncounted account) delta.core.of) := by
  unfold adjustCoreInOrders at h
  split at h
  · rename_i hasset
    obtain ⟨s, s', hs, hfs, rfl⟩ := modifyStatistics_eq_ok h
    simp only [bind_eq_ok, safe_eq_ok, pure_eq_ok] at hfs
    obtain ⟨_, ⟨-, rfl⟩, rfl⟩ := hfs
    have hcount := getD_map_set AccountStatistics.totalCoreInOrders
      (y := { s with totalCoreInOrders := s.totalCoreInOrders + delta.amount }) hs
    have hsum := sum_map_set (fun s : AccountStatistics => s.pendingFees + s.pendingVestedFees)
      (y := { s with totalCoreInOrders := s.totalCoreInOrders + delta.amount }) hs
    refine ⟨rfl, fun q a => ?_, fun hd => ⟨hd.balances, hd.fees⟩⟩
    cases q with
    | total =>
      rw [sub_self, add_zero] at hsum
      rw [put_ne (by simp), add_zero]
      simp only [Database.amount, total, liquid, balancesOf, accumulatedFees, feePools, pendingFees, hsum]
    | uncounted account' =>
      have hat : delta.of 0 = delta.amount := if_pos hasset
      rw [put_core, hat, Database.amount, Database.amount, ← Asset.of_add]
      simp only [totalCoreInOrders, coreInOrders, hcount account', add_sub_cancel_left, sub_add_eq_add_sub]
    | _ =>
      rw [put_ne (by simp), add_zero]
      rfl
  · rename_i hasset
    obtain rfl := Except.ok.inj h
    have hnone : delta.core.of = 0 := funext fun a => Asset.of_eq_zero (if_neg hasset)
    exact Moves.refl.congr (by rw [hnone, put_zero])

/-- A change of the dynamic data that leaves the supply alone -/
theorem modifyDynamicData_moves {f : AssetDynamicData → Eval AssetDynamicData} {m n : Int}
    (h : d.modifyDynamicData asset f = .ok d')
    (hf : ∀ x x', f x = .ok x' → x'.currentSupply = x.currentSupply ∧ x'.accumulatedFees = x.accumulatedFees + m ∧
      x'.feePool = x.feePool + n)
    (hfees : 0 ≤ m ∨ -m ≤ d.accumulatedFees asset) :
    Moves d d' (put .total (Asset.of ⟨m, asset⟩ + Asset.of ⟨n, 0⟩)) := by
  obtain ⟨x, x', hx, hfx, rfl⟩ := modifyDynamicData_eq_ok h
  obtain ⟨hsupply, hfee, hpool⟩ := hf x x' hfx
  refine ⟨rfl, amount_put (fun a => ?_) fun q hq a => ?_, fun hd => ⟨hd.balances, fun y hy => ?_⟩⟩
  · have hsum := sum_map_set AssetDynamicData.feePool (y := x') hx
    have hacc := getD_map_set AssetDynamicData.accumulatedFees (y := x') hx a
    have hat : Asset.of ⟨m, asset⟩ a = if asset = a then m else 0 := rfl
    rw [hfee, add_sub_cancel_left, ← hat] at hacc
    rw [hpool, add_sub_cancel_left] at hsum
    simp only [Database.amount, total, liquid, balancesOf, accumulatedFees, feePools, pendingFees, Pi.add_apply] at *
    rw [hsum, hacc, add_right_comm _ n, Asset.of_add (n := n)]
    ring
  · cases q with
    | total => exact absurd rfl hq
    | supply => simpa [Database.amount, currentSupply, hsupply] using getD_map_set AssetDynamicData.currentSupply (y := x') hx a
    | _ => rfl
  · rcases List.mem_or_eq_of_mem_set hy with hy | rfl
    · exact hd.fees y hy
    · have hpos := hd.fees x (List.mem_of_getElem? hx)
      rw [hfee]
      rcases hfees with hfees | hfees
      · omega
      · simp only [accumulatedFees, hx, Option.map_some, Option.getD_some] at hfees
        omega

theorem accumulateFees_moves (h : d.accumulateFees fee = .ok d')
    (hfee : 0 ≤ fee.amount ∨ -fee.amount ≤ d.accumulatedFees fee.assetId) : Moves d d' (put .total fee.of) := by
  refine (modifyDynamicData_moves (m := fee.amount) (n := 0) h (fun x x' hx => ?_) hfee).congr ?_
  · simp only [bind_eq_ok, safe_eq_ok, pure_eq_ok] at hx
    obtain ⟨_, ⟨-, rfl⟩, rfl⟩ := hx
    exact ⟨rfl, rfl, (add_zero _).symm⟩
  · have hnone : Asset.of ⟨0, 0⟩ = 0 := funext fun _ => Asset.of_zero
    rw [hnone, add_zero]

theorem fundFeePool_moves (h : d.fundFeePool asset amount = .ok d') : Moves d d' (put .total (Asset.of ⟨amount, 0⟩)) := by
  refine (modifyDynamicData_moves (m := 0) (n := amount) h (fun x x' hx => ?_) (.inl (le_refl 0))).congr ?_
  · simp only [bind_eq_ok, safe_eq_ok, pure_eq_ok] at hx
    obtain ⟨_, ⟨-, rfl⟩, rfl⟩ := hx
    exact ⟨rfl, (add_zero _).symm, rfl⟩
  · have hnone : Asset.of ⟨0, asset⟩ = 0 := funext fun _ => Asset.of_zero
    rw [hnone, zero_add]

theorem pushAppliedOperation_moves (op : VirtualOperation) : Moves d (d.pushAppliedOperation op) 0 :=
  ⟨rfl, fun q _ => by cases q <;> exact (add_zero _).symm, fun hd => ⟨hd.balances, hd.fees⟩⟩

theorem pushIf_moves {c : Prop} [Decidable c] {op : VirtualOperation} :
    Moves d (if c then d.pushAppliedOperation op else d) 0 := by
  split
  · exact pushAppliedOperation_moves op
  · exact Moves.refl

end

end Database

end Khc.Market
