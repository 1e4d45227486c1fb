import Khc.Chain.Database
import Khc.Lib.Update
import Mathlib.Algebra.BigOperators.Group.Finset.Piecewise
import Mathlib.Algebra.Order.BigOperators.Group.Finset
import Mathlib.Tactic.Ring

/-! What the updates of the chain state change and what they leave alone: lookups, the investments of an asset,
    and the amount of an asset that accounts hold, its accumulated fees included. -/

namespace Khc.Chain

open Lib

namespace Database
variable {d d' : Database}

/-! ### Lookups -/

@[simp] theorem getAsset_eq_ok {id : AssetId} {a : AssetObject} : d.getAsset id = .ok a ↔ d.assets[id]? = some a := by
  unfold getAsset
  split <;> simp_all

theorem getAsset_eq_error {id : AssetId} {e : Error} (h : d.getAsset id = .error e) : e = .objectNotFound := by
  unfold getAsset at h
  split at h
  · cases h
  · exact (Except.error.inj h).symm

theorem getAssetId_eq_error {symbol : String} {e : Error} (h : d.getAssetId symbol = .error e) :
    e = .symbolNotFound := by
  unfold getAssetId at h
  split at h
  · cases h
  · exact (Except.error.inj h).symm

theorem getAccount_eq_ok {id : AccountId} {a : AccountObject} :
    d.getAccount id = .ok a ↔ d.accounts[id]? = some a := by
  unfold getAccount
  split <;> simp_all

theorem getAccount_lt {id : AccountId} {a : AccountObject} (h : d.getAccount id = .ok a) : id < d.accounts.length :=
  (List.getElem?_eq_some_iff.mp (getAccount_eq_ok.mp h)).1

theorem getAssetId_eq_ok {symbol : String} {id : AssetId} :
    d.getAssetId symbol = .ok id ↔ d.findSymbol symbol = some id := by
  unfold getAssetId
  split <;> simp_all

theorem lt_of_getElem? {id : AssetId} {a : AssetObject} (h : d.assets[id]? = some a) : id < d.assets.length :=
  (List.getElem?_eq_some_iff.mp h).1

theorem mem_of_getElem? {id : AssetId} {a : AssetObject} (h : d.assets[id]? = some a) : a ∈ d.assets :=
  List.mem_of_getElem? h

theorem findSymbol_eq_some {symbol : String} {id : AssetId} (h : d.findSymbol symbol = some id) :
    ∃ a, d.assets[id]? = some a ∧ a.symbol = symbol := by
  obtain ⟨hlt, hp, -⟩ := List.findIdx?_eq_some_iff_getElem.mp h
  exact ⟨_, List.getElem?_eq_getElem hlt, by simpa using hp⟩

/-- Symbols are looked up in the column of symbols. -/
theorem findSymbol_eq (symbol : String) : d.findSymbol symbol = (d.assets.map (·.symbol)).findIdx? (· = symbol) := by
  unfold findSymbol
  rw [List.findIdx?_map]
  rfl

/-- Symbols are unique, so an asset with the symbol is the one that the lookup finds. -/
theorem findSymbol_of_symbol (hs : (d.assets.map (·.symbol)).Nodup) {id : AssetId} {a : AssetObject}
    (h : d.assets[id]? = some a) : d.findSymbol a.symbol = some id := by
  rw [findSymbol_eq]
  obtain ⟨hlt, rfl⟩ := List.getElem?_eq_some_iff.mp h
  refine List.findIdx?_eq_some_iff_getElem.mpr ⟨by simpa using hlt, by simp, fun j hj => ?_⟩
  have hne := List.nodup_iff_injective_get.mp hs
  simp only [List.getElem_map, decide_eq_true_eq]
  intro heq
  have := @hne ⟨j, by simp; omega⟩ ⟨id, by simpa using hlt⟩ (by simpa using heq)
  simp at this
  omega

/-! ### Fields -/

section Fields
variable {x : AccountId} {δ : Asset} {q : AssetId} {f : AssetObject → AssetObject}
  {g : AssetInvestment → AssetInvestment} {r : AssetInvestment} {id : Nat}

@[simp] theorem credit_assets : (d.credit x δ).assets = d.assets := rfl
@[simp] theorem credit_investments : (d.credit x δ).investments = d.investments := rfl
@[simp] theorem credit_accounts : (d.credit x δ).accounts = d.accounts := rfl
@[simp] theorem credit_head : (d.credit x δ).headBlockNumber = d.headBlockNumber := rfl

@[simp] theorem modifyAsset_investments : (d.modifyAsset q f).investments = d.investments := rfl
@[simp] theorem modifyAsset_balances : (d.modifyAsset q f).balances = d.balances := rfl
@[simp] theorem modifyAsset_accounts : (d.modifyAsset q f).accounts = d.accounts := rfl
@[simp] theorem modifyAsset_head : (d.modifyAsset q f).headBlockNumber = d.headBlockNumber := rfl

@[simp] theorem modifyInvestment_assets : (d.modifyInvestment id g).assets = d.assets := rfl
@[simp] theorem modifyInvestment_balances : (d.modifyInvestment id g).balances = d.balances := rfl
@[simp] theorem modifyInvestment_accounts : (d.modifyInvestment id g).accounts = d.accounts := rfl
@[simp] theorem modifyInvestment_head : (d.modifyInvestment id g).headBlockNumber = d.headBlockNumber := rfl

@[simp] theorem createInvestment_assets : (d.createInvestment r).assets = d.assets := rfl
@[simp] theorem createInvestment_balances : (d.createInvestment r).balances = d.balances := rfl
@[simp] theorem createInvestment_accounts : (d.createInvestment r).accounts = d.accounts := rfl
@[simp] theorem createInvestment_head : (d.createInvestment r).headBlockNumber = d.headBlockNumber := rfl

@[simp] theorem createInvestment_investments : (d.createInvestment r).investments = d.investments ++ [r] := rfl

theorem modifyInvestment_investments :
    (d.modifyInvestment id g).investments = updateKey (·.id) id g d.investments := rfl

theorem credit_balances (y : AccountId) (p : AssetId) :
    (d.credit x δ).balances y p = d.balances y p + if y = x ∧ p = δ.assetId then δ.amount else 0 := rfl

theorem modifyAsset_getElem? (p : AssetId) :
    (d.modifyAsset q f).assets[p]? = if q = p then (d.assets[p]?).map f else d.assets[p]? := by
  simp only [modifyAsset, List.getElem?_modify]
  split <;> simp

@[simp] theorem modifyAsset_self : (d.modifyAsset q f).assets[q]? = (d.assets[q]?).map f := by
  rw [modifyAsset_getElem?, if_pos rfl]

theorem modifyAsset_ne {p : AssetId} (h : q ≠ p) : (d.modifyAsset q f).assets[p]? = d.assets[p]? := by
  rw [modifyAsset_getElem?, if_neg h]

@[simp] theorem modifyAsset_length : (d.modifyAsset q f).assets.length = d.assets.length := List.length_modify ..

/-- Two changes of an asset are one. -/
theorem modifyAsset_modifyAsset (f' : AssetObject → AssetObject) :
    (d.modifyAsset q f).modifyAsset q f' = d.modifyAsset q (f' ∘ f) := by
  simp only [modifyAsset, List.modify_modify_eq]

theorem modifyAsset_id : d.modifyAsset q (fun a => a) = d := by
  simp only [modifyAsset]
  rw [show (fun a : AssetObject => a) = id from rfl, List.modify_id]

/-- A column of the asset table that the change leaves alone. -/
theorem modifyAsset_map {β : Type} {h : AssetObject → β} (hf : ∀ a, h (f a) = h a) :
    (d.modifyAsset q f).assets.map h = d.assets.map h := by
  simp only [modifyAsset]
  refine List.ext_getElem? fun i => ?_
  simp only [List.getElem?_map, List.getElem?_modify]
  cases d.assets[i]? with
  | none => rfl
  | some a =>
    split
    · exact congrArg some (hf a)
    · rfl

theorem findSymbol_modifyAsset (hf : ∀ a, (f a).symbol = a.symbol) (symbol : String) :
    (d.modifyAsset q f).findSymbol symbol = d.findSymbol symbol := by
  rw [findSymbol_eq, findSymbol_eq, modifyAsset_map hf]

theorem credit_credit (e e' : Int) (p : AssetId) :
    (d.credit x ⟨e, p⟩).credit x ⟨e', p⟩ = d.credit x ⟨e + e', p⟩ := by
  simp only [credit]
  congr 1
  funext y q
  by_cases h : y = x ∧ q = p
  · simp only [h, and_self, if_true, add_assoc]
  · simp only [h, if_false, add_zero]

theorem credit_zero (p : AssetId) : d.credit x ⟨0, p⟩ = d := by
  simp only [credit, ite_self, add_zero]

end Fields

/-! ### The investments of an asset -/

section Investments
variable {p q : AssetId} {x : AccountId} {δ : Asset} {f : AssetObject → AssetObject} {r : AssetInvestment}

theorem investmentsByAsset_congr (h : d'.investments = d.investments) (p : AssetId) :
    d'.investmentsByAsset p = d.investmentsByAsset p := by
  rw [investmentsByAsset, h, investmentsByAsset]

theorem investmentsByAsset_append (h : d'.investments = d.investments ++ [r]) (p : AssetId) :
    d'.investmentsByAsset p = d.investmentsByAsset p ++ if r.investmentAssetId = p then [r] else [] := by
  rw [investmentsByAsset, h, List.filter_append, investmentsByAsset]
  congr 1
  by_cases hr : r.investmentAssetId = p <;> simp [hr]

/-- The investments of an account in an asset are those of the asset by the account. -/
theorem investmentsByAccount_filter (x : AccountId) (p : AssetId) :
    (d.investmentsByAccount x).filter (·.investmentAssetId = p) =
      (d.investmentsByAsset p).filter (·.investmentAccountId = x) := by
  simp only [investmentsByAccount, investmentsByAsset, List.filter_filter]
  exact List.filter_congr fun r _ => Bool.and_comm _ _

theorem mem_investmentsByAsset : r ∈ d.investmentsByAsset p ↔ r ∈ d.investments ∧ r.investmentAssetId = p := by
  simp [investmentsByAsset]

end Investments

/-! ### What accounts hold -/

section Held
variable {p q : AssetId} {x : AccountId} {δ : Asset} {f : AssetObject → AssetObject}

/-- The sum of all account balances of an asset. -/
def accountBalances (d : Database) (q : AssetId) : Int := ∑ x ∈ Finset.range d.accounts.length, d.balances x q

/-- The fees that an asset has accumulated. -/
def accumulatedFees (d : Database) (q : AssetId) : Int :=
  match d.assets[q]? with
  | some a => a.dynamicData.accumulatedFees
  | none => 0

/-- What accounts hold of an asset, its accumulated fees included. -/
def held (d : Database) (q : AssetId) : Int := d.accountBalances q + d.accumulatedFees q

theorem accountBalances_credit (hx : x < d.accounts.length) (q : AssetId) :
    (d.credit x δ).accountBalances q = d.accountBalances q + if δ.assetId = q then δ.amount else 0 := by
  simp only [accountBalances, credit_balances, credit_accounts, Finset.sum_add_distrib]
  congr 1
  by_cases hq : δ.assetId = q
  · simp only [hq, and_true, if_true]
    rw [Finset.sum_ite_eq', if_pos (Finset.mem_range.mpr hx)]
  · have hq' : ¬q = δ.assetId := fun h => hq h.symm
    simp [hq, hq']

theorem accountBalances_congr (ha : d'.accounts = d.accounts) (hb : d'.balances = d.balances) (q : AssetId) :
    d'.accountBalances q = d.accountBalances q := by
  rw [accountBalances, ha, hb, accountBalances]

theorem accountBalances_nonneg (h : ∀ x q, 0 ≤ d.balances x q) (q : AssetId) : 0 ≤ d.accountBalances q :=
  Finset.sum_nonneg fun x _ => h x q

/-- No account holds more than all of them. -/
theorem balances_le (h : ∀ x q, 0 ≤ d.balances x q) (hx : x < d.accounts.length) (q : AssetId) :
    d.balances x q ≤ d.accountBalances q :=
  Finset.single_le_sum (f := fun x => d.balances x q) (fun y _ => h y q) (Finset.mem_range.mpr hx)

theorem accumulatedFees_of {a : AssetObject} (h : d.assets[q]? = some a) :
    d.accumulatedFees q = a.dynamicData.accumulatedFees := by
  rw [accumulatedFees, h]

theorem accumulatedFees_congr (h : d'.assets[q]? = d.assets[q]?) : d'.accumulatedFees q = d.accumulatedFees q := by
  rw [accumulatedFees, h, accumulatedFees]

theorem accumulatedFees_modifyAsset (hf : ∀ a, (f a).dynamicData.accumulatedFees = a.dynamicData.accumulatedFees)
    (p : AssetId) : (d.modifyAsset q f).accumulatedFees p = d.accumulatedFees p := by
  simp only [accumulatedFees, modifyAsset_getElem?]
  cases d.assets[p]? with
  | none => simp
  | some a =>
    by_cases hq : q = p
    · rw [if_pos hq]
      exact hf a
    · rw [if_neg hq]

theorem held_congr (ha : d'.accounts = d.accounts) (hb : d'.balances = d.balances) (hq : d'.assets[q]? = d.assets[q]?) :
    d'.held q = d.held q := by
  rw [held, accountBalances_congr ha hb, accumulatedFees_congr hq, held]

theorem held_credit (hx : x < d.accounts.length) (q : AssetId) :
    (d.credit x δ).held q = d.held q + if δ.assetId = q then δ.amount else 0 := by
  have hfees : (d.credit x δ).accumulatedFees q = d.accumulatedFees q := rfl
  rw [held, accountBalances_credit hx, hfees, held]
  ring

theorem held_modifyAsset (hf : ∀ a, (f a).dynamicData.accumulatedFees = a.dynamicData.accumulatedFees)
    (p : AssetId) : (d.modifyAsset q f).held p = d.held p := by
  have hbal : (d.modifyAsset q f).accountBalances p = d.accountBalances p := rfl
  rw [held, accumulatedFees_modifyAsset hf, hbal, held]

end Held

end Database

end Khc.Chain
