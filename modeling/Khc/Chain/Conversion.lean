import Khc.Theorems.Power

/-! What an accepted `power_convert` has passed and does: the power that it adds, and the amounts that it moves. -/

namespace Khc.Chain

open Lib Database

namespace PowerDatabase

/-- The settlement price of the current feed of a bitasset -/
def feed (d : PowerDatabase) (asset : AssetId) : Option Price := do
  let a ← d.chain.assets[asset]?
  let b ← a.bitassetData
  return b.settlementPrice

/-- The power of the objects that `c` selects by owner and source -/
def powerOf (c : AccountId → PowerFrom → Bool) (d : PowerDatabase) : Int :=
  (d.accountPower.map fun p => if c p.owner p.powerFrom then p.powerValue else 0).sum

theorem owned_eq_powerOf (d : PowerDatabase) (x : AccountId) : d.owned x = d.powerOf fun owner _ => owner = x := by
  simp only [owned, powerOf, decide_eq_true_eq]

/-- What the operation has passed, and what it leaves -/
structure Converted (d d' : PowerDatabase) (o : PowerConvertOperation) (p : Price) (power : Int) : Prop where
  feed : d.feed o.referAmount.assetId = some p
  amount : 0 < o.amount.amount
  base : 0 < p.base.amount
  quote : 0 < p.quote.amount
  distinct : p.base.assetId ≠ p.quote.assetId
  narrowed : PowerConvert.powerAmount o.amount.amount p = .ok power
  nonneg : 0 ≤ power + d.owned o.account
  bounded : power + d.owned o.account ≤ maxShareSupply
  powers : ∀ c, powerOf c d' = powerOf c d + if c o.account .melt then power else 0
  balances : d'.chain.balances =
    (((d.chain.credit o.account o.amount.neg).credit grapheneNullAccount o.amount).credit o.account o.fee.neg).balances

variable {d d' : PowerDatabase}

/-- The loop over the power objects of an account -/
theorem foldlM_total {l : List AccountPower} {power total : Int}
    (h : l.foldlM (fun total p => safe (total + p.powerValue)) power = .ok total) : total = power + (l.map (·.powerValue)).sum := by
  induction l generalizing power with
  | nil =>
    rw [List.foldlM_nil, pure_eq_ok] at h
    rw [← h, List.map_nil, List.sum_nil, add_zero]
  | cons p l ih =>
    rw [List.foldlM_cons, bind_eq_ok] at h
    obtain ⟨power', hadd, h⟩ := h
    obtain ⟨-, rfl⟩ := safe_eq_ok.mp hadd
    rw [ih h, List.map_cons, List.sum_cons, add_assoc]

theorem sum_filter_owner (d : PowerDatabase) (x : AccountId) :
    ((d.accountPower.filter (·.owner = x)).map (·.powerValue)).sum = d.owned x := by
  rw [sum_map_filter, owned]
  simp only [decide_eq_true_eq]

/-- More power of the account in its object for conversions -/
theorem powerOf_updateFirst {o : PowerConvertOperation} {p : AccountPower} {power : Int}
    (hp : d.accountPower.find? (PowerConvert.isMelt o.account) = some p) (c : AccountId → PowerFrom → Bool) :
    powerOf c { d with
      accountPower := updateFirst (PowerConvert.isMelt o.account) (fun q => { q with powerValue := p.powerValue + power }) d.accountPower } =
    powerOf c d + if c o.account .melt then power else 0 := by
  have hfound := List.find?_some hp
  obtain ⟨howner, hsource⟩ : p.owner = o.account ∧ p.powerFrom = .melt := of_decide_eq_true hfound
  rw [powerOf, powerOf, sum_map_updateFirst (fun p => if c p.owner p.powerFrom then p.powerValue else 0) hp]
  dsimp only
  rw [howner, hsource]
  split_ifs
  · rw [add_sub_cancel_left]
  · rw [sub_self]

theorem powerOf_append (p : AccountPower) (c : AccountId → PowerFrom → Bool) :
    powerOf c { d with accountPower := d.accountPower ++ [p] } = powerOf c d + if c p.owner p.powerFrom then p.powerValue else 0 := by
  rw [powerOf, powerOf, List.map_append, List.sum_append, List.map_singleton, List.sum_singleton]

theorem apply_converted {o : PowerConvertOperation} (h : PowerConvert.apply d o = .ok d') : ∃ p power, Converted d d' o p power := by
  simp only [PowerConvert.apply, bind_eq_ok, fcAssert_eq_ok, pure_eq_ok] at h
  obtain ⟨_, -, _, hamount, core, -, _, -, _, -, chain₁, h₁, d₁, hd₁, chain₂, h₂, rfl⟩ := h
  obtain rfl := convertFee_inv h₁
  obtain ⟨-, -, rfl⟩ := adjustBalance_eq_ok.mp h₂
  simp only [PowerConvert.doApply, bind_eq_ok, getAsset_eq_ok, pure_eq_ok, fcAssert_eq_ok] at hd₁
  obtain ⟨a, ha, b, hb, -, -, power, hpower, -, -, total, htotal, -, hrange, d₂, hd₂, _, hprice, chain₃, h₃, chain₄, h₄, rfl⟩ := hd₁
  obtain ⟨-, -, rfl⟩ := adjustBalance_eq_ok.mp h₃
  obtain ⟨-, -, rfl⟩ := adjustBalance_eq_ok.mp h₄
  obtain ⟨c, fees, pool, hc, rfl⟩ := of_charge_getElem? ha
  simp only [Price.validate, bind_eq_ok, fcAssert_eq_ok] at hprice
  obtain ⟨_, hbase, _, hquote, hdistinct⟩ := hprice
  have hsum : total = power + d.owned o.account := by
    rw [foldlM_total htotal, ← sum_filter_owner]
  obtain ⟨hchain, hpowers⟩ : d₂.chain = d.chain.charge o.fee core ∧
      ∀ c, powerOf c d₂ = powerOf c d + if c o.account .melt then power else 0 := by
    split at hd₂
    · rename_i p hp
      simp only [bind_eq_ok, safe_eq_ok] at hd₂
      obtain ⟨_, ⟨-, rfl⟩, hd₂⟩ := hd₂
      cases hd₂
      exact ⟨rfl, powerOf_updateFirst (d := d) hp⟩
    · obtain rfl := createPower_eq_ok hd₂
      exact ⟨rfl, powerOf_append (d := d) _⟩
  refine ⟨b.settlementPrice, power, ?_, hamount, hbase, hquote, hdistinct, hpower, hsum ▸ hrange.1, hsum ▸ hrange.2, hpowers, ?_⟩
  · have hdata : c.bitassetData = some b := getBitassetData_eq_ok hb
    simp only [feed, hc, Option.bind_eq_bind, Option.bind_some, hdata, Option.pure_def]
  · rw [hchain]
    funext x q
    simp only [credit, charge_balances]

end PowerDatabase

end Khc.Chain
