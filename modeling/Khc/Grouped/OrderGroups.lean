import Khc.Lib.Flat
import Khc.Market.Objects
import Khc.Market.Rates
import Mathlib.Algebra.Order.Ring.Rat
import Mathlib.Tactic.NormNum

/-! The plugin that groups the limit orders of a market by their prices (`grouped_orders_plugin.cpp`) -/

namespace Khc

open Chain (Asset Price AssetId graphene100Percent)
open Lib (FlatSet)
open Market (LimitOrder Eval RationalDistance fcAssert safe scale)

namespace Grouped

/-! ### Groups -/

structure LimitOrderGroupKey where
  group : Nat
  minPrice : Price

/-- `operator <`: the greatest price first -/
def LimitOrderGroupKey.lt (a b : LimitOrderGroupKey) : Bool :=
  a.group < b.group || (!decide (b.group < a.group) && b.minPrice.lt a.minPrice)

structure LimitOrderGroupData where
  maxPrice : Price
  totalForSale : Int

abbrev OrderGroup := LimitOrderGroupKey × LimitOrderGroupData

/-- The map from the keys, in its order -/
abbrev OrderGroups := List OrderGroup

/-- The same market and group type -/
def OrderGroup.matches (e : OrderGroup) (group : Nat) (o : LimitOrder) : Bool :=
  e.1.group == group && e.1.minPrice.base.assetId == o.sellPrice.base.assetId && e.1.minPrice.quote.assetId == o.sellPrice.quote.assetId

namespace OrderGroups
variable (idx : OrderGroups)

/-- The groups before the `lower_bound` of a key -/
def before (key : LimitOrderGroupKey) : OrderGroups := idx.takeWhile (·.1.lt key)

/-- The groups from the `lower_bound` of a key on -/
def lowerBound (key : LimitOrderGroupKey) : OrderGroups := idx.dropWhile (·.1.lt key)

/-- `operator []` and an assignment -/
def put (key : LimitOrderGroupKey) (data : LimitOrderGroupData) : OrderGroups → OrderGroups
  | [] => [(key, data)]
  | e :: rest =>
    if key.lt e.1 then (key, data) :: e :: rest
    else if e.1.lt key then e :: put key data rest
    else (e.1, data) :: rest

end OrderGroups

/-- The price of an order, brought between `price::min` and `price::max` -/
structure CappedPrice where
  price : Price
  max : Bool
  min : Bool

def CappedPrice.of (p : Price) : CappedPrice :=
  let max := Price.max p.base.assetId p.quote.assetId
  let min := Price.min p.base.assetId p.quote.assetId
  if p.gt max then ⟨max, true, false⟩
  else if p.lt min then ⟨min, false, true⟩
  else ⟨p, false, false⟩

section
variable [RationalDistance] (o : LimitOrder) (group : Nat)

/-- `create_ogo` -/
def createOgo (idx : OrderGroups) : OrderGroups := idx.put ⟨group, o.sellPrice⟩ ⟨o.sellPrice, o.forSale⟩

/-- The group gets the order's price as its min price, and so another key. -/
def rekey (e : OrderGroup) (others : OrderGroups) : Eval OrderGroups := do
  let total ← safe (o.forSale + e.2.totalForSale)
  return others.put ⟨group, o.sellPrice⟩ ⟨e.2.maxPrice, total⟩

/-- The group next to the order, into whose range it comes -/
def joinNext (capped : CappedPrice) (updateMax : Bool) (before : OrderGroups) (itr : OrderGroup) (rest : OrderGroups) : Eval OrderGroups :=
  if capped.min && o.sellPrice.lt itr.1.minPrice then rekey o group itr (before ++ rest)
  else do
    let maxPrice := if updateMax || (capped.max && o.sellPrice.gt itr.2.maxPrice) then o.sellPrice else itr.2.maxPrice
    let total ← safe (itr.2.totalForSale + o.forSale)
    return before ++ (itr.1, ⟨maxPrice, total⟩) :: rest

/-- `check_previous` -/
def joinPrevious (capped : CappedPrice) (before rest : OrderGroups) : Eval OrderGroups :=
  match before.getLast? with
  | none => return createOgo o group (before ++ rest)
  | some itr =>
    if !itr.matches group o then return createOgo o group (before ++ rest)
    else do
      let minPrice ← scale itr.2.maxPrice (graphene100Percent / (graphene100Percent + group))
      if capped.price.lt minPrice then return createOgo o group (before ++ rest)
      else if capped.max && !o.sellPrice.lt itr.1.minPrice then
        let maxPrice := if o.sellPrice.gt itr.2.maxPrice then o.sellPrice else itr.2.maxPrice
        let total ← safe (itr.2.totalForSale + o.forSale)
        return before.dropLast ++ (itr.1, ⟨maxPrice, total⟩) :: rest
      else rekey o group itr (before.dropLast ++ rest)

/-- One round of the loop of `object_inserted` -/
def insertIn (idx : OrderGroups) : Eval OrderGroups :=
  if idx.isEmpty then return createOgo o group idx
  else
    let capped := CappedPrice.of o.sellPrice
    let before := idx.before ⟨group, capped.price⟩
    match idx.lowerBound ⟨group, capped.price⟩ with
    | [] => joinPrevious o group capped before []
    | itr :: rest =>
      if !itr.matches group o then joinPrevious o group capped before (itr :: rest)
      else if capped.price.gt itr.2.maxPrice then do
        let maxPrice ← scale itr.1.minPrice ((graphene100Percent + group) / graphene100Percent)
        if capped.price.gt maxPrice then joinPrevious o group capped before (itr :: rest)
        else joinNext o group capped true before itr rest
      else joinNext o group capped false before itr rest

end

/-- What is logged although it should not happen -/
inductive Warning
  | priceDismatch (o : LimitOrder)
  | amountDismatch (o : LimitOrder)

/-- The `limit_order_group_index` -/
structure LimitOrderGroupIndex where
  ogData : OrderGroups := []
  log : List Warning := []

/-- One round of the loop of `remove_order` -/
def removeFrom (o : LimitOrder) (removeEmpty : Bool) (idx : LimitOrderGroupIndex) (group : Nat) : Eval LimitOrderGroupIndex :=
  let before := idx.ogData.before ⟨group, o.sellPrice⟩
  match idx.ogData.lowerBound ⟨group, o.sellPrice⟩ with
  | [] => return { idx with log := idx.log ++ [.priceDismatch o] }
  | itr :: rest =>
    if !itr.matches group o || itr.2.maxPrice.lt o.sellPrice then return { idx with log := idx.log ++ [.priceDismatch o] }
    else if itr.2.totalForSale < o.forSale then return { idx with log := idx.log ++ [.amountDismatch o] }
    else if !removeEmpty || itr.2.totalForSale > o.forSale then do
      let total ← safe (itr.2.totalForSale - o.forSale)
      return { idx with ogData := before ++ (itr.1, { itr.2 with totalForSale := total }) :: rest }
    else return { idx with ogData := before ++ rest }

/-- The groups that are tracked, by the percentage of their price range; 0 is not. -/
structure TrackedGroups where
  groups : FlatSet Nat
  pos : ∀ g ∈ groups, 0 < g

namespace LimitOrderGroupIndex
variable (t : TrackedGroups) (idx : LimitOrderGroupIndex) (o : LimitOrder)

def removeOrder (removeEmpty : Bool) : Eval LimitOrderGroupIndex := t.groups.elems.foldlM (removeFrom o removeEmpty) idx

def objectInserted [RationalDistance] : Eval LimitOrderGroupIndex := do
  let ogData ← t.groups.elems.foldlM (fun data group => insertIn o group data) idx.ogData
  return { idx with ogData }

def objectRemoved : Eval LimitOrderGroupIndex := idx.removeOrder t o true

def aboutToModify : Eval LimitOrderGroupIndex := idx.removeOrder t o false

end LimitOrderGroupIndex

/-! ### Runs -/

/-- The limit orders, and the index of their groups -/
structure Book where
  orders : List LimitOrder := []
  index : LimitOrderGroupIndex := {}

inductive Event
  | insert (o : LimitOrder)
  | modify (id : Nat) (forSale : Int)
  | remove (id : Nat)

/-- An event of the database. An order has something for sale as long as it is there. -/
def Book.step [RationalDistance] (t : TrackedGroups) (b : Book) : Event → Eval Book
  | .insert o => do
    fcAssert (o.id ∉ b.orders.map (·.id)) .notUnique
    fcAssert (0 < o.forSale) .nothingForSale
    return { orders := o :: b.orders, index := ← b.index.objectInserted t o }
  | .modify id forSale => do
    fcAssert (0 < forSale) .nothingForSale
    match b.orders.find? (·.id = id) with
    | none => .error .objectNotFound
    | some o =>
      let index ← b.index.aboutToModify t o
      let o' := { o with forSale }
      return { orders := o' :: b.orders.eraseP (·.id = id), index := ← index.objectInserted t o' }
  | .remove id => do
    match b.orders.find? (·.id = id) with
    | none => .error .objectNotFound
    | some o => return { orders := b.orders.eraseP (·.id = id), index := ← b.index.objectRemoved t o }

end Grouped

end Khc

/-! Between which rates the product of a price and a ratio lies. -/

namespace Khc.Grouped

open Chain (Price maxShareSupply)
open Lib
open Market (RationalDistance scale scaleLoop scaleClosest mkPrice fcAssert_eq_ok)

/-- The rates of `price::min` and `price::max` -/
def least : ℚ := 1 / maxShareSupply

def greatest : ℚ := maxShareSupply

theorem greatest_pos : 0 < greatest := by
  unfold greatest maxShareSupply
  norm_num

theorem least_pos : 0 < least := one_div_pos.mpr greatest_pos

theorem least_le_greatest : least ≤ greatest := by
  unfold least greatest maxShareSupply
  norm_num

section
variable {r cp : ℚ} {n : Nat} {shrinked : Bool} {z : ℚ × Bool}

/-- What lies between the prices -/
def InBounds (r : ℚ) : Prop := 0 < r ∧ least ≤ r ∧ r ≤ greatest

theorem inBounds_div {n d : Int} (hn : 1 ≤ n ∧ n ≤ maxShareSupply) (hd : 1 ≤ d ∧ d ≤ maxShareSupply) : InBounds ((n : ℚ) / d) := by
  have hn1 : (1 : ℚ) ≤ n := by exact_mod_cast hn.1
  have hd1 : (1 : ℚ) ≤ d := by exact_mod_cast hd.1
  have hnM : (n : ℚ) ≤ maxShareSupply := by exact_mod_cast hn.2
  have hdM : (d : ℚ) ≤ maxShareSupply := by exact_mod_cast hd.2
  have hpos : (0 : ℚ) < d := one_pos.trans_le hd1
  have hnonneg : (0 : ℚ) ≤ n := zero_le_one.trans hn1
  exact ⟨div_pos (one_pos.trans_le hn1) hpos, div_le_div₀ hnonneg hn1 hpos hdM, (div_le_self hnonneg hd1).trans hnM⟩

theorem inBounds_edge : InBounds (1 / maxShareSupply) ∧ InBounds maxShareSupply :=
  ⟨⟨least_pos, le_rfl, least_le_greatest⟩, greatest_pos, least_le_greatest, le_rfl⟩

theorem inBounds_of_terms (hr : 0 < r) (hnum : r.num ≤ maxShareSupply) (hden : (r.den : Int) ≤ maxShareSupply) : InBounds r := by
  have hpos : 0 < r.num := Rat.num_pos.mpr hr
  have hden1 : (1 : Int) ≤ r.den := by exact_mod_cast r.den_pos
  have hdiv := inBounds_div ⟨hpos, hnum⟩ ⟨hden1, hden⟩
  rwa [Int.cast_natCast, Rat.num_div_den] at hdiv

theorem scaleLoop_inBounds (h : scaleLoop n shrinked r = .ok z) (hr : 0 < r) : InBounds z.1 := by
  induction n generalizing r shrinked with
  | zero => exact (throw_ne_ok.mp h).elim
  | succ n ih =>
    have hpos : 0 < r.num := Rat.num_pos.mpr hr
    rw [scaleLoop] at h
    split_ifs at h with hlarge hone hden
    · obtain rfl := Except.ok.inj h
      exact inBounds_edge.1
    · obtain rfl := Except.ok.inj h
      exact inBounds_edge.2
    · have hden2 : 0 < r.den / 2 := by
        have := r.den_pos
        omega
      have hnum2 : 0 < r.num / 2 := by omega
      exact ih h (div_pos (by exact_mod_cast hnum2) (by exact_mod_cast hden2))
    · obtain rfl := Except.ok.inj h
      rw [not_or, not_lt, not_lt] at hlarge
      exact inBounds_of_terms hr hlarge.1 hlarge.2

theorem scaleClosest_inBounds [RationalDistance] (hr : 0 < r) (hcp : InBounds cp) : InBounds (scaleClosest r cp) := by
  have hpos : 0 < r.num := Rat.num_pos.mpr hr
  have hden : (0 : Int) < r.den := by exact_mod_cast r.den_pos
  have hM : (1 : Int) ≤ maxShareSupply := by decide
  have hncp : InBounds (((if r.num > r.den then Min.min (r.num / r.den) maxShareSupply else 1 : Int) : ℚ) /
      ((if r.num > r.den then 1 else Min.min (r.den / r.num) maxShareSupply : Int) : ℚ)) := by
    split_ifs with h
    · exact inBounds_div ⟨le_min (Int.le_ediv_of_mul_le hden (by omega)) hM, min_le_right _ _⟩ ⟨le_rfl, hM⟩
    · exact inBounds_div ⟨le_rfl, hM⟩ ⟨le_min (Int.le_ediv_of_mul_le hpos (by omega)) hM, min_le_right _ _⟩
  unfold scaleClosest
  dsimp only
  generalize (if r.num > r.den then Min.min (r.num / r.den) maxShareSupply else 1 : Int) = num at hncp ⊢
  generalize (if r.num > r.den then 1 else Min.min (r.den / r.num) maxShareSupply : Int) = den at hncp ⊢
  split_ifs
  · exact hncp
  · exact hncp
  · exact hcp

end

theorem closest_inBounds [RationalDistance] {r cp : ℚ} {shrinked : Bool} (hr : 0 < r) (h : scaleLoop 128 false r = .ok (cp, shrinked)) :
    InBounds (if shrinked then scaleClosest r cp else cp) := by
  have hloop := scaleLoop_inBounds h hr
  split_ifs
  · exact scaleClosest_inBounds hr hloop
  · exact hloop

/-- The rate of the product of a price and a ratio. Where there is none, it is 1. -/
def scaledRate [RationalDistance] (v r : ℚ) : ℚ :=
  match scaleLoop 128 false (v * r) with
  | .error _ => 1
  | .ok (cp, shrinked) =>
    let cp := if shrinked then scaleClosest (v * r) cp else cp
    if (r.num > r.den ∧ cp < v) ∨ (r.num < r.den ∧ v < cp) then v else cp

section
variable [RationalDistance] {v r : ℚ}

/-- What a price is scaled to, before it is compared with the price. -/
theorem scaledRate_bounds (hv : 0 < v) (hr : 0 < r) :
    (r.num > r.den → least ≤ scaledRate v r) ∧ (r.num < r.den → scaledRate v r ≤ greatest) := by
  unfold scaledRate
  split
  · have hone := inBounds_div ⟨le_rfl, (by decide : (1 : Int) ≤ maxShareSupply)⟩ ⟨le_rfl, (by decide : (1 : Int) ≤ maxShareSupply)⟩
    rw [Int.cast_one, div_one] at hone
    exact ⟨fun _ => hone.2.1, fun _ => hone.2.2⟩
  · rename_i cp shrinked hloop
    have hcp := closest_inBounds (mul_pos hv hr) hloop
    dsimp only
    generalize (if shrinked then scaleClosest (v * r) cp else cp) = np at hcp ⊢
    split_ifs with hback
    · rcases hback with ⟨hup, hlt⟩ | ⟨hdown, hgt⟩
      · exact ⟨fun _ => hcp.2.1.trans hlt.le, fun hdown => absurd hup hdown.not_gt⟩
      · exact ⟨fun hup => absurd hup hdown.not_gt, fun _ => hgt.le.trans hcp.2.2⟩
    · exact ⟨fun _ => hcp.2.1, fun _ => hcp.2.2⟩

/-- A product is a price of the same market. -/
theorem scale_eq_ok {p np : Price} (h : scale p r = .ok np) (hr : 0 < r) (hne : r.num ≠ r.den) :
    np.Valid ∧ np.base.assetId = p.base.assetId ∧ np.quote.assetId = p.quote.assetId ∧ np.rate = scaledRate p.rate r := by
  unfold scale at h
  obtain ⟨_, hp, h⟩ := bind_eq_ok.mp h
  obtain ⟨_, -, h⟩ := bind_eq_ok.mp h
  replace hp := fcAssert_eq_ok.mp hp
  rw [if_neg hne] at h
  obtain ⟨⟨cp, shrinked⟩, hloop, h⟩ := bind_eq_ok.mp h
  have hcp := closest_inBounds (mul_pos hp.rate_pos hr) hloop
  unfold scaledRate
  rw [show p.rate * r = p.base.amount / p.quote.amount * r from rfl, hloop]
  dsimp only at h ⊢
  rw [show p.rate * r = p.base.amount / p.quote.amount * r from rfl] at hcp
  generalize (if shrinked = true then scaleClosest (p.base.amount / p.quote.amount * r) cp else cp) = cp at h hcp ⊢
  obtain ⟨q, hq, h⟩ := bind_eq_ok.mp h
  obtain ⟨_, -, hq⟩ := bind_eq_ok.mp hq
  replace hq := (Except.ok.inj hq).symm
  obtain ⟨_, hvalid, h⟩ := bind_eq_ok.mp h
  obtain rfl := Except.ok.inj h
  replace hvalid := fcAssert_eq_ok.mp hvalid
  have hrate : q.rate = cp := by
    rw [hq, Price.rate]
    exact Rat.num_div_den cp
  have hqvalid : q.Valid := by
    rw [hq]
    exact ⟨Rat.num_pos.mpr hcp.1, Int.natCast_pos.mpr cp.den_pos, hp.assets⟩
  have hbase : q.base.assetId = p.base.assetId := by rw [hq]
  have hquote : q.quote.assetId = p.quote.assetId := by rw [hq]
  have hlt : (q.lt p = true) = (cp < p.rate) := by
    rw [← hrate, ← Price.key_lt_iff hbase hquote]
    exact propext (Price.lt_iff hqvalid hp)
  have hgt : (p.lt q = true) = (p.rate < cp) := by
    rw [← hrate, ← Price.key_lt_iff hbase.symm hquote.symm]
    exact propext (Price.lt_iff hp hqvalid)
  simp only [hlt, hgt] at hvalid ⊢
  split_ifs at hvalid ⊢
  · exact ⟨hvalid, rfl, rfl, rfl⟩
  · exact ⟨hvalid, hbase, hquote, hrate⟩

end

end Khc.Grouped
