import Khc.Market.Blocks
import Khc.Market.Operations

/-! The runs of the market: what every event keeps, and what holds in every state that is reached. -/

namespace Khc.Market

open Lib
open Chain (Asset Price AccountId AssetId)

namespace Database

section
variable {fuel : Nat} {d d' : Database} {mia : AssetId} {e : Event}

/-! ### Maintenance -/

theorem updateExpiredFeed_preserves {feed : PriceFeed} (h : d.updateExpiredFeed fuel mia feed = .ok d') (hd : d.Consistent) :
    Preserves d d' := by
  simp only [updateExpiredFeed, bind_eq_ok, fcAssert_eq_ok, getBitasset_eq_ok, pure_eq_ok] at h
  obtain ⟨b, hb, -, hmedian, -, hquote, -, -, ⟨called, d₁⟩, h₁, rfl⟩ := h
  have hfeed := feed_preserves hd hb hmedian hquote
  exact hfeed.trans (checkCallOrders_preserves h₁ hfeed.consistent)

theorem processBitasset_preserves (h : d.processBitasset mia = .ok d') (hd : d.Consistent) : Preserves d d' := by
  unfold processBitasset at h
  split at h
  · cases pure_eq_ok.mp h
    exact .refl hd
  · rename_i b hb
    simp only [bind_eq_ok, getBitasset_eq_ok] at h
    obtain ⟨bad, hbad, h⟩ := h
    have hvolume : Preserves d (d.modifyBitasset mia fun b => { b with forceSettledVolume := 0 }) :=
      modifyBitasset_preserves hd hb rfl rfl rfl { hd.feeds mia b hb with }
    split at h
    · rename_i hsettled
      exact hvolume.trans (processBids_preserves h hvolume.consistent hbad hsettled)
    · cases pure_eq_ok.mp h
      exact hvolume

theorem processBitassets_preserves (h : d.processBitassets = .ok d') (hd : d.Consistent) : Preserves d d' := by
  refine foldlM_invariant (I := Preserves d) (fun d₁ a d₂ h₁ h₂ => ?_) (.refl hd) h
  exact h₁.trans (processBitasset_preserves h₂ h₁.consistent)

/-! ### Events -/

/-- An event other than the creation of a limit order -/
theorem handle_preserves (h : d.handle fuel e = .ok d') (hd : d.Consistent)
    (hworth : ∀ mia b, d.bitasset mia = some b → d.worth mia = 0) (he : ∀ o, e ≠ .operation (.limitOrderCreate o)) :
    Preserves d d' := by
  cases e with
  | operation op => exact applyOperation_preserves h hd hworth fun o ho => he o (ho ▸ rfl)
  | clearExpiredOrders time => exact clearExpiredOrders_preserves h hd
  | updateExpiredFeed mia feed => exact updateExpiredFeed_preserves h hd
  | processBitassets => exact processBitassets_preserves h hd

theorem handle_keeps (h : d.handle fuel e = .ok d') (hd : d.Consistent)
    (hworth : ∀ mia b, d.bitasset mia = some b → d.worth mia = 0) : d'.Consistent ∧ Keeps d d' ∧
      ∀ a, (d'.bitasset a).map BitassetData.options = (d.bitasset a).map BitassetData.options := by
  by_cases he : ∀ o, e ≠ .operation (.limitOrderCreate o)
  · have hpreserves := handle_preserves h hd hworth he
    exact ⟨hpreserves.consistent, hpreserves.keeps, hpreserves.options⟩
  · rw [not_forall] at he
    obtain ⟨o, ho⟩ := he
    rw [not_not] at ho
    subst ho
    obtain ⟨hconsistent, hkeeps, hsame⟩ := applyLimitOrderCreate_keeps h hd
    exact ⟨hconsistent, hkeeps, fun a => by rw [hsame]⟩

/-! ### Runs -/

/-- What holds in every state: the tables are consistent, nobody has made or lost any of a market-issued asset, and the
    statistics count what is in orders. -/
structure Lawful (d : Database) : Prop extends d.Consistent where
  worth : ∀ mia b, d.bitasset mia = some b → d.worth mia = 0
  counted : ∀ account, d.miscount account = 0

theorem step_eq_some {i : Nat × Event} : d.step i = some d' ↔ d.handle i.1 i.2 = .ok d' := toOption_eq_some

theorem Lawful.step {i : Nat × Event} (hd : d.Lawful) (h : d.step i = some d') : d'.Lawful := by
  obtain ⟨hconsistent, hkeeps, hoptions⟩ := handle_keeps (step_eq_some.mp h) hd.toConsistent hd.worth
  refine { hconsistent with worth := fun mia b hb => ?_, counted := fun account => (hkeeps.counted account).trans (hd.counted account) }
  have hsome : (d.bitasset mia).isSome := by
    have := congrArg Option.isSome (hoptions mia)
    rwa [Option.isSome_map, Option.isSome_map, hb, eq_comm] at this
  obtain ⟨b', hb'⟩ := Option.isSome_iff_exists.mp hsome
  exact (hkeeps.worth mia).trans (hd.worth mia b' hb')

/-- A market before anything happens: no orders, requests and bids, and nothing of the market-issued assets -/
structure Genesis (d : Database) : Prop where
  balances : ∀ b ∈ d.balances, 0 ≤ b.balance
  fees : ∀ x ∈ d.dynamicData, 0 ≤ x.accumulatedFees
  statistics : ∀ s ∈ d.statistics, s.totalCoreInOrders = 0
  limitOrders : d.limitOrders = []
  callOrders : d.callOrders = []
  settlements : d.settlements = []
  bids : d.bids = []
  core : d.bitasset 0 = none
  bitassets : ∀ a b, d.bitasset a = some b → b.currentFeed = .none ∧ ¬b.hasSettlement ∧ b.settlementFund = 0
  issued : ∀ a b, d.bitasset a = some b → d.currentSupply a = 0 ∧ d.accumulatedFees a = 0 ∧ ∀ x ∈ d.balances, x.assetType ≠ a

/-- The states that events lead to -/
def Reachable (d : Database) : Prop := ∃ g : Database, g.Genesis ∧ Reaches step (fun _ _ => True) g d

theorem Genesis.reachable (h : d.Genesis) : d.Reachable := ⟨d, h, .refl⟩

theorem Genesis.funds_eq_zero (h : d.Genesis) (a : AssetId) : d.funds a = 0 := by
  refine List.sum_eq_zero fun x hx => ?_
  obtain ⟨y, hy, rfl⟩ := List.mem_map.mp hx
  cases y with
  | none => rfl
  | some y =>
    obtain ⟨a', ha'⟩ := List.mem_iff_getElem?.mp hy
    have hy' : d.bitasset a' = some y := by rw [bitasset, ha', Option.join_some]
    exact Asset.of_eq_zero (h.bitassets a' y hy').2.2

theorem Genesis.lawful (h : d.Genesis) : d.Lawful := by
  have hlimits := h.limitOrders
  have hcalls := h.callOrders
  have hrequests := h.settlements
  have hbids := h.bids
  have hnumbered : ∀ {α : Type} {key : α → Nat} {next : Nat} {l : List α}, l = [] → Numbered key next l := by
    rintro α key next l rfl
    exact .nil
  refine {
    solvent := ⟨h.balances, h.fees⟩
    limits := hnumbered hlimits
    forSale := by simp [hlimits]
    calls := hnumbered hcalls
    secured := by simp [hcalls]
    requests := hnumbered hrequests
    requests_nonneg := by simp [hrequests]
    bids := hnumbered hbids
    bidden := by simp [hbids]
    feeds := fun a b hb => ?_
    core := h.core
    live := fun a b hb _ => ⟨(h.bitassets a b hb).2.2, ?_⟩
    settled := fun a b hb hsettled => absurd hsettled (h.bitassets a b hb).2.1
    worth := fun a b hb => ?_
    counted := fun account => ?_ }
  · obtain ⟨hfeed, -, -⟩ := h.bitassets a b hb
    exact ⟨.inl hfeed, fun hnull => absurd (hfeed ▸ rfl) hnull⟩
  · simp [uncovered, Shift.uncovered, amount, debt, hcalls, (h.issued a b hb).1]
  · obtain ⟨hsupply, hfees, hnone⟩ := h.issued a b hb
    have hne : a ≠ 0 := by
      rintro rfl
      rw [h.core] at hb
      cases hb
    have hbalances : d.balancesOf a = 0 := by
      refine List.sum_eq_zero fun x hx => ?_
      obtain ⟨y, hy, rfl⟩ := List.mem_map.mp hx
      exact if_neg (hnone y hy)
    simp only [worth, Shift.worth, amount, total, liquid, collateral, requested, bidden, hlimits, hcalls, hrequests, hbids,
      List.map_nil, List.sum_nil, h.funds_eq_zero, hsupply, hfees, hbalances]
    simp [Asset.of, hne.symm]
  · rw [miscount_eq, coreInOrders, totalCoreInOrders, hlimits, hcalls]
    cases hs : d.statistics[account]? with
    | none => rfl
    | some s => simp [h.statistics s (List.mem_of_getElem? hs)]

theorem Reachable.lawful (h : d.Reachable) : d.Lawful := by
  obtain ⟨g, hg, hreaches⟩ := h
  exact hreaches.invariant (fun _ _ _ hd _ hs => hd.step hs) hg.lawful

theorem Reachable.of_foldlM {g : Database} {es : List (Nat × Event)} (hg : g.Genesis) (h : es.foldlM step g = some d) : d.Reachable :=
  ⟨g, hg, .of_foldlM h fun _ _ _ => trivial⟩

end

/-! ### A market -/

/-- Options without market fees, which allow a global settlement -/
def plainOptions : Chain.AssetOptions := ⟨1000000000000000, 0, 0, 0x20, 0, ⟨⟨1, 0⟩, ⟨1, 0⟩⟩, [], [], [], [], ""⟩

/-- A market of the core asset, of an asset that it backs, and of an asset of account 1 -/
def fresh : Database where
  headBlockTime := 0
  parameters := ⟨fun _ => 0, fun _ => zero_nonneg, 0⟩
  accounts := List.replicate 4 ⟨none, [], []⟩
  assets := List.replicate 3 ⟨3, plainOptions, zero_nonneg⟩
  statistics := List.replicate 4 {}
  balances := [⟨0, 0, 100000⟩, ⟨1, 0, 100000⟩, ⟨3, 0, 100000⟩, ⟨1, 2, 5000⟩]
  dynamicData := [⟨300000, 0, 0⟩, {}, ⟨5000, 0, 0⟩]
  bitassets := [none, some ⟨⟨86400, 1, 10, 0, 2000, 0⟩, .none, false, 0, Price.default, 0⟩, none]
  limitOrders := []
  callOrders := []
  settlements := []
  bids := []
  nextLimitOrder := 0
  nextCallOrder := 0
  nextSettlement := 0
  nextBid := 0
  applied := []

theorem fresh_genesis : fresh.Genesis where
  balances := by decide
  fees := by decide
  statistics := by decide
  limitOrders := rfl
  callOrders := rfl
  settlements := rfl
  bids := rfl
  core := rfl
  bitassets
  | 1, _, rfl => ⟨rfl, by decide, rfl⟩
  | 0, _, h | 2, _, h | _ + 3, _, h => by cases h
  issued
  | 1, _, rfl => ⟨rfl, rfl, by decide⟩
  | 0, _, h | 2, _, h | _ + 3, _, h => by cases h

/-- The issuer publishes a feed with a maximum short squeeze ratio of 110 percent. -/
def publish (p : Price) (maintenanceCollateralRatio : Nat) : Nat × Event :=
  ⟨20, .operation (.assetPublishFeed ⟨⟨0, 0⟩, 3, 1, ⟨p, maintenanceCollateralRatio, 1100⟩⟩)⟩

def borrow (account : AccountId) (collateral debt : Int) : Nat × Event :=
  ⟨20, .operation (.callOrderUpdate ⟨⟨0, 0⟩, account, ⟨collateral, 0⟩, ⟨debt, 1⟩, none⟩)⟩

def sell (account : AccountId) (amountToSell minToReceive : Asset) : Nat × Event :=
  ⟨20, .operation (.limitOrderCreate ⟨⟨0, 0⟩, account, amountToSell, minToReceive, 1000, false⟩)⟩

end Database

end Khc.Market
