import Khc.Chain.Inversion
import Khc.Chain.FinancingInversion

/-! The invariant of the chain state that every step keeps: symbols are unique, a project is no market-issued
    asset and there is none without KHD, investments are numbered and made in KHD in projects, and nobody holds
    less than nothing.

It reads of an asset only its `kind` and of an investment only its `origin`, which no update of them changes, so an
operation keeps it by what it credits, what it records and what it registers. -/

namespace Khc.Chain

open Lib Database

/-- What an asset is from its creation on. -/
structure AssetKind where
  symbol : String
  project : Bool
  marketIssued : Bool

def AssetObject.kind (a : AssetObject) : AssetKind := ⟨a.symbol, a.isProjectAsset, a.isMarketIssued⟩

/-- What an investment is from its creation on. -/
structure Origin where
  id : Nat
  account : AccountId
  asset : AssetId
  khdAmount : Asset

def AssetInvestment.origin (r : AssetInvestment) : Origin :=
  ⟨r.id, r.investmentAccountId, r.investmentAssetId, r.investmentKhdAmount⟩

namespace Database

def kinds (d : Database) : List AssetKind := d.assets.map AssetObject.kind

def origins (d : Database) : List Origin := d.investments.map AssetInvestment.origin

theorem kinds_getElem? {d : Database} {q : AssetId} {a : AssetObject} (h : d.assets[q]? = some a) :
    d.kinds[q]? = some a.kind := by
  rw [kinds, List.getElem?_map, h]
  rfl

/-- A symbol that is not found is free. -/
theorem symbol_ne_of_findSymbol {d : Database} {symbol : String} (h : d.findSymbol symbol = none) :
    ∀ k ∈ d.kinds, k.symbol ≠ symbol := by
  intro k hk
  obtain ⟨a, ha, rfl⟩ := List.mem_map.mp hk
  have hne : ¬a.symbol = symbol := by simpa using List.findIdx?_eq_none_iff.mp h a ha
  exact hne

theorem mem_kinds {d : Database} {a : AssetObject} (h : a ∈ d.assets) : a.kind ∈ d.kinds := List.mem_map_of_mem h

theorem length_kinds (d : Database) : d.kinds.length = d.assets.length := List.length_map _

end Database

/-- The registered assets. -/
structure Registry (ks : List AssetKind) : Prop where
  symbols : (ks.map (·.symbol)).Nodup
  core : ∃ k, ks[0]? = some k ∧ k.symbol = grapheneSymbol ∧ k.project = false
  notBoth : ∀ k ∈ ks, k.marketIssued = true → k.project = false
  khd : (∃ k ∈ ks, k.project = true) → ∃ k ∈ ks, k.symbol = khdAssetSymbol ∧ k.marketIssued = true

/-- The recorded investments: numbered, positive and made in KHD in projects. -/
structure Recorded (ks : List AssetKind) (os : List Origin) : Prop where
  ids : os.map (·.id) = List.range os.length
  project : ∀ r ∈ os, ∃ k, ks[r.asset]? = some k ∧ k.project = true
  khd : ∀ r ∈ os, ∃ k, ks[r.khdAmount.assetId]? = some k ∧ k.symbol = khdAssetSymbol
  positive : ∀ r ∈ os, 0 < r.khdAmount.amount

/-- The counters of an asset that only grow. -/
structure AssetObject.Counted (a : AssetObject) : Prop where
  fees : 0 ≤ a.dynamicData.accumulatedFees
  raised : 0 ≤ a.dynamicData.financingConfidentialSupply
  range : InInt64 a.dynamicData.financingConfidentialSupply

structure WellFormed (d : Database) : Prop where
  registry : Registry d.kinds
  recorded : Recorded d.kinds d.origins
  balances : ∀ x q, 0 ≤ d.balances x q
  unregistered : ∀ x q, d.assets.length ≤ q → d.balances x q = 0
  counted : ∀ a ∈ d.assets, a.Counted

/-! ### The updates -/

section Updates
variable {d d' : Database} {x : AccountId} {δ : Asset} {q : AssetId} {f : AssetObject → AssetObject}

theorem kinds_modifyAsset (hf : ∀ a, (f a).kind = a.kind) : (d.modifyAsset q f).kinds = d.kinds :=
  modifyAsset_map hf

theorem kinds_addAsset (a : AssetObject) (locks : List AccountLockedPower) :
    (AssetCreate.addAsset d a locks).kinds = d.kinds ++ [a.kind] :=
  List.map_append

theorem Registry.append {ks : List AssetKind} {k : AssetKind} (h : Registry ks) (hsym : ∀ k' ∈ ks, k'.symbol ≠ k.symbol)
    (hboth : k.marketIssued = true → k.project = false)
    (hkhd : k.project = true → ∃ k ∈ ks, k.symbol = khdAssetSymbol ∧ k.marketIssued = true) : Registry (ks ++ [k]) where
  symbols := by
    rw [List.map_append, List.nodup_append]
    refine ⟨h.symbols, by simp, fun s hs t ht => ?_⟩
    obtain ⟨k', hk', rfl⟩ := List.mem_map.mp hs
    obtain rfl : t = k.symbol := by simpa using ht
    exact hsym k' hk'
  core := by
    obtain ⟨c, hc, hsymbol, hproj⟩ := h.core
    exact ⟨c, by rw [List.getElem?_append_left (List.getElem?_eq_some_iff.mp hc).1, hc], hsymbol, hproj⟩
  notBoth k' hk' := by
    rcases List.mem_append.mp hk' with hk' | hk'
    · exact h.notBoth k' hk'
    · rw [List.mem_singleton.mp hk']
      exact hboth
  khd := by
    rintro ⟨k', hk', hproj⟩
    have hold : ∃ k ∈ ks, k.symbol = khdAssetSymbol ∧ k.marketIssued = true := by
      rcases List.mem_append.mp hk' with hk' | hk'
      · exact h.khd ⟨k', hk', hproj⟩
      · rw [List.mem_singleton.mp hk'] at hproj
        exact hkhd hproj
    obtain ⟨c, hc, hc'⟩ := hold
    exact ⟨c, List.mem_append_left _ hc, hc'⟩

theorem Recorded.register {ks : List AssetKind} {os : List Origin} (h : Recorded ks os) (k : AssetKind) :
    Recorded (ks ++ [k]) os where
  ids := h.ids
  project r hr := by
    obtain ⟨c, hc, hproj⟩ := h.project r hr
    exact ⟨c, by rw [List.getElem?_append_left (List.getElem?_eq_some_iff.mp hc).1, hc], hproj⟩
  khd r hr := by
    obtain ⟨c, hc, hsym⟩ := h.khd r hr
    exact ⟨c, by rw [List.getElem?_append_left (List.getElem?_eq_some_iff.mp hc).1, hc], hsym⟩
  positive := h.positive

theorem Recorded.append {ks : List AssetKind} {os : List Origin} {r : Origin} (h : Recorded ks os)
    (hid : r.id = os.length) (hproj : ∃ k, ks[r.asset]? = some k ∧ k.project = true)
    (hkhd : ∃ k, ks[r.khdAmount.assetId]? = some k ∧ k.symbol = khdAssetSymbol) (hpos : 0 < r.khdAmount.amount) :
    Recorded ks (os ++ [r]) where
  ids := by
    rw [List.map_append, h.ids, List.length_append, List.length_singleton, List.range_succ]
    simp [hid]
  project r' hr' := by
    rcases List.mem_append.mp hr' with hr' | hr'
    · exact h.project r' hr'
    · rwa [List.mem_singleton.mp hr']
  khd r' hr' := by
    rcases List.mem_append.mp hr' with hr' | hr'
    · exact h.khd r' hr'
    · rwa [List.mem_singleton.mp hr']
  positive r' hr' := by
    rcases List.mem_append.mp hr' with hr' | hr'
    · exact h.positive r' hr'
    · rwa [List.mem_singleton.mp hr']

namespace WellFormed

theorem credit (h : WellFormed d) (hq : δ.assetId < d.assets.length) (hbal : 0 ≤ d.balances x δ.assetId + δ.amount) :
    WellFormed (d.credit x δ) where
  registry := h.registry
  recorded := h.recorded
  balances y p := by
    rw [credit_balances]
    by_cases hy : y = x ∧ p = δ.assetId
    · rw [if_pos hy, hy.1, hy.2]
      exact hbal
    · rw [if_neg hy, add_zero]
      exact h.balances y p
  unregistered y p hp := by
    have hp' : ¬(y = x ∧ p = δ.assetId) := fun hy => by
      rw [hy.2] at hp
      exact absurd hq (by simpa using hp)
    rw [credit_balances, if_neg hp', add_zero]
    exact h.unregistered y p hp
  counted := h.counted

theorem modifyAsset (h : WellFormed d) (hf : ∀ a, (f a).kind = a.kind)
    (hcount : ∀ a, d.assets[q]? = some a → a.Counted → (f a).Counted) : WellFormed (d.modifyAsset q f) where
  registry := by rw [kinds_modifyAsset hf]; exact h.registry
  recorded := by rw [kinds_modifyAsset hf]; exact h.recorded
  balances := h.balances
  unregistered y p hp := h.unregistered y p (by rwa [modifyAsset_length] at hp)
  counted a ha := by
    obtain ⟨i, hi⟩ := List.mem_iff_getElem?.mp ha
    rw [modifyAsset_getElem?] at hi
    split at hi
    · rename_i hq
      obtain ⟨b, hb, rfl⟩ := Option.map_eq_some_iff.mp hi
      exact hcount b (hq ▸ hb) (h.counted b (mem_of_getElem? hb))
    · exact h.counted a (mem_of_getElem? hi)

/-- Marks and tokens of investments do not matter. -/
theorem investments (h : WellFormed d) {l : List AssetInvestment} (hl : l.map AssetInvestment.origin = d.origins) :
    WellFormed { d with investments := l } where
  registry := h.registry
  recorded := (congrArg (Recorded d.kinds) hl).mpr h.recorded
  balances := h.balances
  unregistered := h.unregistered
  counted := h.counted

theorem markRefunded (h : WellFormed d) (ids : List Nat) : WellFormed (RefundInvestment.markRefunded d ids) := by
  refine h.investments ?_
  exact map_mark (p := fun r : AssetInvestment => r.id ∈ ids) (f := fun s => { s with returnFinancingFlag := true })
    (fun _ => rfl) d.investments

theorem markReceived (h : WellFormed d) (ids : List Nat) : WellFormed (ClaimAssetInvestment.markReceived d ids) := by
  refine h.investments ?_
  exact map_mark (p := fun r : AssetInvestment => r.id ∈ ids) (f := fun s => { s with hasReceiveToken := true })
    (fun _ => rfl) d.investments

theorem createInvestment (h : WellFormed d) {r : AssetInvestment} (hid : r.id = d.investments.length)
    (hproj : ∃ k, d.kinds[r.investmentAssetId]? = some k ∧ k.project = true)
    (hkhd : ∃ k, d.kinds[r.investmentKhdAmount.assetId]? = some k ∧ k.symbol = khdAssetSymbol)
    (hpos : 0 < r.investmentKhdAmount.amount) : WellFormed (d.createInvestment r) where
  registry := h.registry
  recorded := by
    have happ : (d.createInvestment r).origins = d.origins ++ [r.origin] := List.map_append
    rw [happ]
    exact h.recorded.append (hid.trans (List.length_map _).symm) hproj hkhd hpos
  balances := h.balances
  unregistered := h.unregistered
  counted := h.counted

theorem addAsset (h : WellFormed d) {a : AssetObject} {locks : List AccountLockedPower}
    (hsym : ∀ k ∈ d.kinds, k.symbol ≠ a.symbol) (hboth : a.isMarketIssued = true → a.isProjectAsset = false)
    (hkhd : a.isProjectAsset = true → ∃ k ∈ d.kinds, k.symbol = khdAssetSymbol ∧ k.marketIssued = true)
    (hcount : a.Counted) : WellFormed (AssetCreate.addAsset d a locks) where
  registry := by
    rw [kinds_addAsset]
    exact h.registry.append hsym hboth hkhd
  recorded := by
    rw [kinds_addAsset]
    exact h.recorded.register _
  balances := h.balances
  unregistered y p hp := h.unregistered y p (by simp [AssetCreate.addAsset] at hp; omega)
  counted b hb := by
    rcases List.mem_append.mp hb with hb | hb
    · exact h.counted b hb
    · rw [List.mem_singleton.mp hb]
      exact hcount

theorem charge (h : WellFormed d) {fee : Asset} {c : Int} (hfee : 0 ≤ fee.amount) :
    WellFormed (d.charge fee c) := by
  unfold Database.charge
  split
  · exact h
  · refine h.modifyAsset (fun _ => rfl) fun a _ ha => ⟨?_, ha.raised, ha.range⟩
    have hfees := ha.fees
    simp only
    omega

end WellFormed

end Updates

/-! ### The operations -/

section Operations
variable {d d₁ d₂ : Database} {core : Int} {now : Nat}

/-- The asset that an operation has checked is, but for its fees, the one that it is applied to. -/
theorem charged_getElem? {fee : Asset} {q : AssetId} {a a₁ : AssetObject} (h : d.assets[q]? = some a)
    (h₁ : (d.charge fee core).assets[q]? = some a₁) :
    ∃ fees pool,
      a₁ = { a with dynamicData := { a.dynamicData with accumulatedFees := fees, feePool := pool } } := by
  obtain ⟨fees, pool, h'⟩ := charge_getElem? fee core h
  exact ⟨fees, pool, Option.some.inj (h₁.symm.trans h')⟩

@[simp] theorem kinds_charge {f : Asset} {c : Int} : (d.charge f c).kinds = d.kinds := by
  unfold Database.charge
  split
  · rfl
  · exact kinds_modifyAsset fun _ => rfl

theorem AssetInvestment.Admitted.amount_pos {o : AssetInvestmentOperation} {a : AssetObject}
    (h : AssetInvestment.Admitted d o a) : 0 < AssetInvestment.investedAmount o.amount.amount a := by
  have hmax := h.belowMax
  have hpos := h.positive
  unfold AssetInvestment.investedAmount
  split <;> omega

theorem kinds_countOddFee {c : Int} : (AssetCreate.countOddFee d c).kinds = d.kinds := by
  obtain ⟨n, hodd⟩ := AssetCreate.countOddFee_eq d c
  rw [hodd]
  exact kinds_modifyAsset (f := suppliedAsset n) fun _ => rfl

theorem AssetInvestment.kind_investedAsset (head now : Nat) (asked : Int) (a : AssetObject) :
    (AssetInvestment.investedAsset head now asked a).kind = a.kind := by
  simp only [AssetObject.kind, AssetInvestment.investedAsset, AssetObject.isProjectAsset, AssetObject.isMarketIssued]
  split <;> rfl

namespace WellFormed

theorem assetInvestment (h : WellFormed d) {o : AssetInvestmentOperation} {fee : Asset} (hfee : 0 ≤ fee.amount)
    {u : Unit} (he : AssetInvestment.doEvaluate d o = .ok u)
    (ha : AssetInvestment.doApply (d.charge fee core) now o = .ok d₂) : WellFormed d₂ := by
  obtain ⟨a, hadm⟩ := AssetInvestment.doEvaluate_inv he
  obtain ⟨a₁, ha₁, hint, hcov, rfl⟩ := AssetInvestment.doApply_inv ha
  obtain ⟨fees, pool, rfl⟩ := charged_getElem? hadm.asset ha₁
  obtain ⟨k, hk, hsym⟩ := hadm.khd
  have hpos : 0 < AssetInvestment.investedAmount o.amount.amount a := hadm.amount_pos
  have hkind : ∀ b, (AssetInvestment.investedAsset (d.charge fee core).headBlockNumber now o.amount.amount b).kind =
      b.kind := AssetInvestment.kind_investedAsset _ _ _
  refine WellFormed.credit (createInvestment ((h.charge hfee).modifyAsset hkind fun b hb hcount => ?_) rfl ?_ ?_ hpos)
    ?_ ?_
  · obtain rfl := Option.some.inj (ha₁.symm.trans hb)
    exact ⟨hcount.fees, Int.add_nonneg hcount.raised (le_of_lt hpos), hint⟩
  · rw [kinds_modifyAsset hkind, kinds_charge]
    exact ⟨_, kinds_getElem? hadm.asset, hadm.project⟩
  · rw [kinds_modifyAsset hkind, kinds_charge]
    exact ⟨_, kinds_getElem? hk, hsym⟩
  · rw [createInvestment_assets, modifyAsset_length, charge_length]
    exact lt_of_getElem? hk
  · have hcov' : AssetInvestment.investedAmount o.amount.amount a ≤ _ := hcov hpos
    show 0 ≤ (d.charge fee core).balances o.accountId o.amount.assetId +
      -AssetInvestment.investedAmount o.amount.amount a
    omega

theorem issueAssetToInvestors (h : WellFormed d) {o : IssueAssetToInvestorsOperation} {fee : Asset}
    (hfee : 0 ≤ fee.amount) {e : IssueAssetToInvestors.Evaluated}
    (ha : IssueAssetToInvestors.doApply (d.charge fee core) o e = .ok d₂) : WellFormed d₂ := by
  obtain ⟨a, -, rfl⟩ := IssueAssetToInvestors.doApply_inv ha
  rw [IssueAssetToInvestors.giveTokens_eq]
  refine ((h.charge hfee).investments ?_).modifyAsset (fun _ => rfl) fun b _ hb => ⟨hb.fees, hb.raised, hb.range⟩
  refine foldl_column (fun l s => ?_) _ _
  exact map_updateKey (k := _) (f := _) fun _ => rfl

/-- A registered asset is the one that is found by its symbol. -/
theorem findSymbol (h : WellFormed d) {q : AssetId} {k : AssetKind} (hk : d.kinds[q]? = some k) :
    d.findSymbol k.symbol = some q := by
  obtain ⟨a, ha, rfl⟩ := Option.map_eq_some_iff.mp ((List.getElem?_map ..).symm.trans hk)
  have hnodup : (d.assets.map (·.symbol)).Nodup := by
    have := h.registry.symbols
    rwa [kinds, List.map_map] at this
  exact findSymbol_of_symbol hnodup ha

/-- Investments are made in the one asset with the symbol of KHD. -/
theorem khd_of_mem (h : WellFormed d) {r : AssetInvestment} (hr : r ∈ d.investments) :
    d.findSymbol khdAssetSymbol = some r.investmentKhdAmount.assetId := by
  obtain ⟨k, hk, hsym⟩ := h.recorded.khd r.origin (List.mem_map_of_mem hr)
  rw [← hsym]
  exact h.findSymbol hk

theorem amount_pos (h : WellFormed d) {r : AssetInvestment} (hr : r ∈ d.investments) :
    0 < r.investmentKhdAmount.amount :=
  h.recorded.positive r.origin (List.mem_map_of_mem hr)

theorem mem_of_refundables {x : AccountId} {p : AssetId} {r : AssetInvestment}
    (hr : r ∈ RefundInvestment.refundables d x p) : r ∈ d.investments :=
  (List.mem_filter.mp (List.mem_filter.mp hr).1).1

theorem amountOf_nonneg (h : WellFormed d) (x : AccountId) (p : AssetId) :
    0 ≤ RefundInvestment.amountOf (RefundInvestment.refundables d x p) := by
  refine List.sum_nonneg fun n hn => ?_
  obtain ⟨r, hr, rfl⟩ := List.mem_map.mp hn
  exact le_of_lt (h.amount_pos (mem_of_refundables hr))

/-- What an accepted refund does. -/
theorem refund_inv (h : WellFormed d) {o : RefundInvestmentOperation} {fee : Asset} {objs : List AssetInvestment}
    (he : RefundInvestment.doEvaluate d o = .ok objs)
    (ha : RefundInvestment.doApply (d.charge fee core) o objs = .ok d₂) :
    ∃ khd, d.findSymbol khdAssetSymbol = some khd ∧
      d₂ = RefundInvestment.refunded (d.charge fee core) o khd
        (RefundInvestment.refundables d o.accountId o.investmentAssetId) := by
  obtain ⟨rfl, a, hadm⟩ := RefundInvestment.doEvaluate_inv he
  obtain ⟨r, hr⟩ := List.exists_mem_of_ne_nil _ hadm.any
  have hkhd := h.khd_of_mem (mem_of_refundables hr)
  refine ⟨r.investmentKhdAmount.assetId, hkhd, RefundInvestment.doApply_inv (fun s hs => ?_) ha⟩
  exact Option.some.inj ((h.khd_of_mem (mem_of_refundables hs)).symm.trans hkhd)

theorem refundInvestment (h : WellFormed d) {o : RefundInvestmentOperation} {fee : Asset} (hfee : 0 ≤ fee.amount)
    {objs : List AssetInvestment} (he : RefundInvestment.doEvaluate d o = .ok objs)
    (ha : RefundInvestment.doApply (d.charge fee core) o objs = .ok d₂) : WellFormed d₂ := by
  obtain ⟨khd, hkhd, rfl⟩ := h.refund_inv he ha
  obtain ⟨k, hk, -⟩ := findSymbol_eq_some hkhd
  have hnonneg := h.amountOf_nonneg o.accountId o.investmentAssetId
  have hbal := (h.charge (c := core) hfee).balances o.accountId khd
  have hasset : WellFormed ((d.charge fee core).modifyAsset o.investmentAssetId (RefundInvestment.refundedAsset
      (RefundInvestment.amountOf (RefundInvestment.refundables d o.accountId o.investmentAssetId)))) :=
    (h.charge hfee).modifyAsset (fun _ => rfl) fun b _ hb => ⟨hb.fees, hb.raised, hb.range⟩
  refine (hasset.credit ?_ ?_).markRefunded _
  · rw [modifyAsset_length, charge_length]
    exact lt_of_getElem? hk
  · rw [modifyAsset_balances]
    simp only
    omega

theorem claimBitassetInvestment (h : WellFormed d) {o : ClaimBitassetInvestmentOperation} {fee : Asset}
    (hfee : 0 ≤ fee.amount) {e : ClaimBitassetInvestment.Evaluated}
    (he : ClaimBitassetInvestment.doEvaluate d o = .ok e)
    (ha : ClaimBitassetInvestment.doApply (d.charge fee core) o e = .ok d₂) : WellFormed d₂ := by
  obtain ⟨a, hadm⟩ := ClaimBitassetInvestment.doEvaluate_inv he
  obtain rfl := ClaimBitassetInvestment.doApply_inv ha
  obtain ⟨k, hk, -⟩ := findSymbol_eq_some hadm.khd
  have hcount := h.counted a (mem_of_getElem? hadm.asset)
  have hnonneg := hadm.amount_nonneg hcount.raised hcount.range
  have hbal := (h.charge (c := core) hfee).balances o.accountId e.khdAmount.assetId
  refine ((h.charge hfee).credit ?_ ?_).modifyAsset (fun _ => rfl) fun b _ hb => ⟨hb.fees, hb.raised, hb.range⟩
  · rw [charge_length]
    exact lt_of_getElem? hk
  · omega

theorem claimAssetInvestment (h : WellFormed d) {o : ClaimAssetInvestmentOperation} {fee : Asset}
    (hfee : 0 ≤ fee.amount) {e : ClaimAssetInvestment.Evaluated}
    (he : ClaimAssetInvestment.doEvaluate d o = .ok e)
    (ha : ClaimAssetInvestment.doApply (d.charge fee core) o e = .ok d₂) : WellFormed d₂ := by
  obtain ⟨a, hadm⟩ := ClaimAssetInvestment.doEvaluate_inv he
  obtain rfl := ClaimAssetInvestment.doApply_inv ha
  have hbal := (h.charge (c := core) hfee).balances o.accountId o.assetId
  have hpos := hadm.positive
  have hpaid : WellFormed ((d.charge fee core).credit o.accountId ⟨e.tokens, o.assetId⟩) := by
    refine (h.charge hfee).credit ?_ ?_
    · rw [charge_length]
      exact lt_of_getElem? hadm.asset
    · simp only
      omega
  have hasset : WellFormed (((d.charge fee core).credit o.accountId ⟨e.tokens, o.assetId⟩).modifyAsset o.assetId
      (ClaimAssetInvestment.receivedAsset e.tokens)) :=
    hpaid.modifyAsset (fun _ => rfl) fun b _ hb => ⟨hb.fees, hb.raised, hb.range⟩
  exact hasset.markReceived _

theorem countOddFee {c : Int} (h : WellFormed d) : WellFormed (AssetCreate.countOddFee d c) := by
  obtain ⟨n, hodd⟩ := AssetCreate.countOddFee_eq d c
  rw [hodd]
  exact h.modifyAsset (f := suppliedAsset n) (fun _ => rfl) fun b _ hb => ⟨hb.fees, hb.raised, hb.range⟩

theorem assetCreate (h : WellFormed d) {op : AssetCreateOperation} {fee : Asset} (hfee : 0 ≤ fee.amount)
    {state : ProjectState} (he : AssetCreate.doEvaluate d op = .ok state)
    (ha : AssetCreate.doApply (d.charge fee core) op core state = .ok d₂) : WellFormed d₂ := by
  have hadm := AssetCreate.doEvaluate_inv he
  obtain ⟨pool, locks, rfl⟩ := AssetCreate.doApply_inv ha
  have hwf := (h.charge (c := core) hfee).countOddFee (c := core)
  have hkinds : (AssetCreate.countOddFee (d.charge fee core) core).kinds = d.kinds :=
    kinds_countOddFee.trans kinds_charge
  refine hwf.addAsset ?_ (fun hissued => ?_) (fun hproj => ?_) ?_
  · rw [hkinds]
    exact symbol_ne_of_findSymbol hadm.symbol
  · have hnone : op.projectAssetOpts = none := by
      by_contra hne
      exact hadm.notBoth ⟨by simpa [AssetCreate.newAsset, AssetObject.isMarketIssued] using hissued,
        Option.isSome_iff_ne_none.mpr hne⟩
    simp [AssetCreate.newAsset, AssetObject.isProjectAsset, hnone]
  · cases hopts : op.projectAssetOpts with
    | none => simp [AssetCreate.newAsset, AssetObject.isProjectAsset, hopts] at hproj
    | some opts =>
      obtain ⟨id, k, hid, hk, hissued⟩ := (hadm.project opts hopts).khd
      obtain ⟨k', hk', hsymbol⟩ := findSymbol_eq_some hid
      obtain rfl : k' = k := Option.some.inj (hk'.symm.trans hk)
      rw [hkinds]
      exact ⟨k'.kind, mem_kinds (mem_of_getElem? hk), hsymbol, hissued⟩
  · exact ⟨le_refl _, le_refl _, by show InInt64 0; decide⟩

theorem assetIssue (h : WellFormed d) {o : AssetIssueOperation} {fee : Asset} (hfee : 0 ≤ fee.amount)
    (hpos : 0 < o.assetToIssue.amount) {u : Unit} (he : AssetIssue.doEvaluate d o = .ok u)
    (ha : AssetIssue.doApply (d.charge fee core) o = .ok d₂) : WellFormed d₂ := by
  obtain ⟨a, hadm⟩ := AssetIssue.doEvaluate_inv he
  obtain rfl := AssetIssue.doApply_inv ha
  have hbal := (h.charge (c := core) hfee).balances o.issueToAccount o.assetToIssue.assetId
  refine ((h.charge hfee).credit ?_ ?_).modifyAsset (fun _ => rfl) fun b _ hb => ⟨hb.fees, hb.raised, hb.range⟩
  · rw [charge_length]
    exact lt_of_getElem? hadm.asset
  · omega

theorem assetReserve (h : WellFormed d) {o : AssetReserveOperation} {fee : Asset} (hfee : 0 ≤ fee.amount)
    (hpos : 0 < o.amountToReserve.amount) {u : Unit} (he : AssetReserve.doEvaluate d o = .ok u)
    (ha : AssetReserve.doApply (d.charge fee core) o = .ok d₂) : WellFormed d₂ := by
  obtain ⟨a, hadm⟩ := AssetReserve.doEvaluate_inv he
  obtain ⟨hcov, rfl⟩ := AssetReserve.doApply_inv hpos ha
  refine ((h.charge hfee).credit ?_ ?_).modifyAsset (fun _ => rfl) fun b _ hb => ⟨hb.fees, hb.raised, hb.range⟩
  · rw [charge_length]
    exact lt_of_getElem? hadm.asset
  · simp only [Asset.neg]
    omega

theorem transfer (h : WellFormed d) {o : TransferOperation} {fee : Asset} (hfee : 0 ≤ fee.amount)
    (hpos : 0 < o.amount.amount) {u : Unit} (he : Transfer.doEvaluate d o = .ok u)
    (ha : Transfer.doApply (d.charge fee core) o = .ok d₂) : WellFormed d₂ := by
  have hadm := Transfer.doEvaluate_inv he
  obtain rfl := Transfer.doApply_inv ha
  have hcov := hadm.covered
  have hlt : o.amount.assetId < (d.charge fee core).assets.length := by
    rw [charge_length]
    exact hadm.asset
  have hpaid : WellFormed ((d.charge fee core).credit o.sender o.amount.neg) :=
    (h.charge hfee).credit hlt (by simp only [Asset.neg, charge_balances]; omega)
  exact hpaid.credit hlt (by have := hpaid.balances o.receiver o.amount.assetId; omega)

end WellFormed

end Operations

/-! ### Steps -/

section Steps
variable {d d' : Database} {now : Nat}

/-- An account pays what it holds. -/
theorem WellFormed.pay (h : WellFormed d) {x : AccountId} {fee : Asset} (hfee : 0 ≤ fee.amount)
    (hcov : 0 < fee.amount → fee.amount ≤ d.balances x fee.assetId) : WellFormed (d.credit x fee.neg) := by
  obtain ⟨amount, q⟩ := fee
  simp only at hfee hcov
  rcases hfee.lt_or_eq with hpos | rfl
  · have hbal := hcov hpos
    have hreg : q < d.assets.length := by
      by_contra hq
      rw [h.unregistered x q (not_lt.mp hq)] at hbal
      omega
    exact h.credit hreg (by simp only [Asset.neg]; omega)
  · rw [Asset.neg, neg_zero, credit_zero]
    exact h

/-- The handling of the fee around what an operation does. -/
theorem WellFormed.startEvaluate {α : Type} {op : Operation} {ev : Eval α} {ap : Database → Int → α → Eval Database}
    (hkeep : ∀ core e d₂, 0 ≤ op.fee.amount → ev = .ok e → ap (d.charge op.fee core) core e = .ok d₂ → WellFormed d₂)
    (h : d.startEvaluate op ev ap = .ok d') : WellFormed d' := by
  obtain ⟨core, e, d₂, hfee, he, ha, hbal, rfl⟩ := startEvaluate_inv h
  exact (hkeep core e d₂ hfee.nonneg he ha).pay hfee.nonneg hbal

theorem AssetIssueOperation.validate_inv {o : AssetIssueOperation} {u : Unit} (h : o.validate = .ok u) :
    0 < o.assetToIssue.amount := by
  simp only [AssetIssueOperation.validate, bind_eq_ok, fcAssert_eq_ok] at h
  obtain ⟨-, -, -, -, -, hpos, -⟩ := h
  exact hpos

theorem AssetReserveOperation.validate_inv {o : AssetReserveOperation} {u : Unit} (h : o.validate = .ok u) :
    0 < o.amountToReserve.amount := by
  simp only [AssetReserveOperation.validate, bind_eq_ok, fcAssert_eq_ok] at h
  obtain ⟨-, -, -, -, hpos⟩ := h
  exact hpos

theorem TransferOperation.validate_inv {o : TransferOperation} {u : Unit} (h : o.validate = .ok u) :
    o.sender ≠ o.receiver ∧ 0 < o.amount.amount := by
  simp only [TransferOperation.validate, bind_eq_ok, fcAssert_eq_ok] at h
  obtain ⟨-, -, -, hne, hpos⟩ := h
  exact ⟨hne, hpos⟩

theorem WellFormed.applyOperation (h : WellFormed d) {op : Operation} (ha : d.applyOperation now op = .ok d') :
    WellFormed d' := by
  unfold Database.applyOperation at ha
  obtain ⟨_, hval, ha⟩ := bind_eq_ok.mp ha
  cases op with
  | transfer o =>
    exact startEvaluate (fun _ _ _ hfee he hap => h.transfer hfee (TransferOperation.validate_inv hval).2 he hap) ha
  | assetCreate o => exact startEvaluate (fun _ _ _ hfee he hap => h.assetCreate hfee he hap) ha
  | assetUpdate o =>
    refine startEvaluate (fun _ _ _ hfee _ hap => ?_) ha
    obtain rfl := AssetUpdate.doApply_inv hap
    exact (h.charge hfee).modifyAsset (fun _ => rfl) fun b _ hb => ⟨hb.fees, hb.raised, hb.range⟩
  | assetUpdateIssuer o =>
    refine startEvaluate (fun _ _ _ hfee _ hap => ?_) ha
    obtain rfl := AssetUpdateIssuer.doApply_inv hap
    exact (h.charge hfee).modifyAsset (fun _ => rfl) fun b _ hb => ⟨hb.fees, hb.raised, hb.range⟩
  | assetIssue o =>
    exact startEvaluate (fun _ _ _ hfee he hap => h.assetIssue hfee (AssetIssueOperation.validate_inv hval) he hap) ha
  | assetReserve o =>
    exact startEvaluate (fun _ _ _ hfee he hap => h.assetReserve hfee (AssetReserveOperation.validate_inv hval) he hap)
      ha
  | assetInvestment o => exact startEvaluate (fun _ _ _ hfee he hap => h.assetInvestment hfee he hap) ha
  | issueAssetToInvestors o => exact startEvaluate (fun _ _ _ hfee _ hap => h.issueAssetToInvestors hfee hap) ha
  | refundInvestment o => exact startEvaluate (fun _ _ _ hfee he hap => h.refundInvestment hfee he hap) ha
  | claimBitassetInvestment o => exact startEvaluate (fun _ _ _ hfee he hap => h.claimBitassetInvestment hfee he hap) ha
  | claimAssetInvestment o => exact startEvaluate (fun _ _ _ hfee he hap => h.claimAssetInvestment hfee he hap) ha

/-- A round of the maintenance changes no more of a project than its state. -/
theorem updateProject_eq (head : Nat) (a : AssetObject) :
    ∃ state, updateProject head a = { a with dynamicData := { a.dynamicData with state } } := by
  unfold updateProject
  split
  · split
    · exact ⟨_, rfl⟩
    · exact ⟨a.dynamicData.state, rfl⟩
  · exact ⟨a.dynamicData.state, rfl⟩

theorem WellFormed.updateAssetProjectStates (h : WellFormed d) : WellFormed d.updateAssetProjectStates := by
  have hkinds : d.updateAssetProjectStates.kinds = d.kinds := by
    simp only [Database.updateAssetProjectStates, kinds, List.map_map]
    refine List.map_congr_left fun a _ => ?_
    obtain ⟨state, heq⟩ := updateProject_eq d.headBlockNumber a
    rw [Function.comp_apply, heq]
    rfl
  refine ⟨hkinds ▸ h.registry, hkinds ▸ h.recorded, h.balances, fun x q hq => ?_, fun a ha => ?_⟩
  · rw [← length_kinds, hkinds, length_kinds] at hq
    exact h.unregistered x q hq
  · obtain ⟨b, hb, rfl⟩ := List.mem_map.mp ha
    obtain ⟨state, heq⟩ := updateProject_eq d.headBlockNumber b
    rw [heq]
    exact ⟨(h.counted b hb).fees, (h.counted b hb).raised, (h.counted b hb).range⟩

theorem WellFormed.endBlock (h : WellFormed d) (timestamp : Nat) (maintenance : Option ChainParameters) :
    WellFormed (d.endBlock timestamp maintenance) := by
  have hhead : WellFormed { d with headBlockNumber := d.headBlockNumber + 1, headBlockTime := timestamp } :=
    ⟨h.registry, h.recorded, h.balances, h.unregistered, h.counted⟩
  cases maintenance with
  | none => exact hhead
  | some parameters =>
    have hmaint := hhead.updateAssetProjectStates
    exact ⟨hmaint.registry, hmaint.recorded, hmaint.balances, hmaint.unregistered, hmaint.counted⟩

theorem WellFormed.step (h : WellFormed d) (s : Step) : WellFormed (d.step s) := by
  cases s with
  | operation now op =>
    simp only [Database.step]
    split
    · rename_i d' ha
      exact h.applyOperation ha
    · exact h
  | endBlock timestamp maintenance => exact h.endBlock timestamp maintenance

end Steps

end Khc.Chain
