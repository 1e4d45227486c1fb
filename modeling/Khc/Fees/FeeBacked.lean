import Khc.Fees.Shares

/-! What has been accumulated for a fee-backed asset is split between the network, the buyback account and the issuer, to the last unit. -/

namespace Khc.Fees

open Lib
open Chain (AccountId AssetId Eval Error fcAssert safe InInt64 maxInt64 uint128MulDiv uint128MulDiv_part safe_eq_ok fcAssert_eq_ok)

/-- The parts of what has been accumulated -/
structure FbaSplit (total : Int) where
  network : Int
  buyback : Int
  issuer : Int
  network_nonneg : 0 ≤ network
  buyback_nonneg : 0 ≤ buyback
  issuer_nonneg : 0 ≤ issuer
  sum_eq : network + buyback + issuer = total

/-- All goes to the network. -/
def FbaSplit.burned {total : Int} (h : 0 ≤ total) : FbaSplit total := ⟨total, 0, 0, h, le_rfl, le_rfl, by omega⟩

/-- The percentages of the buyback account and of the issuer, and what is left for the network -/
def FbaSplit.of {total : Int} (h : 0 ≤ total) {buyback issuer : Nat} (hle : buyback + issuer ≤ graphene100Percent) : FbaSplit total where
  network := total - (cut total buyback + cut total issuer)
  buyback := cut total buyback
  issuer := cut total issuer
  network_nonneg := sub_nonneg.mpr (cut_add_le h hle)
  buyback_nonneg := cut_nonneg h
  issuer_nonneg := cut_nonneg h
  sum_eq := by omega

namespace Database
variable {d d' : Database} {fbaId : FbaAccumulatorId} {networkPct buybackPct issuerPct : Nat}

/-- What has been accumulated has been distributed, and nothing else has changed. -/
structure FbaDistributed (d d' : Database) (fbaId : FbaAccumulatorId) {total : Int} (s : FbaSplit total) : Prop where
  supply : d'.currentSupply = d.currentSupply - s.network
  balances : s.buyback = 0 ∧ s.issuer = 0 ∧ d'.balances = d.balances ∨
    ∃ asset b, (d.fbaAccumulators fbaId).designatedAsset.bind d.assets = some asset ∧ asset.buybackAccount = some b ∧
      ∀ x, d'.balances x = d.balances x + (if x = b then s.buyback else 0) + if x = asset.issuer then s.issuer else 0
  rest : d' = { d with
    currentSupply := d'.currentSupply
    balances := d'.balances
    fbaAccumulators := Function.update d.fbaAccumulators fbaId { d.fbaAccumulators fbaId with accumulatedFbaFees := 0 } }

theorem adjustBalance_eq_ok {id : AccountId} {amount : Int} (h : d.adjustBalance id amount = .ok d') :
    d' = { d with balances := fun x => d.balances x + if x = id then amount else 0 } := by
  unfold adjustBalance at h
  split at h
  · rename_i hzero
    obtain rfl := Except.ok.inj h
    simp [hzero]
  · obtain ⟨_, hsum, h⟩ := bind_eq_ok.mp h
    obtain ⟨-, rfl⟩ := safe_eq_ok.mp hsum
    obtain rfl := Except.ok.inj h
    congr 1
    funext x
    by_cases hx : x = id
    · rw [hx, Function.update_self, if_pos rfl]
    · rw [Function.update_of_ne hx, if_neg hx, add_zero]

theorem adjustBalance_succeeds (id : AccountId) {amount : Int} (hrange : InInt64 (d.balances id + amount)) :
    ∃ d', d.adjustBalance id amount = .ok d' := by
  unfold adjustBalance
  split
  · exact ⟨d, rfl⟩
  · exact ⟨_, bind_eq_ok.mpr ⟨_, safe_eq_ok.mpr ⟨hrange, rfl⟩, rfl⟩⟩

theorem payDesignated_eq_ok {buyback issuer : Int} {fba : FbaAccumulator} (h : payDesignated d buyback issuer fba = .ok d') :
    ∃ asset b, fba.designatedAsset.bind d.assets = some asset ∧ asset.buybackAccount = some b ∧
      d' = { d with balances := fun x => d.balances x + (if x = b then buyback else 0) + if x = asset.issuer then issuer else 0 } := by
  unfold payDesignated at h
  split at h
  · rename_i i m f g b hasset
    obtain ⟨d₁, h₁, h⟩ := bind_eq_ok.mp h
    obtain rfl := adjustBalance_eq_ok h₁
    obtain rfl := adjustBalance_eq_ok h
    exact ⟨_, b, hasset, rfl, rfl⟩
  · cases h

/-- What has been accumulated is a sum of 64 bits. -/
structure Accumulated (fba : FbaAccumulator) : Prop where
  nonneg : 0 ≤ fba.accumulatedFbaFees
  le : fba.accumulatedFbaFees ≤ maxInt64

theorem splitFbaBalance_distributed (hfees : Accumulated (d.fbaAccumulators fbaId))
    (h : d.splitFbaBalance fbaId networkPct buybackPct issuerPct = .ok d') :
    ∃ s : FbaSplit (d.fbaAccumulators fbaId).accumulatedFbaFees, FbaDistributed d d' fbaId s := by
  obtain ⟨hpos, hmax⟩ := hfees
  obtain ⟨_, hpct, h⟩ := bind_eq_ok.mp h
  replace hpct := fcAssert_eq_ok.mp hpct
  dsimp only at h
  split at h
  · rename_i hzero
    obtain rfl := Except.ok.inj h
    have hself : ∀ fba : FbaAccumulator, fba.accumulatedFbaFees = 0 → { fba with accumulatedFbaFees := 0 } = fba := by
      rintro ⟨_, _⟩ rfl
      rfl
    refine ⟨.burned hpos, ?_, .inl ⟨rfl, rfl, rfl⟩, ?_⟩
    · show d.currentSupply = d.currentSupply - (d.fbaAccumulators fbaId).accumulatedFbaFees
      rw [hzero, sub_zero]
    · rw [hself _ hzero, Function.update_eq_self]
  · obtain ⟨configured, -, h⟩ := bind_eq_ok.mp h
    cases configured with
    | false =>
      obtain ⟨_, hsupply, h⟩ := bind_eq_ok.mp h
      obtain ⟨-, rfl⟩ := safe_eq_ok.mp hsupply
      obtain rfl := Except.ok.inj h
      exact ⟨.burned hpos, rfl, .inl ⟨rfl, rfl, rfl⟩, rfl⟩
    | true =>
      have hle : buybackPct + issuerPct ≤ graphene100Percent := by omega
      have hpart : ∀ p ≤ graphene100Percent, uint128MulDiv (d.fbaAccumulators fbaId).accumulatedFbaFees p graphene100Percent =
          .ok (cut (d.fbaAccumulators fbaId).accumulatedFbaFees p) := fun p hp =>
        uint128MulDiv_part hpos hmax (Int.natCast_nonneg p) (by exact_mod_cast hp) (by decide) (by decide)
      obtain ⟨_, hbuyback, h⟩ := bind_eq_ok.mp h
      obtain rfl := Except.ok.inj (hbuyback.symm.trans (hpart buybackPct (by omega)))
      obtain ⟨_, hissuer, h⟩ := bind_eq_ok.mp h
      obtain rfl := Except.ok.inj (hissuer.symm.trans (hpart issuerPct (by omega)))
      obtain ⟨_, hsum, h⟩ := bind_eq_ok.mp h
      obtain ⟨-, rfl⟩ := safe_eq_ok.mp hsum
      obtain ⟨_, -, h⟩ := bind_eq_ok.mp h
      obtain ⟨_, hnetwork, h⟩ := bind_eq_ok.mp h
      obtain ⟨-, rfl⟩ := safe_eq_ok.mp hnetwork
      obtain ⟨_, hsupply, h⟩ := bind_eq_ok.mp h
      obtain ⟨-, rfl⟩ := safe_eq_ok.mp hsupply
      obtain ⟨d₁, h₁, h⟩ := bind_eq_ok.mp h
      obtain rfl := Except.ok.inj h
      obtain ⟨asset, b, hasset, hb, rfl⟩ := payDesignated_eq_ok h₁
      exact ⟨.of hpos hle, rfl, .inr ⟨asset, b, hasset, hb, fun x => rfl⟩, rfl⟩

/-- The issuers of the assets exist. -/
def HasIssuers (d : Database) : Prop := ∀ id asset, d.assets id = some asset → (d.accounts asset.issuer).isSome

theorem isConfigured_eq (hissuers : d.HasIssuers) (fba : FbaAccumulator) : ∃ c, fba.isConfigured d = .ok c ∧
    (c = true → ∃ asset b, fba.designatedAsset.bind d.assets = some asset ∧ asset.buybackAccount = some b) := by
  obtain ⟨fees, designated⟩ := fba
  unfold FbaAccumulator.isConfigured
  cases designated with
  | none => exact ⟨false, rfl, fun h => nomatch h⟩
  | some id =>
    cases hasset : d.assets id with
    | none => exact ⟨false, by simp [hasset], fun h => nomatch h⟩
    | some asset =>
      obtain ⟨issuer, hissuer⟩ := Option.isSome_iff_exists.mp (hissuers id asset hasset)
      simp only [hasset]
      split
      · exact ⟨false, rfl, fun h => nomatch h⟩
      · rename_i hnot
        have hbuyback : asset.buybackAccount ≠ none := fun h => hnot (.inr (.inr (.inr h)))
        obtain ⟨b, hb⟩ := Option.ne_none_iff_exists'.mp hbuyback
        have hget : d.getAccount asset.issuer = .ok issuer := by
          rw [getAccount, hissuer]
        rw [hget, ok_bind]
        split
        · exact ⟨_, rfl, fun _ => ⟨asset, b, hasset, hb⟩⟩
        · exact ⟨false, rfl, fun h => nomatch h⟩

/-- The sums fit into 64 bits. -/
structure FbaFits (d : Database) (fbaId : FbaAccumulatorId) : Prop where
  supply : (d.fbaAccumulators fbaId).accumulatedFbaFees ≤ d.currentSupply
  supply_le : d.currentSupply ≤ maxInt64
  balances : ∀ x, 0 ≤ d.balances x ∧ d.balances x + (d.fbaAccumulators fbaId).accumulatedFbaFees ≤ maxInt64

theorem payDesignated_succeeds {buyback issuer n : Int} {fba : FbaAccumulator} {asset : AssetObject} {b : AccountId}
    (hasset : fba.designatedAsset.bind d.assets = some asset) (hb : asset.buybackAccount = some b) (hbuyback : 0 ≤ buyback)
    (hissuer : 0 ≤ issuer) (hn : buyback + issuer ≤ n) (hbalances : ∀ x, 0 ≤ d.balances x ∧ d.balances x + n ≤ maxInt64) :
    ∃ d', payDesignated d buyback issuer fba = .ok d' := by
  have hrange : ∀ x m : Int, 0 ≤ x → 0 ≤ m → x + m ≤ maxInt64 → InInt64 (x + m) := by
    intro x m hx hm hle
    unfold maxInt64 at hle
    exact ⟨by omega, hle⟩
  obtain ⟨issuerId, m, f, g, _⟩ := asset
  subst hb
  obtain ⟨hpos, hle⟩ := hbalances b
  obtain ⟨hpos', hle'⟩ := hbalances issuerId
  obtain ⟨d₁, h₁⟩ := adjustBalance_succeeds (d := d) b (hrange _ buyback hpos hbuyback (by omega))
  have hbalance : d₁.balances issuerId = d.balances issuerId + if issuerId = b then buyback else 0 := by
    rw [adjustBalance_eq_ok h₁]
  have hpart : 0 ≤ (if issuerId = b then buyback else 0) ∧ (if issuerId = b then buyback else 0) ≤ buyback := by
    split <;> omega
  obtain ⟨d₂, h₂⟩ := adjustBalance_succeeds (d := d₁) issuerId (hrange _ issuer (by omega) hissuer (by omega))
  unfold payDesignated
  rw [hasset]
  exact ⟨d₂, bind_eq_ok.mpr ⟨d₁, h₁, h₂⟩⟩

/-- The accumulated fees are split, without an assertion that fails. -/
theorem splitFbaBalance_succeeds (hfees : Accumulated (d.fbaAccumulators fbaId)) (hissuers : d.HasIssuers) (hfits : d.FbaFits fbaId)
    (hpct : networkPct + buybackPct + issuerPct = graphene100Percent) :
    ∃ d', d.splitFbaBalance fbaId networkPct buybackPct issuerPct = .ok d' := by
  obtain ⟨hpos, hmax⟩ := hfees
  obtain ⟨hsupply, hsupply', hbalances⟩ := hfits
  have hle : buybackPct + issuerPct ≤ graphene100Percent := by omega
  have hsafe : ∀ x : Int, 0 ≤ x → x ≤ maxInt64 → safe x = .ok x := by
    intro x hx hx'
    unfold maxInt64 at hx'
    exact safe_eq_ok.mpr ⟨⟨by omega, hx'⟩, rfl⟩
  have hpart : ∀ p ≤ graphene100Percent, uint128MulDiv (d.fbaAccumulators fbaId).accumulatedFbaFees p graphene100Percent =
      .ok (cut (d.fbaAccumulators fbaId).accumulatedFbaFees p) := fun p hp =>
    uint128MulDiv_part hpos hmax (Int.natCast_nonneg p) (by exact_mod_cast hp) (by decide) (by decide)
  have hparts := cut_add_le hpos hle
  have hbuyback := cut_nonneg (p := buybackPct) hpos
  have hissuer := cut_nonneg (p := issuerPct) hpos
  obtain ⟨c, hconfigured, hc⟩ := isConfigured_eq hissuers (d.fbaAccumulators fbaId)
  unfold splitFbaBalance
  rw [(fcAssert_eq_ok (u := ())).mpr hpct, ok_bind]
  dsimp only
  split
  · exact ⟨d, rfl⟩
  · rw [hconfigured, ok_bind]
    cases c with
    | false => exact ⟨_, bind_eq_ok.mpr ⟨_, hsafe _ (by omega) (by omega), rfl⟩⟩
    | true =>
      obtain ⟨asset, b, hasset, hb⟩ := hc rfl
      obtain ⟨d₁, h₁⟩ := payDesignated_succeeds
        (d := { d with currentSupply := d.currentSupply - ((d.fbaAccumulators fbaId).accumulatedFbaFees -
          (cut (d.fbaAccumulators fbaId).accumulatedFbaFees buybackPct + cut (d.fbaAccumulators fbaId).accumulatedFbaFees issuerPct)) })
        hasset hb hbuyback hissuer hparts hbalances
      exact ⟨_, bind_eq_ok.mpr ⟨_, hpart buybackPct (by omega), bind_eq_ok.mpr ⟨_, hpart issuerPct (by omega),
        bind_eq_ok.mpr ⟨_, hsafe _ (by omega) (by omega), bind_eq_ok.mpr ⟨(), fcAssert_eq_ok.mpr hparts,
        bind_eq_ok.mpr ⟨_, hsafe _ (by omega) (by omega), bind_eq_ok.mpr ⟨_, hsafe _ (by omega) (by omega),
        bind_eq_ok.mpr ⟨d₁, h₁, rfl⟩⟩⟩⟩⟩⟩⟩⟩

end Database

end Khc.Fees
