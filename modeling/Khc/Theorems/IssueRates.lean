import Khc.Project.Events
import Khc.Project.Run

/-! The rates that the tokens of a project are issued at: the one of KHD stays what it was when the project was created,
    and only an update of the asset puts another core exchange rate in force. -/

namespace Khc.Chain

open Lib Database

/-! ### Prices -/

/-- A price of positive amounts between the two assets -/
structure Price.Converts (p : Price) (q r : AssetId) : Prop where
  assets : (p.base.assetId = q ∧ p.quote.assetId = r) ∨ (p.base.assetId = r ∧ p.quote.assetId = q)
  base : 0 < p.base.amount
  quote : 0 < p.quote.amount

/-- The amounts are those of a `share_type`. -/
structure Price.Fits (p : Price) : Prop where
  base : InInt64 p.base.amount
  quote : InInt64 p.quote.amount

/-- What an amount of the asset comes to at the price, rounded down -/
def Price.worth (p : Price) (q : AssetId) (amount : Int) : Int :=
  if q = p.base.assetId then amount * p.quote.amount / p.base.amount else amount * p.base.amount / p.quote.amount

theorem toU128_mul {x y : Int} (hx : 0 ≤ x) (hx' : InInt64 x) (hy : 0 ≤ y) (hy' : InInt64 y) : toU128 (toU128 x * y) = x * y := by
  rw [toU128_of_nonneg hx hx']
  have hle : x * y ≤ 9223372036854775807 * 9223372036854775807 := mul_le_mul hx'.2 hy'.2 hy (by norm_num)
  exact Int.emod_eq_of_lt (mul_nonneg hx hy) (by omega)

/-- A product with a price is what the amount comes to. -/
theorem Asset.mul_worth {a r : Asset} {p : Price} {q : AssetId} (h : a.mul p = .ok r) (hp : p.Converts a.assetId q) :
    r.assetId = q ∧ (0 ≤ a.amount → InInt64 a.amount → p.Fits → r.amount = p.worth a.assetId a.amount) := by
  unfold Asset.mul at h
  split at h
  · rename_i hbase
    simp only [bind_eq_ok, fcAssert_eq_ok, pure_eq_ok] at h
    obtain ⟨-, -, -, -, rfl⟩ := h
    refine ⟨?_, fun hnonneg hrange hfits => ?_⟩
    · rcases hp.assets with ⟨-, hquote⟩ | ⟨hq, hquote⟩
      · exact hquote
      · exact hquote.trans (hbase.trans hq)
    · dsimp only
      rw [Price.worth, if_pos hbase, toU128_mul hnonneg hrange hp.quote.le hfits.quote]
  · rename_i hbase
    split at h
    · rename_i hquote
      simp only [bind_eq_ok, fcAssert_eq_ok, pure_eq_ok] at h
      obtain ⟨-, -, -, -, rfl⟩ := h
      refine ⟨?_, fun hnonneg hrange hfits => ?_⟩
      · rcases hp.assets with ⟨hq, -⟩ | ⟨hq, -⟩
        · exact absurd hq.symm hbase
        · exact hq
      · dsimp only
        rw [Price.worth, if_neg hbase, toU128_mul hnonneg hrange hp.base.le hfits.base]
    · exact (throw_ne_ok.mp h).elim

/-! ### The rates of an asset -/

/-- The step puts another core exchange rate of the asset in force. -/
def Database.Reprices (d : Database) (p : AssetId) (s : Step) : Prop :=
  ∃ now o a, s = .operation now (.assetUpdate o) ∧ d.accepts now (.assetUpdate o) = true ∧ o.assetToUpdate = p ∧
    d.assets[p]? = some a ∧ o.newOptions.coreExchangeRate ≠ a.options.coreExchangeRate

/-- What the tokens of the asset are issued at, and whether it is a project -/
def AssetObject.rates (a : AssetObject) : Bool × Price × Price :=
  (a.isProjectAsset, a.projOptions.khdExchangeRate, a.options.coreExchangeRate)

section
variable {d d' d₀ : Database} {p : AssetId} {a : AssetObject} {s : Step} {steps : List Step} {now : Nat}

theorem AssetObject.fixed_rates : AssetObject.Fixed AssetObject.rates where
  dynamicData _ _ := rfl
  issuer _ _ := rfl
  invested a head now asked := by
    unfold AssetInvestment.investedAsset AssetObject.rates AssetObject.isProjectAsset
    dsimp only
    split <;> rfl

theorem rates_of_map {β : Type} {g : AssetObject → β} (hmap : d'.assets.map g = d.assets.map g) (ha : d.assets[p]? = some a) :
    ∃ a', d'.assets[p]? = some a' ∧ g a' = g a := by
  have hget : (d'.assets.map g)[p]? = (d.assets.map g)[p]? := by rw [hmap]
  rw [List.getElem?_map, List.getElem?_map, ha, Option.map_some, Option.map_eq_some_iff] at hget
  exact hget

/-- A step keeps the rates of an asset, but an update of the asset replaces its core exchange rate. -/
theorem rates_step (h : WellFormed d) (ha : d.assets[p]? = some a) (s : Step) : ∃ a', (d.step s).assets[p]? = some a' ∧
    (a'.rates = a.rates ∨ ∃ now o, s = .operation now (.assetUpdate o) ∧ d.accepts now (.assetUpdate o) = true ∧
      o.assetToUpdate = p ∧ a'.rates = (a.isProjectAsset, a.projOptions.khdExchangeRate, o.newOptions.coreExchangeRate)) := by
  cases s with
  | endBlock timestamp maintenance =>
    cases maintenance with
    | none => exact ⟨a, ha, .inl rfl⟩
    | some parameters =>
      have hassets : (d.step (.endBlock timestamp (some parameters))).assets = d.assets.map (updateProject (d.headBlockNumber + 1)) := rfl
      obtain ⟨state, hupdate⟩ := updateProject_eq (d.headBlockNumber + 1) a
      refine ⟨_, by rw [hassets, List.getElem?_map, ha]; rfl, .inl ?_⟩
      rw [hupdate]
      rfl
  | operation now op =>
    cases hs : d.applyOperation now op with
    | error e =>
      simp only [Database.step, hs]
      exact ⟨a, ha, .inl rfl⟩
    | ok d' =>
      have hacc : d.accepts now op = true := accepts_iff.mpr ⟨d', hs⟩
      simp only [Database.step, hs]
      by_cases hcreate : ∃ o, op = .assetCreate o
      · obtain ⟨o, rfl⟩ := hcreate
        obtain ⟨state, pool, -, hmap⟩ := map_assetCreate AssetObject.fixed_rates hs
        have hget : (d'.assets.map AssetObject.rates)[p]? = some a.rates := by
          rw [hmap, List.getElem?_append_left ((List.length_map _).symm ▸ (List.getElem?_eq_some_iff.mp ha).1), List.getElem?_map, ha]
          rfl
        rw [List.getElem?_map, Option.map_eq_some_iff] at hget
        obtain ⟨a', ha', heq⟩ := hget
        exact ⟨a', ha', .inl heq⟩
      · by_cases hupdate : ∃ o, op = .assetUpdate o
        · obtain ⟨o, rfl⟩ := hupdate
          obtain ⟨core, hassets⟩ := assetUpdate_inv hs
          obtain ⟨fees, pool, hcharge⟩ := charge_getElem? o.fee core ha
          rw [hassets, modifyAsset_getElem?, hcharge]
          split
          · rename_i hp
            exact ⟨_, rfl, .inr ⟨now, o, rfl, hacc, hp, rfl⟩⟩
          · exact ⟨_, rfl, .inl rfl⟩
        · have hmap := map_applyOperation AssetObject.fixed_rates h (fun o ho => hcreate ⟨o, ho⟩) (fun o ho => hupdate ⟨o, ho⟩) hs
          obtain ⟨a', ha', heq⟩ := rates_of_map hmap ha
          exact ⟨a', ha', .inl heq⟩

/-! ### What the rates stay -/

theorem validate_of_accepts {op : Operation} (hacc : d.accepts now op = true) : op.validate = .ok () := by
  obtain ⟨d', hs⟩ := accepts_iff.mp hacc
  unfold Database.applyOperation at hs
  obtain ⟨u, hval, -⟩ := bind_eq_ok.mp hs
  exact hval

/-- The core exchange rate of checked options is one of the core asset. -/
theorem AssetOptions.validate_rate {opts : AssetOptions} (h : opts.validate = .ok ()) :
    0 < opts.coreExchangeRate.base.amount ∧ 0 < opts.coreExchangeRate.quote.amount ∧
      (opts.coreExchangeRate.base.assetId = 0 ∨ opts.coreExchangeRate.quote.assetId = 0) := by
  simp only [AssetOptions.validate, Price.validate, bind_eq_ok, fcAssert_eq_ok] at h
  obtain ⟨-, -, -, -, -, -, -, -, -, -, -, -, -, -, -, ⟨-, hbase, -, hquote, -⟩, -, hcore, -⟩ := h
  exact ⟨hbase, hquote, hcore⟩

/-- A new asset has a rate between itself and the core asset, -/
theorem AssetCreateOperation.validate_converts {o : AssetCreateOperation} (h : o.validate = .ok ()) (id : AssetId) :
    (AssetCreate.rateOf o.commonOptions.coreExchangeRate id).Converts 0 id := by
  simp only [AssetCreateOperation.validate, bind_eq_ok, fcAssert_eq_ok] at h
  obtain ⟨_, -, _, -, _, hopts, -⟩ := h
  obtain ⟨hbase, hquote, hcore⟩ := AssetOptions.validate_rate hopts
  unfold AssetCreate.rateOf
  split
  · rename_i hzero
    exact ⟨.inl ⟨hzero, rfl⟩, hbase, hquote⟩
  · rename_i hzero
    exact ⟨.inr ⟨rfl, hcore.resolve_left hzero⟩, hbase, hquote⟩

/-- and an update gives it another of these. -/
theorem AssetUpdateOperation.validate_converts {o : AssetUpdateOperation} (h : o.validate = .ok ()) :
    o.newOptions.coreExchangeRate.Converts 0 o.assetToUpdate := by
  simp only [AssetUpdateOperation.validate, bind_eq_ok, fcAssert_eq_ok] at h
  obtain ⟨_, -, _, -, _, hopts, dummy, hdummy, hcore⟩ := h
  obtain ⟨hbase, hquote, -⟩ := AssetOptions.validate_rate hopts
  refine ⟨?_, hbase, hquote⟩
  unfold Asset.mul at hdummy
  split at hdummy
  · rename_i heq
    simp only [bind_eq_ok, pure_eq_ok] at hdummy
    obtain ⟨-, -, -, -, rfl⟩ := hdummy
    exact .inr ⟨heq.symm, hcore⟩
  · split at hdummy
    · rename_i heq
      simp only [bind_eq_ok, pure_eq_ok] at hdummy
      obtain ⟨-, -, -, -, rfl⟩ := hdummy
      exact .inl ⟨hcore, heq.symm⟩
    · exact (throw_ne_ok.mp hdummy).elim

/-- The core exchange rate of each project is one between the core asset and its token. -/
def Database.CoreRates (d : Database) : Prop :=
  ∀ (p : AssetId) (a : AssetObject), d.assets[p]? = some a → a.isProjectAsset = true → a.options.coreExchangeRate.Converts 0 p

theorem coreRates_create {o : AssetCreateOperation} (h : d.CoreRates) (hs : d.applyOperation now (.assetCreate o) = .ok d') :
    d'.CoreRates := by
  obtain ⟨state, pool, hval, hmap⟩ := map_assetCreate AssetObject.fixed_rates hs
  intro p a ha hproj
  have hget : (d'.assets.map AssetObject.rates)[p]? = some a.rates := by rw [List.getElem?_map, ha]; rfl
  rw [hmap] at hget
  rcases Nat.lt_or_ge p d.assets.length with hlt | hge
  · rw [List.getElem?_append_left ((List.length_map _).symm ▸ hlt), List.getElem?_map, Option.map_eq_some_iff] at hget
    obtain ⟨b, hb, heq⟩ := hget
    simp only [AssetObject.rates, Prod.mk.injEq] at heq
    exact heq.2.2 ▸ h p b hb (heq.1.trans hproj)
  · rw [List.getElem?_append_right (by rwa [List.length_map]), List.getElem?_singleton, List.length_map] at hget
    split at hget
    · rename_i hlast
      have hrate : (AssetCreate.newAsset d o state pool).options.coreExchangeRate = a.options.coreExchangeRate :=
        congrArg (fun r : Bool × Price × Price => r.2.2) (Option.some.inj hget)
      obtain rfl : p = d.assets.length := Nat.le_antisymm (Nat.sub_eq_zero_iff_le.mp hlast) hge
      exact hrate ▸ AssetCreateOperation.validate_converts hval d.assets.length
    · cases hget

theorem coreRates_step (hwf : WellFormed d) (h : d.CoreRates) (s : Step) : (d.step s).CoreRates := by
  by_cases hcreate : ∃ now o d', s = .operation now (.assetCreate o) ∧ d.applyOperation now (.assetCreate o) = .ok d'
  · obtain ⟨now, o, d', rfl, hs⟩ := hcreate
    have hstep : d.step (.operation now (.assetCreate o)) = d' := by rw [Database.step, hs]
    exact hstep ▸ coreRates_create h hs
  · have hkinds : (d.step s).kinds = d.kinds := by
      cases s with
      | endBlock timestamp maintenance => exact kinds_endBlock timestamp maintenance
      | operation now op =>
        rw [Database.step]
        cases hs : d.applyOperation now op with
        | error e => rfl
        | ok d' => exact kinds_applyOperation hwf (fun o ho => hcreate ⟨now, o, d', ho ▸ rfl, ho ▸ hs⟩) hs
    intro p a' ha' hproj
    have hlt : p < d.assets.length := by
      rw [← length_kinds, ← hkinds, length_kinds]
      exact (List.getElem?_eq_some_iff.mp ha').1
    obtain ⟨b, hb, hrates⟩ := rates_step hwf (List.getElem?_eq_getElem hlt) s
    obtain rfl := Option.some.inj (ha'.symm.trans hb)
    rcases hrates with heq | ⟨now, o, rfl, hacc, rfl, heq⟩
    · simp only [AssetObject.rates, Prod.mk.injEq] at heq
      exact heq.2.2 ▸ h p _ (List.getElem?_eq_getElem hlt) (heq.1.symm.trans hproj)
    · simp only [AssetObject.rates, Prod.mk.injEq] at heq
      exact heq.2.2 ▸ AssetUpdateOperation.validate_converts (validate_of_accepts hacc)

theorem Start.coreRates (h₀ : Start d₀) (steps : List Step) : (d₀.run steps).CoreRates :=
  (run_invariant_all (I := fun d => WellFormed d ∧ d.CoreRates) (fun _ s h => ⟨h.1.step s, coreRates_step h.1 h.2 s⟩)
    ⟨h₀.wellFormed, fun _ a ha hproj => absurd ((h₀.noProject a (mem_of_getElem? ha)).symm.trans hproj) (by decide)⟩).2

/-- The rate of KHD stays what it was, and so does the core exchange rate as long as it is not replaced. -/
theorem rates_run (h : WellFormed d) (ha : d.assets[p]? = some a) (steps : List Step) : ∃ a', (d.run steps).assets[p]? = some a' ∧
    a'.isProjectAsset = a.isProjectAsset ∧ a'.projOptions.khdExchangeRate = a.projOptions.khdExchangeRate ∧
    (Along Database.step (fun d s => ¬d.Reprices p s) d steps → a'.options.coreExchangeRate = a.options.coreExchangeRate) := by
  induction steps using List.reverseRecOn with
  | nil => exact ⟨a, ha, rfl, rfl, fun _ => rfl⟩
  | append_singleton steps s ih =>
    obtain ⟨b, hb, hproj, hkhd, hcore⟩ := ih
    obtain ⟨c, hc, hrates⟩ := rates_step (h.run steps) hb s
    refine ⟨c, by simpa only [Database.run, run_snoc] using hc, ?_⟩
    rcases hrates with heq | ⟨now, o, rfl, hacc, hp, heq⟩
    · simp only [AssetObject.rates, Prod.mk.injEq] at heq
      exact ⟨heq.1.trans hproj, heq.2.1.trans hkhd, fun hC => heq.2.2.trans (hcore (along_snoc.mp hC).1)⟩
    · simp only [AssetObject.rates, Prod.mk.injEq] at heq
      refine ⟨heq.1.trans hproj, heq.2.1.trans hkhd, fun hC => ?_⟩
      obtain ⟨hbefore, hlast⟩ := along_snoc.mp hC
      rw [heq.2.2, ← hcore hbefore]
      by_contra hne
      exact hlast ⟨now, o, b, rfl, hacc, hp, hb, hne⟩

/-! ### The issue -/

/-- What an issue to the investors creates is the raised KHD, converted at the rate of KHD to some asset and from it at the
    core exchange rate. -/
theorem issue_total {o : IssueAssetToInvestorsOperation} {e : IssueAssetToInvestors.Evaluated}
    (h : IssueAssetToInvestors.doEvaluate d o = .ok e) : ∃ a khd core tokens, d.assets[o.investmentAssetId]? = some a ∧
      d.findSymbol khdAssetSymbol = some khd ∧
      (Asset.mk a.dynamicData.financingConfidentialSupply khd).mul a.projOptions.khdExchangeRate = .ok core ∧
      core.mul a.options.coreExchangeRate = .ok tokens ∧ e.totalIssue = tokens.amount := by
  unfold IssueAssetToInvestors.doEvaluate at h
  simp only [bind_eq_ok, getAsset_eq_ok, pure_eq_ok] at h
  obtain ⟨-, -, a, ha, _, -, -, -, -, -, _, -, -, -, khd, hkhd, -, -, -, -, core, hcore, tokens, htokens, totals, -, -, -, rest, -,
    amounts, -, -, -, supply, -, -, -, rfl⟩ := h
  exact ⟨a, khd, core, tokens, ha, getAssetId_eq_ok.mp hkhd, hcore, htokens, rfl⟩

end

/-- The tokens that are issued for a project in the second state, at rates from the first one on. -/
structure IssuedAtRates (d d' : Database) (p : AssetId) (steps : List Step) (total : Int) (a a' : AssetObject) (khd : AssetId) :
    Prop where
  before : d.assets[p]? = some a
  after : d'.assets[p]? = some a'
  symbol : d'.findSymbol khdAssetSymbol = some khd
  khdRate : a'.projOptions.khdExchangeRate = a.projOptions.khdExchangeRate
  coreRate : Along Database.step (fun d s => ¬d.Reprices p s) d steps → a'.options.coreExchangeRate = a.options.coreExchangeRate
  converted : ∃ core tokens, (Asset.mk a'.dynamicData.financingConfidentialSupply khd).mul a.projOptions.khdExchangeRate = .ok core ∧
    core.mul a'.options.coreExchangeRate = .ok tokens ∧ total = tokens.amount ∧
    (a.projOptions.khdExchangeRate.Converts khd 0 → tokens.assetId = p ∧
      (a.projOptions.khdExchangeRate.Fits → a'.options.coreExchangeRate.Fits → total =
        a'.options.coreExchangeRate.worth 0 (a.projOptions.khdExchangeRate.worth khd a'.dynamicData.financingConfidentialSupply)))

/-- From each accepted investment on, the tokens of a project are issued at its rate of KHD and the core exchange rate, which
    is the same as long as no update of the asset replaces it; they are of the project if the rate of KHD is one between
    KHD and the core asset. -/
theorem issue_atRates {d₀ : Database} (h₀ : Start d₀) {before between : List Step} {now : Nat} {i : AssetInvestmentOperation}
    {o : IssueAssetToInvestorsOperation} {e : IssueAssetToInvestors.Evaluated}
    (hinvest : (d₀.run before).accepts now (.assetInvestment i) = true) (hp : o.investmentAssetId = i.investmentAssetId)
    (hissue : IssueAssetToInvestors.doEvaluate ((d₀.run before).run (.operation now (.assetInvestment i) :: between)) o = .ok e) :
    ∃ a a' khd, IssuedAtRates (d₀.run before) ((d₀.run before).run (.operation now (.assetInvestment i) :: between))
      i.investmentAssetId (.operation now (.assetInvestment i) :: between) e.totalIssue a a' khd := by
  have hwf := h₀.wellFormed.run before
  obtain ⟨d', hs⟩ := accepts_iff.mp hinvest
  simp only [Database.applyOperation, bind_eq_ok] at hs
  obtain ⟨-, -, hs⟩ := hs
  obtain ⟨paid, u, d₂, -, he, -, -, -⟩ := startEvaluate_inv hs
  obtain ⟨a, hadm⟩ := AssetInvestment.doEvaluate_inv he
  obtain ⟨a', ha', hproj, hkhdRate, hcoreRate⟩ := rates_run hwf hadm.asset (.operation now (.assetInvestment i) :: between)
  obtain ⟨b, khd, core, tokens, hb, hkhd, hcore, htokens, htotal⟩ := issue_total hissue
  obtain rfl : b = a' := Option.some.inj (hb.symm.trans (hp ▸ ha'))
  refine ⟨a, b, khd, hadm.asset, ha', hkhd, hkhdRate, hcoreRate, core, tokens, hkhdRate ▸ hcore, htokens, htotal, fun hconverts => ?_⟩
  have hruns : (d₀.run before).run (.operation now (.assetInvestment i) :: between) =
      d₀.run (before ++ .operation now (.assetInvestment i) :: between) := run_append.symm
  have hrates : b.options.coreExchangeRate.Converts 0 i.investmentAssetId :=
    h₀.coreRates (before ++ .operation now (.assetInvestment i) :: between) _ b (hruns ▸ ha') (hproj.trans hadm.project)
  have hcounted := (hwf.run (.operation now (.assetInvestment i) :: between)).counted b (mem_of_getElem? ha')
  obtain ⟨hcoreId, hcoreWorth⟩ := Asset.mul_worth (hkhdRate ▸ hcore) hconverts
  obtain ⟨htokensId, htokensWorth⟩ := Asset.mul_worth htokens (hcoreId.symm ▸ hrates)
  have hbounds := Asset.mul_bounds hcore
  have hrange : InInt64 core.amount := ⟨by omega, by have := hbounds.2; unfold maxShareSupply at this; omega⟩
  refine ⟨htokensId, fun hfits hfits' => ?_⟩
  rw [htotal, htokensWorth hbounds.1 hrange hfits', hcoreId, hcoreWorth hcounted.raised hcounted.range hfits]

section
open Sample

/-- Account 1 updates the options of its asset. -/
def Sample.update (newOptions : AssetOptions) : Step := .operation 0 (.assetUpdate ⟨noFee, 1, 2, none, newOptions⟩)

/-- After the investment, twice as many tokens are for a unit of the core asset. -/
def Sample.repriced : List Step :=
  [update { options with coreExchangeRate := ⟨⟨1, 0⟩, ⟨2000, 2⟩⟩ }, maintain, maintain, maintain]

/-- The rate of KHD is one to the token. -/
def Sample.direct : ProjectAssetOptions := { offering with khdExchangeRate := ⟨⟨1, 1⟩, ⟨1000, 2⟩⟩ }

/-- An update of the asset after the investment doubles what is issued, and a rate of KHD to the token makes it an amount of
    the core asset. -/
theorem issue_notAtRates :
    (¬∀ (d₀ : Database) (before between : List Step) (now : Nat) (i : AssetInvestmentOperation) (o : IssueAssetToInvestorsOperation)
      (e : IssueAssetToInvestors.Evaluated) (a a' : AssetObject) (khd : AssetId), Start d₀ →
      (d₀.run before).accepts now (.assetInvestment i) = true → o.investmentAssetId = i.investmentAssetId →
      IssueAssetToInvestors.doEvaluate ((d₀.run before).run (.operation now (.assetInvestment i) :: between)) o = .ok e →
      (d₀.run before).assets[i.investmentAssetId]? = some a →
      ((d₀.run before).run (.operation now (.assetInvestment i) :: between)).assets[i.investmentAssetId]? = some a' →
      ((d₀.run before).run (.operation now (.assetInvestment i) :: between)).findSymbol khdAssetSymbol = some khd →
      e.totalIssue = a.options.coreExchangeRate.worth 0
        (a.projOptions.khdExchangeRate.worth khd a'.dynamicData.financingConfidentialSupply)) ∧
    (¬∀ (d₀ : Database) (steps : List Step) (o : IssueAssetToInvestorsOperation) (e : IssueAssetToInvestors.Evaluated) (a : AssetObject)
      (khd : AssetId) (core tokens : Asset), Start d₀ → IssueAssetToInvestors.doEvaluate (d₀.run steps) o = .ok e →
      (d₀.run steps).assets[o.investmentAssetId]? = some a → (d₀.run steps).findSymbol khdAssetSymbol = some khd →
      (Asset.mk a.dynamicData.financingConfidentialSupply khd).mul a.projOptions.khdExchangeRate = .ok core →
      core.mul a.options.coreExchangeRate = .ok tokens → tokens.assetId = o.investmentAssetId) := by
  refine ⟨fun h => ?_, fun h => ?_⟩
  · have hissue : (IssueAssetToInvestors.doEvaluate ((genesis.run [create offering, maintain]).run (invest 2 100 :: repriced))
        ⟨noFee, 1, 2⟩).toOption.map (·.totalIssue) = some 200000 := by decide +kernel
    obtain ⟨e, he, htotal⟩ := Option.map_eq_some_iff.mp hissue
    have hrates := h genesis [create offering, maintain] repriced 0 ⟨noFee, 2, 2, ⟨100, 1⟩⟩ ⟨noFee, 1, 2⟩ e _ _ 1 genesis_start
      (by decide +kernel) rfl (toOption_eq_some.mp he) (Option.some_get (by decide +kernel)).symm
      (Option.some_get (by decide +kernel)).symm (by decide +kernel)
    rw [htotal] at hrates
    exact absurd hrates (by decide +kernel)
  · have hissue : (IssueAssetToInvestors.doEvaluate (genesis.run [create direct, maintain, invest 2 200, maintain])
        ⟨noFee, 1, 2⟩).toOption.isSome := by decide +kernel
    obtain ⟨e, he⟩ := Option.isSome_iff_exists.mp hissue
    have htokens := h genesis [create direct, maintain, invest 2 200, maintain] ⟨noFee, 1, 2⟩ e _ 1 ⟨200000, 2⟩ ⟨200, 0⟩ genesis_start
      (toOption_eq_some.mp he) (Option.some_get (by decide +kernel)).symm (by decide +kernel) (by decide +kernel) (by decide +kernel)
    exact absurd htokens (by decide)

/-- Nothing is updated between the investment and the issue. -/
theorem issue_atRates_kept : ∃ e : IssueAssetToInvestors.Evaluated, e.totalIssue = 200000 ∧ ∃ a a' khd,
    IssuedAtRates (genesis.run [create offering, maintain]) ((genesis.run [create offering, maintain]).run [invest 2 200, maintain]) 2
      [invest 2 200, maintain] e.totalIssue a a' khd := by
  have hissue : (IssueAssetToInvestors.doEvaluate ((genesis.run [create offering, maintain]).run [invest 2 200, maintain])
      ⟨noFee, 1, 2⟩).toOption.map (·.totalIssue) = some 200000 := by decide +kernel
  obtain ⟨e, he, htotal⟩ := Option.map_eq_some_iff.mp hissue
  exact ⟨e, htotal, issue_atRates genesis_start (by decide +kernel) rfl (toOption_eq_some.mp he)⟩

end

end Khc.Chain
