import Khc.Chain.Locks
import Khc.Project.Run

/-! The power of accounts: what they have locked for projects is covered by what they have, as long as the power that a
    new project declares is the issuer's own and not locked already. -/

namespace Khc.Chain

open Lib Database

theorem locked_of_sameLocks {p p' : PowerDatabase} (h : SameLocks p.chain p'.chain) (x : AccountId) : p'.locked x = p.locked x := by
  rw [PowerDatabase.locked, PowerDatabase.locked, h.locks, h.head]

namespace PowerDatabase
variable {d d' d₀ : PowerDatabase} {steps : List PowerStep}

/-- What is locked is covered by what is owned. -/
structure Backed (d : PowerDatabase) : Prop where
  covered : ∀ x, d.locked x ≤ d.owned x
  locks : ∀ l ∈ d.chain.lockedPower, 0 ≤ l.powerValue

/-- More power and the same locks -/
theorem Backed.grow (h : d.Backed) (hlocks : SameLocks d.chain d'.chain) (howned : ∀ x, d.owned x ≤ d'.owned x) : d'.Backed where
  covered x := by
    rw [locked_of_sameLocks hlocks]
    exact (h.covered x).trans (howned x)
  locks := hlocks.locks ▸ h.locks

/-- The end of a block only unlocks. -/
theorem Backed.endBlock (h : d.Backed) (timestamp : Nat) (maintenance : Option ChainParameters) :
    Backed { d with chain := d.chain.endBlock timestamp maintenance } := by
  obtain ⟨f, hf, hlocks, hhead⟩ := endBlock_locks d.chain timestamp maintenance
  refine ⟨fun x => le_trans ?_ (h.covered x), fun l hl => ?_⟩
  · rw [locked, locked, hlocks, hhead, List.map_map]
    refine List.sum_le_sum fun l hl => ?_
    have hpos := h.locks l hl
    have hlater : (d.chain.headBlockNumber : Int) < (d.chain.headBlockNumber + 1 : Nat) := by omega
    rcases hf l with heq | heq
    · rw [Function.comp_apply, heq]
      split_ifs with hafter hbefore
      · exact le_refl _
      · exact absurd ⟨hafter.1, hlater.trans hafter.2⟩ hbefore
      · exact hpos
      · exact le_refl _
    · have hopen : ¬((f l).owner = x ∧ ((d.chain.headBlockNumber + 1 : Nat) : Int) < (f l).unlockHeight) := by
        rw [heq]
        rintro ⟨-, hlt⟩
        exact absurd hlt (by simp; omega)
      rw [Function.comp_apply, if_neg hopen]
      split_ifs
      · exact hpos
      · exact le_refl _
  · rw [hlocks] at hl
    obtain ⟨l', hl', rfl⟩ := List.mem_map.mp hl
    rcases hf l' with heq | heq <;> rw [heq] <;> exact h.locks l' hl'

theorem createPower_eq_ok {p : AccountPower} (h : d.createPower p = .ok d') :
    d' = { d with accountPower := d.accountPower ++ [p] } := by
  simp only [createPower, bind_eq_ok, pure_eq_ok] at h
  obtain ⟨_, -, rfl⟩ := h
  rfl

theorem owned_createPower {p : AccountPower} (hp : 0 ≤ p.powerValue) (x : AccountId) :
    d.owned x ≤ owned { d with accountPower := d.accountPower ++ [p] } x := by
  rw [owned, owned, List.map_append, List.sum_append, List.map_singleton, List.sum_singleton]
  split_ifs
  · exact le_add_of_nonneg_right hp
  · exact (add_zero _).ge

/-- Each conversion whose power is read back as it is gives power. -/
theorem powerAmount_nonneg {amount power : Int} {khdPrice : Price} (h : PowerConvert.powerAmount amount khdPrice = .ok power)
    (hsmall : PowerConvert.converted amount khdPrice < 2 ^ 63) : 0 ≤ power := by
  unfold PowerConvert.powerAmount at h
  split at h
  · exact (throw_ne_ok.mp h).elim
  · dsimp only at h
    split at h
    · exact (throw_ne_ok.mp h).elim
    · rw [if_neg (not_le.mpr hsmall), pure_eq_ok] at h
      exact h ▸ Int.emod_nonneg _ (by norm_num)

theorem getBitassetData_eq_ok {a : AssetObject} {b : AssetBitassetData} (h : a.getBitassetData = .ok b) : a.bitassetData = some b := by
  unfold AssetObject.getBitassetData at h
  split at h
  · rename_i hb
    cases h
    exact hb
  · cases h

/-- A conversion adds to the power of its account. -/
theorem doApply_grows {o : PowerConvertOperation} (h : PowerConvert.doApply d o = .ok d')
    (hsmall : ∀ a b, d.chain.assets[o.referAmount.assetId]? = some a → a.bitassetData = some b →
      PowerConvert.converted o.amount.amount b.settlementPrice < 2 ^ 63) :
    SameLocks d.chain d'.chain ∧ ∀ x, d.owned x ≤ d'.owned x := by
  simp only [PowerConvert.doApply, bind_eq_ok, getAsset_eq_ok, pure_eq_ok, fcAssert_eq_ok] at h
  obtain ⟨a, ha, b, hb, -, -, power, hpower, -, -, _, -, -, -, d₁, hd₁, -, -, chain₁, h₁, chain₂, h₂, rfl⟩ := h
  have hnonneg : 0 ≤ power := powerAmount_nonneg hpower (hsmall a b ha (getBitassetData_eq_ok hb))
  have hgrow : d₁.chain = d.chain ∧ ∀ x, d.owned x ≤ d₁.owned x := by
    split at hd₁
    · rename_i p hp
      simp only [bind_eq_ok, safe_eq_ok] at hd₁
      obtain ⟨_, ⟨-, rfl⟩, hd₁⟩ := hd₁
      cases hd₁
      refine ⟨rfl, fun x => ?_⟩
      rw [owned, owned, sum_map_updateFirst (fun p => if p.owner = x then p.powerValue else 0) hp]
      split_ifs
      · rw [add_sub_cancel_left]
        exact le_add_of_nonneg_right hnonneg
      · rw [sub_self, add_zero]
    · obtain rfl := createPower_eq_ok hd₁
      exact ⟨rfl, owned_createPower hnonneg⟩
  exact ⟨hgrow.1 ▸ (adjustBalance_sameLocks h₁).trans (adjustBalance_sameLocks h₂), hgrow.2⟩

/-- A new project declares power that its issuer has and has not locked, and a conversion does not come to 2 ^ 63 or more. -/
def backs (d : PowerDatabase) : PowerStep → Prop
  | .chain (.operation _ (.assetCreate o)) => o.projectAssetOpts.isSome → ∃ power, o.power = some power ∧
    power ≤ d.owned o.issuer - d.locked o.issuer
  | .powerConvert o => ∀ a b, d.chain.assets[o.referAmount.assetId]? = some a → a.bitassetData = some b →
    PowerConvert.converted o.amount.amount b.settlementPrice < 2 ^ 63
  | _ => True

/-- The power of the accounts before any of it is locked -/
structure Start (d : PowerDatabase) : Prop where
  power : ∀ p ∈ d.accountPower, 0 ≤ p.powerValue
  locks : d.chain.lockedPower = []

theorem Start.backed (h : d.Start) : d.Backed where
  covered x := by
    rw [locked, h.locks]
    refine List.sum_nonneg fun y hy => ?_
    obtain ⟨p, hp, rfl⟩ := List.mem_map.mp hy
    split
    · exact h.power p hp
    · exact le_refl 0
  locks l hl := by rw [h.locks] at hl; cases hl

/-- A new project locks power that its issuer has and has not locked. -/
theorem Backed.create {now : Nat} {o : AssetCreateOperation} {chain : Database} (h : d.Backed)
    (hs : d.backs (.chain (.operation now (.assetCreate o))))
    (hlocks : (o.projectAssetOpts = none ∧ SameLocks d.chain chain) ∨ ∃ opts power, o.projectAssetOpts = some opts ∧ o.power = some power ∧
      0 ≤ power ∧ chain.lockedPower = d.chain.lockedPower ++ [AssetCreate.newLock d.chain o opts power] ∧
      chain.headBlockNumber = d.chain.headBlockNumber) : Backed { d with chain } := by
  rcases hlocks with ⟨-, hsame⟩ | ⟨opts, power, hopts, hpower, hnonneg, hlocks, hhead⟩
  · exact h.grow hsame fun x => le_refl _
  · obtain ⟨power', hpower', hcovered⟩ := hs (by rw [hopts]; rfl)
    obtain rfl := Option.some.inj (hpower.symm.trans hpower')
    refine ⟨fun x => ?_, fun l hl => ?_⟩
    · have hadded : PowerDatabase.locked { d with chain } x = d.locked x +
          if o.issuer = x ∧ (d.chain.headBlockNumber : Int) < (AssetCreate.newLock d.chain o opts power).unlockHeight then power else 0 := by
        rw [locked, locked, hlocks, hhead, List.map_append, List.sum_append, List.map_singleton, List.sum_singleton]
        rfl
      rw [hadded]
      have hold := h.covered x
      split_ifs with hlock
      · rw [← hlock.1]
        exact le_sub_iff_add_le'.mp hcovered
      · rwa [add_zero]
    · rw [hlocks, List.mem_append, List.mem_singleton] at hl
      rcases hl with hl | rfl
      · exact h.locks l hl
      · exact hnonneg

theorem Backed.step {s : PowerStep} (h : d.Backed) (hs : d.backs s) : (d.step s).Backed := by
  cases s with
  | chain s =>
    cases s with
    | endBlock timestamp maintenance => exact h.endBlock timestamp maintenance
    | operation now op =>
      rw [PowerDatabase.step, Database.step]
      split
      · rename_i d' happly
        by_cases hop : ∃ o, op = .assetCreate o
        · obtain ⟨o, rfl⟩ := hop
          exact h.create hs (create_locks happly)
        · exact h.grow (applyOperation_sameLocks (fun o ho => hop ⟨o, ho⟩) happly) fun x => le_refl _
      · exact h
  | accountCreate a =>
    rw [PowerDatabase.step]
    cases hcreate : AccountCreate.doApply d a with
    | error _ => exact h
    | ok d' =>
      obtain rfl := createPower_eq_ok hcreate
      exact h.grow ⟨rfl, rfl⟩ (owned_createPower (by exact (by decide : (0 : Int) ≤ 50 * grapheneBlockchainPrecision)))
  | powerConvert o =>
    rw [PowerDatabase.step]
    cases hconvert : PowerConvert.apply d o with
    | error _ => exact h
    | ok d' =>
      simp only [PowerConvert.apply, bind_eq_ok, pure_eq_ok] at hconvert
      obtain ⟨_, -, _, -, core, -, _, -, _, -, chain₁, h₁, d₁, hd₁, chain₂, h₂, rfl⟩ := hconvert
      have hfee := convertFee_sameLocks h₁
      obtain ⟨hsame, howned⟩ := doApply_grows hd₁ fun a b ha hb => by
        rw [convertFee_inv h₁] at ha
        obtain ⟨c, fees, pool, hc, rfl⟩ := of_charge_getElem? ha
        exact hs c b hc hb
      exact h.grow (hfee.trans (hsame.trans (adjustBalance_sameLocks h₂))) howned
  | publishFeed asset p => exact ⟨h.covered, h.locks⟩

end PowerDatabase

/-- As long as each new project declares power that its issuer has and has not locked, no account has locked more than it
    has. -/
theorem power_backed {d₀ : PowerDatabase} {steps : List PowerStep} (h₀ : d₀.Start)
    (hC : Along PowerDatabase.step PowerDatabase.backs d₀ steps) (x : AccountId) :
    (run PowerDatabase.step d₀ steps).locked x ≤ (run PowerDatabase.step d₀ steps).owned x :=
  (run_invariant (I := PowerDatabase.Backed) (fun _ _ h hs => h.step hs) hC h₀.backed).covered x

section
open Sample

/-- The sample chain, where account 1 has the given power -/
def Sample.withPower (power : Int) : PowerDatabase := ⟨genesis, [⟨1, .register, power⟩], 0⟩

theorem Sample.withPower_start {power : Int} (h : 0 ≤ power) : (withPower power).Start where
  power p hp := by
    rw [List.mem_singleton.mp hp]
    exact h
  locks := rfl

/-- Account 1 has the power of a new account, and locks 200 times as much. -/
theorem power_unbacked : ¬∀ (d₀ : PowerDatabase) (steps : List PowerStep), d₀.Start → ∀ x,
    (run PowerDatabase.step d₀ steps).locked x ≤ (run PowerDatabase.step d₀ steps).owned x := by
  intro h
  exact absurd (h (withPower (50 * grapheneBlockchainPrecision)) [.chain (create offering)] (withPower_start (by decide)) 1)
    (by decide +kernel)

/-- Account 1 locks what it has, and a new account gets some. -/
def Sample.locksAll : List PowerStep := [.chain (create offering), .chain maintain, .accountCreate ⟨none, [], []⟩]

theorem power_backed_created : (run PowerDatabase.step (withPower 1000000000000) locksAll).locked 1 = 1000000000000 ∧
    ∀ x, (run PowerDatabase.step (withPower 1000000000000) locksAll).locked x ≤
      (run PowerDatabase.step (withPower 1000000000000) locksAll).owned x := by
  have hC : Along PowerDatabase.step PowerDatabase.backs (withPower 1000000000000) locksAll :=
    ⟨fun _ => ⟨_, rfl, by decide +kernel⟩, trivial, trivial, trivial⟩
  exact ⟨by decide +kernel, power_backed (withPower_start (by decide)) hC⟩

end

end Khc.Chain
