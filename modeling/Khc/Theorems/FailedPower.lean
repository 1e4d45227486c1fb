import Khc.Chain.Locks
import Khc.Project.Events
import Khc.Project.Run

/-! The power that is locked for a project that fails: maintenance looks for it under the issuer that the project has
    then, so it is given back as long as that is the creator. -/

namespace Khc.Chain

open Lib Database

/-- The operation registers project `p` in the run. -/
def Created (d₀ : Database) (steps : List Step) (p : AssetId) (o : AssetCreateOperation) : Prop :=
  ∃ t now, At Database.step d₀ steps t (.operation now (.assetCreate o)) ∧ t.accepts now (.assetCreate o) = true ∧
    o.projectAssetOpts.isSome ∧ t.assets.length = p

/-- The locks of an account for a project -/
def Database.locksFor (d : Database) (x : AccountId) (p : AssetId) : List AccountLockedPower :=
  d.lockedPower.filter fun l => l.owner = x ∧ l.assetId = p

/-- The project is moved to `financing_failue`. -/
def Fails (d d' : Database) (p : AssetId) : Prop :=
  ∃ a a', d.assets[p]? = some a ∧ d'.assets[p]? = some a' ∧ a.dynamicData.state ≠ .financingFailue ∧
    a'.dynamicData.state = .financingFailue

/-- The step from the state after the run releases what the creators of the projects that fail have locked for them, and
    changes no other lock. -/
structure Released (d₀ : Database) (steps : List Step) (d' : Database) : Prop where
  released : ∀ p o, Created d₀ steps p o → Fails (d₀.run steps) d' p →
    ∃ l, (d₀.run steps).locksFor o.issuer p = [l] ∧ o.power = some l.powerValue ∧
      d'.locksFor o.issuer p = [{ l with unlockHeight := 0 }]
  others : ∀ (i : Nat) l, (d₀.run steps).lockedPower[i]? = some l →
    (∀ o, Created d₀ steps l.assetId o → Fails (d₀.run steps) d' l.assetId → l.owner ≠ o.issuer) → d'.lockedPower[i]? = some l

section
variable {d d' d₀ : Database} {p : AssetId} {o : AssetCreateOperation} {s : Step} {steps : List Step} {now : Nat}
  {a : AssetObject} {l : AccountLockedPower} {timestamp : Nat} {parameters : ChainParameters}

/-! ### Failing -/

theorem nextProjectState_other {head : Nat} {opts : ProjectAssetOptions} {dyn : AssetDynamicData} :
    nextProjectState head opts false dyn ≠ some .financingFailue := by
  intro h
  simp only [nextProjectState, Bool.false_eq_true, if_false] at h
  split_ifs at h
  cases h

theorem failsNow_iff {head : Nat} : failsNow head a = true ↔ a.isProjectAsset = true ∧ a.projOptions.financingType = khcPublicOffering ∧
    nextProjectState head a.projOptions true a.dynamicData = some .financingFailue := by
  simp only [failsNow, Bool.and_eq_true, beq_iff_eq, and_assoc]

theorem updateProject_failed {head : Nat} (hstate : a.dynamicData.state ≠ .financingFailue) :
    (updateProject head a).dynamicData.state = .financingFailue ↔ failsNow head a = true := by
  rw [failsNow_iff, updateProject]
  by_cases hproj : a.isProjectAsset = true
  · rw [if_pos hproj]
    by_cases htype : a.projOptions.financingType = khcPublicOffering
    · rw [show (a.projOptions.financingType == khcPublicOffering) = true from beq_iff_eq.mpr htype]
      cases nextProjectState head a.projOptions true a.dynamicData with
      | none => simpa using hstate
      | some state => simp [hproj, htype]
    · rw [show (a.projOptions.financingType == khcPublicOffering) = false from beq_eq_false_iff_ne.mpr htype]
      refine iff_of_false (fun h => ?_) fun h => htype h.2.1
      cases hnext : nextProjectState head a.projOptions false a.dynamicData with
      | none =>
        rw [hnext] at h
        exact hstate h
      | some state =>
        rw [hnext] at h
        exact nextProjectState_other (hnext.trans (congrArg some h))
  · rw [if_neg hproj]
    exact iff_of_false hstate fun h => hproj h.1

theorem state_of_failsNow {head : Nat} (h : failsNow head a = true) : a.dynamicData.state ≠ .financingFailue := by
  obtain ⟨-, -, hnext⟩ := failsNow_iff.mp h
  intro hstate
  rw [nextProjectState, if_pos (.inr hstate)] at hnext
  cases hnext

theorem fails_endBlock : Fails d (d.endBlock timestamp (some parameters)) p ↔
    ∃ a, d.assets[p]? = some a ∧ failsNow (d.headBlockNumber + 1) a = true := by
  have hassets : (d.endBlock timestamp (some parameters)).assets = d.assets.map (updateProject (d.headBlockNumber + 1)) := rfl
  constructor
  · rintro ⟨a, a', ha, ha', hstate, hfail⟩
    rw [hassets, List.getElem?_map, ha] at ha'
    obtain rfl := Option.some.inj ha'
    exact ⟨a, ha, (updateProject_failed hstate).mp hfail⟩
  · rintro ⟨a, ha, hfail⟩
    have hstate := state_of_failsNow hfail
    exact ⟨a, _, ha, by rw [hassets, List.getElem?_map, ha]; rfl, hstate, (updateProject_failed hstate).mpr hfail⟩

/-! ### The lock of a project -/

theorem Created.snoc (h : Created d₀ steps p o) (s : Step) : Created d₀ (steps ++ [s]) p o := by
  obtain ⟨t, now, hat, h⟩ := h
  exact ⟨t, now, hat.snoc s, h⟩

/-- A project of a run is registered before its last step or by it. -/
theorem created_snoc (h : Created d₀ (steps ++ [s]) p o) : Created d₀ steps p o ∨
    ∃ now, s = .operation now (.assetCreate o) ∧ (d₀.run steps).accepts now (.assetCreate o) = true ∧
      o.projectAssetOpts.isSome ∧ (d₀.run steps).assets.length = p := by
  obtain ⟨t, now, hat, h⟩ := h
  rcases at_snoc.mp hat with hat | ⟨rfl, rfl⟩
  · exact .inl ⟨t, now, hat, h⟩
  · exact .inr ⟨now, rfl, h⟩

theorem length_step (h : WellFormed d) (s : Step) : d.assets.length ≤ (d.step s).assets.length := by
  rw [← length_kinds, ← length_kinds]
  by_contra hlt
  obtain ⟨k, hk⟩ : ∃ k, d.kinds[(d.step s).kinds.length]? = some k :=
    ⟨_, List.getElem?_eq_getElem (not_le.mp hlt)⟩
  have hkept := (List.getElem?_eq_some_iff.mp (kind_step h hk s)).1
  exact lt_irrefl _ hkept

theorem owner_unlockPower {assets : List AssetObject} {head : Nat} : (unlockPower assets head l).owner = l.owner := by
  rcases unlockPower_cases assets head l with heq | heq <;> rw [heq]

theorem assetId_unlockPower {assets : List AssetObject} {head : Nat} : (unlockPower assets head l).assetId = l.assetId := by
  rcases unlockPower_cases assets head l with heq | heq <;> rw [heq]

/-- What a step does to the locks: the creation of a project adds one of its creator for it, and each other step keeps
    them all, or unlocks some. -/
theorem step_locks (d : Database) (s : Step) :
    (∃ now o opts power, s = .operation now (.assetCreate o) ∧ d.accepts now (.assetCreate o) = true ∧
      o.projectAssetOpts = some opts ∧ o.power = some power ∧
      (d.step s).lockedPower = d.lockedPower ++ [AssetCreate.newLock d o opts power]) ∨
    (∃ f : AccountLockedPower → AccountLockedPower, (∀ l, f l = l ∨ f l = { l with unlockHeight := 0 }) ∧
      (d.step s).lockedPower = d.lockedPower.map f ∧
      ∀ now o, s = .operation now (.assetCreate o) → d.accepts now (.assetCreate o) = true → o.projectAssetOpts = none) := by
  cases s with
  | endBlock timestamp maintenance =>
    obtain ⟨f, hf, hlocks, -⟩ := endBlock_locks d timestamp maintenance
    exact .inr ⟨f, hf, hlocks, fun _ _ h => by cases h⟩
  | operation now op =>
    cases hs : d.applyOperation now op with
    | error e =>
      refine .inr ⟨id, fun _ => .inl rfl, by simp only [Database.step, hs, List.map_id], fun now' o h hacc => ?_⟩
      cases h
      obtain ⟨d', hd'⟩ := accepts_iff.mp hacc
      rw [hs] at hd'
      cases hd'
    | ok d' =>
      simp only [Database.step, hs]
      by_cases hop : ∃ o, op = .assetCreate o
      · obtain ⟨o, rfl⟩ := hop
        rcases create_locks hs with ⟨hopts, hsame⟩ | ⟨opts, power, hopts, hpower, -, hlocks, -⟩
        · refine .inr ⟨id, fun _ => .inl rfl, hsame.locks.trans (List.map_id _).symm, fun now' o' h _ => ?_⟩
          cases h
          exact hopts
        · exact .inl ⟨now, o, opts, power, rfl, accepts_iff.mpr ⟨d', hs⟩, hopts, hpower, hlocks⟩
      · have hsame := applyOperation_sameLocks (fun o ho => hop ⟨o, ho⟩) hs
        refine .inr ⟨id, fun _ => .inl rfl, hsame.locks.trans (List.map_id _).symm, fun now' o' h _ => ?_⟩
        cases h
        exact absurd ⟨o', rfl⟩ hop

/-- Each lock is one of a creator for the project. -/
theorem created_of_lock (hlocks : d₀.lockedPower = []) (hl : l ∈ (d₀.run steps).lockedPower) :
    ∃ o, Created d₀ steps l.assetId o ∧ l.owner = o.issuer := by
  induction steps using List.reverseRecOn generalizing l with
  | nil =>
    rw [Database.run, run_nil, hlocks] at hl
    cases hl
  | append_singleton steps s ih =>
    simp only [Database.run, run_snoc] at hl
    rcases step_locks (d₀.run steps) s with ⟨now, o, opts, power, rfl, hacc, hopts, hpower, hnew⟩ | ⟨f, hf, hkept, -⟩
    · rw [hnew, List.mem_append, List.mem_singleton] at hl
      rcases hl with hl | rfl
      · obtain ⟨o', ho', howner⟩ := ih hl
        exact ⟨o', ho'.snoc _, howner⟩
      · exact ⟨o, ⟨_, now, at_last, hacc, by rw [hopts]; rfl, rfl⟩, rfl⟩
    · rw [hkept] at hl
      obtain ⟨l', hl', rfl⟩ := List.mem_map.mp hl
      obtain ⟨o', ho', howner⟩ := ih hl'
      rcases hf l' with heq | heq <;> rw [heq] <;> exact ⟨o', ho'.snoc _, howner⟩

theorem length_create {o : AssetCreateOperation} (hacc : d.accepts now (.assetCreate o) = true) :
    (d.step (.operation now (.assetCreate o))).assets.length = d.assets.length + 1 := by
  obtain ⟨d', hd'⟩ := accepts_iff.mp hacc
  obtain ⟨k, hk⟩ := kinds_assetCreate hd'
  rw [Database.step, hd', ← length_kinds, ← length_kinds, hk, List.length_append, List.length_singleton]

theorem Created.registered (h₀ : WellFormed d₀) (h : Created d₀ steps p o) : p < (d₀.run steps).assets.length := by
  induction steps using List.reverseRecOn with
  | nil =>
    obtain ⟨t, now, ⟨before, after, hnil, -⟩, -⟩ := h
    simp at hnil
  | append_singleton steps s ih =>
    simp only [Database.run, run_snoc]
    rcases created_snoc h with h | ⟨now, rfl, hacc, -, rfl⟩
    · exact (ih h).trans_le (length_step (h₀.run steps) s)
    · exact (length_create hacc).symm ▸ Nat.lt_succ_self _

/-- What a project's creator has locked for it is the only lock for it. -/
theorem Created.lock (h₀ : WellFormed d₀) (hlocks : d₀.lockedPower = []) (h : Created d₀ steps p o) :
    ∃ l, (d₀.run steps).lockedPower.filter (·.assetId = p) = [l] ∧ l.owner = o.issuer ∧ o.power = some l.powerValue := by
  induction steps using List.reverseRecOn with
  | nil =>
    obtain ⟨t, now, ⟨before, after, hnil, -⟩, -⟩ := h
    simp at hnil
  | append_singleton steps s ih =>
    simp only [Database.run, run_snoc]
    rcases created_snoc h with hold | ⟨now, rfl, hacc, hsome, rfl⟩
    · obtain ⟨l, hl, howner, hpower⟩ := ih hold
      rcases step_locks (d₀.run steps) s with ⟨now, o', opts, power, rfl, hacc, hopts, hpower', hnew⟩ | ⟨f, hf, hkept, -⟩
      · have hne : (AssetCreate.newLock (d₀.run steps) o' opts power).assetId ≠ p := (hold.registered h₀).ne'
        refine ⟨l, ?_, howner, hpower⟩
        rw [hnew, List.filter_append, hl, List.filter_singleton, decide_eq_false hne]
        rfl
      · have hfields : ∀ l, (f l).assetId = l.assetId ∧ (f l).owner = l.owner ∧ (f l).powerValue = l.powerValue := fun l => by
          rcases hf l with heq | heq <;> rw [heq] <;> exact ⟨rfl, rfl, rfl⟩
        refine ⟨f l, ?_, (hfields l).2.1.trans howner, hpower.trans (congrArg some (hfields l).2.2.symm)⟩
        have hcomp : (fun l : AccountLockedPower => decide (l.assetId = p)) ∘ f = fun l => decide (l.assetId = p) :=
          funext fun l => by rw [Function.comp_apply, (hfields l).1]
        rw [hkept, List.filter_map, hcomp, hl, List.map_singleton]
    · obtain ⟨opts, hopts⟩ := Option.isSome_iff_exists.mp hsome
      rcases step_locks (d₀.run steps) (.operation now (.assetCreate o)) with
        ⟨now', o', opts', power, heq, -, hopts', hpower, hnew⟩ | ⟨f, -, -, hnone⟩
      · cases heq
        refine ⟨AssetCreate.newLock (d₀.run steps) o opts' power, ?_, rfl, hpower⟩
        have hbefore : (d₀.run steps).lockedPower.filter (·.assetId = (d₀.run steps).assets.length) = [] := by
          refine List.filter_eq_nil_iff.mpr fun l hl => ?_
          obtain ⟨o', ho', -⟩ := created_of_lock hlocks hl
          simpa using (ho'.registered h₀).ne
        rw [hnew, List.filter_append, hbefore, List.filter_singleton]
        simp [AssetCreate.newLock]
      · rw [hnone now o rfl hacc] at hopts
        cases hopts

theorem locksFor_eq (d : Database) (x : AccountId) (p : AssetId) :
    d.locksFor x p = (d.lockedPower.filter (·.assetId = p)).filter (·.owner = x) := by
  rw [Database.locksFor, List.filter_filter]
  refine List.filter_congr fun l _ => ?_
  rw [Bool.decide_and]

/-- The locks for a project are unlocked by its failure if its issuer has them. -/
theorem locksFor_endBlock (ha : d.assets[p]? = some a) (hfail : failsNow (d.headBlockNumber + 1) a = true)
    (hl : d.lockedPower.filter (·.assetId = p) = [l]) :
    (d.endBlock timestamp (some parameters)).locksFor l.owner p =
      [if l.owner = a.issuer then { l with unlockHeight := 0 } else l] := by
  have hlocks : (d.endBlock timestamp (some parameters)).lockedPower =
      d.lockedPower.map (unlockPower d.assets (d.headBlockNumber + 1)) := rfl
  have hcomp : (fun l : AccountLockedPower => decide (l.assetId = p)) ∘ unlockPower d.assets (d.headBlockNumber + 1) =
      fun l => decide (l.assetId = p) := funext fun l => by rw [Function.comp_apply, assetId_unlockPower]
  have hmem : l ∈ d.lockedPower.filter (·.assetId = p) := hl ▸ List.mem_singleton_self l
  have hasset : l.assetId = p := by simpa using (List.mem_filter.mp hmem).2
  rw [locksFor_eq, hlocks, List.filter_map, hcomp, hl, List.map_singleton, List.filter_singleton, owner_unlockPower,
    decide_eq_true rfl]
  simp only [unlockPower, hasset, ha, hfail, true_and, cond_true]

theorem locksFor_of_filter {x : AccountId} (hl : d.lockedPower.filter (·.assetId = p) = [l]) (howner : l.owner = x) :
    d.locksFor x p = [l] := by
  rw [locksFor_eq, hl, List.filter_singleton, decide_eq_true howner]
  rfl

end

/-- A maintenance releases what the creators of the projects that fail have locked for them, and no other lock, if and
    only if each of these projects has its creator as its issuer then, or the lock is open already. -/
theorem failed_released_iff {d₀ : Database} (h₀ : Start d₀) (hlocks : d₀.lockedPower = []) (steps : List Step) (timestamp : Nat)
    (parameters : ChainParameters) :
    Released d₀ steps ((d₀.run steps).step (.endBlock timestamp (some parameters))) ↔
      ∀ p o a, Created d₀ steps p o → (d₀.run steps).assets[p]? = some a →
        failsNow ((d₀.run steps).headBlockNumber + 1) a = true →
        a.issuer = o.issuer ∨ ∀ l ∈ (d₀.run steps).locksFor o.issuer p, l.unlockHeight = 0 := by
  constructor
  · intro h p o a hcreated ha hfail
    obtain ⟨l, hl, howner, -⟩ := hcreated.lock h₀.wellFormed hlocks
    have hlocksFor := locksFor_of_filter hl howner
    obtain ⟨l', hl', -, hreleased⟩ := h.released p o hcreated (fails_endBlock.mpr ⟨a, ha, hfail⟩)
    obtain rfl := List.singleton_inj.mp (hlocksFor.symm.trans hl')
    rw [← howner, Database.step, locksFor_endBlock ha hfail hl, List.singleton_inj] at hreleased
    by_cases hissuer : l.owner = a.issuer
    · exact .inl (hissuer.symm.trans howner)
    · refine .inr fun l' hl' => ?_
      rw [hlocksFor, List.mem_singleton] at hl'
      rw [if_neg hissuer] at hreleased
      rw [hl', hreleased]
  · intro h
    refine ⟨fun p o hcreated hfails => ?_, fun i l hi hother => ?_⟩
    · obtain ⟨a, ha, hfail⟩ := fails_endBlock.mp hfails
      obtain ⟨l, hl, howner, hpower⟩ := hcreated.lock h₀.wellFormed hlocks
      have hlocksFor := locksFor_of_filter hl howner
      refine ⟨l, hlocksFor, hpower, ?_⟩
      rw [← howner, Database.step, locksFor_endBlock ha hfail hl, List.singleton_inj]
      split_ifs with hissuer
      · rfl
      · rcases h p o a hcreated ha hfail with heq | hopen
        · exact absurd (howner.trans heq.symm) hissuer
        · have hzero := hopen l (hlocksFor ▸ List.mem_singleton_self l)
          rw [← hzero]
    · have hlocked : ((d₀.run steps).endBlock timestamp (some parameters)).lockedPower =
          (d₀.run steps).lockedPower.map (unlockPower (d₀.run steps).assets ((d₀.run steps).headBlockNumber + 1)) := rfl
      rw [Database.step, hlocked, List.getElem?_map, hi, Option.map_some, unlockPower]
      cases ha : (d₀.run steps).assets[l.assetId]? with
      | none => rfl
      | some a =>
        dsimp only
        split_ifs with hunlocks
        · obtain ⟨o, hcreated, howner⟩ := created_of_lock hlocks (List.mem_of_getElem? hi)
          exact absurd howner (hother o hcreated (fails_endBlock.mpr ⟨a, ha, hunlocks.1⟩))
        · rfl

section
open Sample

def Sample.handOver (issuer newIssuer : AccountId) : Step := .operation 0 (.assetUpdateIssuer ⟨noFee, issuer, 2, newIssuer⟩)

/-- Account 1 hands its project over to account 0, and nobody invests. -/
def Sample.handedOver : List Step := [create offering, handOver 1 0, maintain, maintain, maintain]

/-- It keeps the power of account 1 locked. -/
theorem failed_locked : ¬∀ (d₀ : Database) (steps : List Step) (timestamp : Nat) (parameters : ChainParameters), Start d₀ →
    d₀.lockedPower = [] → Released d₀ steps ((d₀.run steps).step (.endBlock timestamp (some parameters))) := by
  intro h
  have hcreated : ∃ o, Created genesis handedOver 2 o ∧ o.issuer = 1 :=
    ⟨_, ⟨genesis, 0, ⟨[], _, rfl, rfl⟩, by decide +kernel, rfl, rfl⟩, rfl⟩
  obtain ⟨o, ho, hissuer⟩ := hcreated
  have hfails : Fails (genesis.run handedOver) ((genesis.run handedOver).step maintain) 2 :=
    ⟨_, _, (Option.some_get (by decide +kernel)).symm, (Option.some_get (by decide +kernel)).symm, by decide +kernel, by decide +kernel⟩
  obtain ⟨l, -, -, hreleased⟩ := (h genesis handedOver 1600000000 parameters genesis_start rfl).released 2 o ho hfails
  have hopen : ∀ l ∈ ((genesis.run handedOver).step maintain).locksFor 1 2, l.unlockHeight ≠ 0 := by decide +kernel
  exact hopen _ (hissuer ▸ hreleased ▸ List.mem_singleton_self _) rfl

/-- Account 0 hands the project back before it fails. -/
def Sample.handedBack : List Step := [create offering, handOver 1 0, handOver 0 1, maintain, maintain, maintain]

theorem failed_released_handedBack : Released genesis handedBack ((genesis.run handedBack).step maintain) := by
  refine (failed_released_iff genesis_start rfl handedBack 1600000000 parameters).mpr fun p o a hcreated ha _ => .inl ?_
  obtain ⟨l, hl, howner, -⟩ := hcreated.lock genesis_start.wellFormed rfl
  have hmem := List.mem_filter.mp (hl ▸ List.mem_singleton_self l)
  have hlock : ∀ l ∈ (genesis.run handedBack).lockedPower, l.assetId = 2 ∧ l.owner = 1 := by decide +kernel
  have hissuer : ∀ a ∈ (genesis.run handedBack).assets[2]?, a.issuer = 1 := by decide +kernel
  obtain rfl : l.assetId = p := by simpa using hmem.2
  rw [← howner, (hlock l hmem.1).2]
  exact hissuer a ((hlock l hmem.1).1 ▸ ha)

end

end Khc.Chain
