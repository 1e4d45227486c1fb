import Khc.Witness.Slots
import Mathlib.Data.Nat.ModEq

/-! Slots and times are adjoint, and a block leaves the witnesses of later times as they were: the slots that it takes off the
    times are those that it adds to the counter. The times of the first block are not aligned, unlike those of all others. -/

namespace Khc.Witness.SlotState

open Lib

variable {d d' : SlotState} {b : SignedBlock} {n t : Nat}

/-- The time of the slot before the next one -/
def slotBase (d : SlotState) : Nat :=
  if d.headBlockNumber = 0 then d.time
  else d.time / d.parameters.blockInterval * d.parameters.blockInterval +
    if d.maintenanceFlag then d.parameters.maintenanceSkipSlots * d.parameters.blockInterval else 0

/-- The time of the slot fits in 32 bits. -/
def Fits (d : SlotState) (n : Nat) : Prop := d.slotBase + n * d.parameters.blockInterval < 2 ^ 32

instance : Decidable (d.Fits n) := inferInstanceAs (Decidable (_ < _))

theorem getSlotTime_eq (hn : 1 ≤ n) (hfits : d.Fits n) :
    d.getSlotTime n = d.slotBase + n * d.parameters.blockInterval := by
  have hi := d.parameters.interval_pos
  unfold Fits slotBase at hfits
  unfold getSlotTime slotBase
  rw [if_neg (Nat.ne_of_gt hn)]
  by_cases hzero : d.headBlockNumber = 0
  · simp only [hzero, if_true] at hfits ⊢
    have hmul : n * d.parameters.blockInterval < 2 ^ 32 := (Nat.le_add_left _ _).trans_lt hfits
    rw [Nat.mod_eq_of_lt hmul, Nat.mod_eq_of_lt hfits]
  · simp only [hzero, if_false] at hfits ⊢
    by_cases hflag : d.maintenanceFlag
    · simp only [hflag, if_true] at hfits ⊢
      have hmul : (n + d.parameters.maintenanceSkipSlots) * d.parameters.blockInterval < 2 ^ 32 := by
        rw [Nat.add_mul]
        omega
      have hslot : n + d.parameters.maintenanceSkipSlots < 2 ^ 32 := (Nat.le_mul_of_pos_right _ hi).trans_lt hmul
      rw [Nat.mod_eq_of_lt hslot, Nat.mod_eq_of_lt hmul, Nat.add_mul, Nat.mod_eq_of_lt (by omega)]
      omega
    · rw [Bool.not_eq_true] at hflag
      simp only [hflag, Bool.false_eq_true, if_false, Nat.add_zero] at hfits ⊢
      have hmul : n * d.parameters.blockInterval < 2 ^ 32 := by omega
      rw [Nat.mod_eq_of_lt hmul, Nat.mod_eq_of_lt hfits]

theorem getSlotAtTime_lt : d.getSlotAtTime t < 2 ^ 32 := by
  unfold getSlotAtTime
  dsimp only
  split
  · decide
  · exact Nat.mod_lt _ (by decide)

/-- The slot at a time counts the intervals from the slot before the next one. -/
theorem getSlotAtTime_eq (ht : t < 2 ^ 32) (hfits : d.Fits 1) :
    d.getSlotAtTime t = (t - d.slotBase) / d.parameters.blockInterval := by
  have hi := d.parameters.interval_pos
  have hfirst := getSlotTime_eq (le_refl 1) hfits
  rw [Nat.one_mul] at hfirst
  unfold getSlotAtTime
  dsimp only
  rw [hfirst]
  split
  next hlt => exact (Nat.div_eq_of_lt (by omega)).symm
  next hle =>
    have hsub : t - d.slotBase = t - (d.slotBase + d.parameters.blockInterval) + d.parameters.blockInterval := by omega
    have hdiv := Nat.div_le_self (t - (d.slotBase + d.parameters.blockInterval)) d.parameters.blockInterval
    rw [Nat.mod_eq_of_lt (by omega), hsub, Nat.add_div_right _ hi]

/-- The slot at the time of a slot -/
theorem getSlotAtTime_getSlotTime (hn : 1 ≤ n) (hfits : d.Fits n) : d.getSlotAtTime (d.getSlotTime n) = n := by
  have hi := d.parameters.interval_pos
  have hone : d.Fits 1 := by
    have hle := Nat.mul_le_mul_right d.parameters.blockInterval hn
    unfold Fits at hfits ⊢
    omega
  rw [getSlotTime_eq hn hfits, getSlotAtTime_eq hfits hone, Nat.add_sub_cancel_left, Nat.mul_div_cancel _ hi]

/-- A time is in its slot. -/
theorem getSlotTime_getSlotAtTime (ht : t < 2 ^ 32) (hfits : d.Fits 1) (hslot : 1 ≤ d.getSlotAtTime t) :
    d.getSlotTime (d.getSlotAtTime t) ≤ t ∧
      (d.Fits (d.getSlotAtTime t + 1) → t < d.getSlotTime (d.getSlotAtTime t + 1)) := by
  have hi := d.parameters.interval_pos
  have heq := getSlotAtTime_eq ht hfits
  have hle : d.slotBase + d.getSlotAtTime t * d.parameters.blockInterval ≤ t := by
    have hmul := Nat.div_mul_le_self (t - d.slotBase) d.parameters.blockInterval
    rw [← heq] at hmul
    have hpos := Nat.mul_le_mul_right d.parameters.blockInterval hslot
    omega
  refine ⟨?_, fun hnext => ?_⟩
  · rw [getSlotTime_eq hslot (hle.trans_lt ht)]
    exact hle
  · rw [getSlotTime_eq (Nat.le_add_left 1 _) hnext]
    have hlt := Nat.lt_mul_of_div_lt (Nat.lt_succ_self ((t - d.slotBase) / d.parameters.blockInterval)) hi
    rw [← heq, Nat.succ_eq_add_one] at hlt
    omega

/-! ### Who is scheduled -/

/-- The witnesses of two slots are the same exactly if their numbers are, modulo the size of the schedule. -/
theorem getScheduledWitness_eq_iff {m : Nat} (hs : d'.schedule = d.schedule) :
    d'.getScheduledWitness m = d.getScheduledWitness n ↔
      (d'.currentAslot + m) % 2 ^ 64 % d.schedule.currentShuffledWitnesses.length =
        (d.currentAslot + n) % 2 ^ 64 % d.schedule.currentShuffledWitnesses.length := by
  have hpos : 0 < d.schedule.currentShuffledWitnesses.length := List.length_pos_iff.mpr d.schedule.nonempty
  unfold getScheduledWitness
  dsimp only
  rw [hs]
  exact List.getElem?_inj (Nat.mod_lt _ hpos) d.schedule.nodup

/-- What an accepted block that triggers neither a maintenance nor a shuffle leaves -/
structure Plain (d d' : SlotState) (b : SignedBlock) : Prop where
  applied : d.applyBlock b = some d'
  noMaintenance : ¬ d.MaintNeeded b
  noShuffle : b.blockNum % d.activeWitnesses.elems.length ≠ 0
  fits : d.Fits 1
  fits' : d'.Fits 1

theorem applyBlock_eq_some (h : d.applyBlock b = some d') :
    d.time < b.timestamp ∧ 0 < d.getSlotAtTime b.timestamp ∧
      ∃ e, e.updateWitnessSchedule = some d' ∧ e.time = b.timestamp ∧ e.headBlockNumber = b.blockNum ∧
        e.currentAslot = (d.updateGlobalDynamicData b).currentAslot ∧
        (¬ d.MaintNeeded b → e = { d.updateGlobalDynamicData b with maintenanceFlag := false }) := by
  unfold applyBlock at h
  obtain ⟨w, hw, h⟩ := Option.bind_eq_some_iff.mp h
  unfold validateBlockHeader at hw
  split at hw
  next hok =>
    obtain ⟨-, htime, -, -, hslot⟩ := hok
    refine ⟨htime, (hslot.resolve_left Bool.false_ne_true).1, _, h, ?_, ?_, ?_, ?_⟩
    · dsimp only
      split <;> rfl
    · dsimp only
      split <;> rfl
    · dsimp only
      split <;> rfl
    · intro hm
      simp [hm]
  next => cases hw

/-- The counter goes up by the slot of the block. -/
theorem currentAslot_updateGlobalDynamicData (hslot : 0 < d.getSlotAtTime b.timestamp) :
    (d.updateGlobalDynamicData b).currentAslot = (d.currentAslot + d.getSlotAtTime b.timestamp) % 2 ^ 64 := by
  have hlt := getSlotAtTime_lt (d := d) (t := b.timestamp)
  have hmissed : ((d.getSlotAtTime b.timestamp + (2 ^ 32 - 1)) % 2 ^ 32 + 1) % 2 ^ 32 = d.getSlotAtTime b.timestamp := by
    omega
  unfold updateGlobalDynamicData
  dsimp only
  rw [hmissed]

theorem Plain.eq (h : Plain d d' b) : d' = { d.updateGlobalDynamicData b with maintenanceFlag := false } ∧
    d.time < b.timestamp ∧ 0 < d.getSlotAtTime b.timestamp := by
  obtain ⟨htime, hslot, e, he, -, hnum, -, heq⟩ := applyBlock_eq_some h.applied
  obtain rfl := heq h.noMaintenance
  refine ⟨?_, htime, hslot⟩
  unfold updateWitnessSchedule at he
  split at he
  next => cases he
  next =>
    rw [if_neg] at he
    · exact (Option.some.inj he).symm
    · exact h.noShuffle

/-! ### Later times -/

/-- How many times an interval fits between two times -/
theorem sub_div_add {g i : Nat} (hi : 0 < i) (hgt : g ≤ t) :
    (t - g) / i + (if t % i < g % i then 1 else 0) = t / i - g / i := by
  have ht := Nat.div_add_mod t i
  have hg := Nat.div_add_mod g i
  have hlt := Nat.mod_lt g hi
  have hle : g / i ≤ t / i := Nat.div_le_div_right hgt
  obtain ⟨k, hk⟩ := Nat.exists_eq_add_of_le hle
  rw [hk, Nat.mul_add] at ht
  split
  next hmod =>
    -- the last interval is not complete
    have hkpos : k ≠ 0 := by
      rintro rfl
      rw [Nat.mul_zero] at ht
      omega
    obtain ⟨k, rfl⟩ := Nat.exists_eq_succ_of_ne_zero hkpos
    rw [Nat.mul_succ] at ht
    have hsub : t - g = i * k + (i + t % i - g % i) := by omega
    rw [hsub, Nat.mul_add_div hi, Nat.div_eq_of_lt (by omega)]
    omega
  next hmod =>
    have hsub : t - g = i * k + (t % i - g % i) := by omega
    have htlt := Nat.mod_lt t hi
    rw [hsub, Nat.mul_add_div hi, Nat.div_eq_of_lt (by omega)]
    omega

/-- Where a block leaves the slots of the time as they were: it is not the first one, or there is one witness, or the time and
    that of the block are on the same side of the genesis time within their intervals. -/
def Steady (d : SlotState) (b : SignedBlock) (t : Nat) : Prop :=
  d.headBlockNumber ≠ 0 ∨ d.schedule.currentShuffledWitnesses.length = 1 ∨
    (t % d.parameters.blockInterval < d.time % d.parameters.blockInterval ↔
      b.timestamp % d.parameters.blockInterval < d.time % d.parameters.blockInterval)

/-- After a block, the slots start with its own. -/
theorem Plain.slot (h : Plain d d' b) (ht : t < 2 ^ 32) :
    d'.getSlotAtTime t = t / d.parameters.blockInterval - b.timestamp / d.parameters.blockInterval := by
  obtain ⟨heq, -, -⟩ := h.eq
  have hp : d'.parameters = d.parameters := by rw [heq]; rfl
  have hbase : d'.slotBase = b.timestamp / d.parameters.blockInterval * d.parameters.blockInterval := by
    have hnum : d'.headBlockNumber ≠ 0 := by rw [heq]; exact Nat.ne_of_gt b.blockNum_pos
    have hflag : d'.maintenanceFlag = false := by rw [heq]
    have htime : d'.time = b.timestamp := by rw [heq]; rfl
    unfold slotBase
    rw [if_neg hnum, hflag, hp, htime]
    rfl
  rw [getSlotAtTime_eq ht h.fits', hbase, hp, Nat.mul_comm]
  exact Nat.sub_mul_div _ _ _

/-- The slots of a time before and after a block, counted from genesis -/
theorem Plain.sum (h : Plain d d' b) (hbt : b.timestamp ≤ t) (ht : t < 2 ^ 32) :
    (d.headBlockNumber ≠ 0 → d.getSlotAtTime b.timestamp + d'.getSlotAtTime t = d.getSlotAtTime t) ∧
    (d.headBlockNumber = 0 →
      d.getSlotAtTime b.timestamp + d'.getSlotAtTime t +
          (if b.timestamp % d.parameters.blockInterval < d.time % d.parameters.blockInterval then 1 else 0) =
        d.getSlotAtTime t + if t % d.parameters.blockInterval < d.time % d.parameters.blockInterval then 1 else 0) := by
  obtain ⟨-, htime, hslot⟩ := h.eq
  have hi := d.parameters.interval_pos
  have hle : b.timestamp / d.parameters.blockInterval ≤ t / d.parameters.blockInterval := Nat.div_le_div_right hbt
  have hb := getSlotAtTime_eq b.timestamp_lt h.fits
  have hd := getSlotAtTime_eq ht h.fits
  have hd' := h.slot ht
  constructor
  · intro hnum
    obtain ⟨k, hk⟩ : ∃ k, d.slotBase = d.parameters.blockInterval * k := by
      unfold slotBase
      rw [if_neg hnum]
      split
      · exact ⟨d.time / d.parameters.blockInterval + d.parameters.maintenanceSkipSlots, by
          rw [Nat.mul_add, Nat.mul_comm, Nat.mul_comm d.parameters.maintenanceSkipSlots]⟩
      · exact ⟨d.time / d.parameters.blockInterval, by rw [Nat.add_zero, Nat.mul_comm]⟩
    rw [hk, Nat.sub_mul_div] at hb hd
    omega
  · intro hnum
    have hbase : d.slotBase = d.time := if_pos hnum
    rw [hbase] at hb hd
    have hsubb := sub_div_add hi htime.le
    have hsubt := sub_div_add hi (htime.le.trans hbt)
    have hge : d.time / d.parameters.blockInterval ≤ b.timestamp / d.parameters.blockInterval :=
      Nat.div_le_div_right htime.le
    rw [hb, hd, hd']
    omega

/-- The scheduled witness of a time, before and after a block -/
theorem Plain.same_iff (h : Plain d d' b) :
    d'.getScheduledWitness (d'.getSlotAtTime t) = d.getScheduledWitness (d.getSlotAtTime t) ↔
      (d.currentAslot + (d.getSlotAtTime b.timestamp + d'.getSlotAtTime t)) % 2 ^ 64 %
          d.schedule.currentShuffledWitnesses.length =
        (d.currentAslot + d.getSlotAtTime t) % 2 ^ 64 % d.schedule.currentShuffledWitnesses.length := by
  obtain ⟨heq, -, hslot⟩ := h.eq
  have hschedule : d'.schedule = d.schedule := by rw [heq]; rfl
  have haslot : d'.currentAslot = (d.currentAslot + d.getSlotAtTime b.timestamp) % 2 ^ 64 := by
    rw [← currentAslot_updateGlobalDynamicData hslot, heq]
  rw [getScheduledWitness_eq_iff hschedule, haslot, Nat.mod_add_mod, Nat.add_assoc]

theorem Plain.same_of_steady (h : Plain d d' b) (hbt : b.timestamp ≤ t) (ht : t < 2 ^ 32) (hs : d.Steady b t) :
    d'.getScheduledWitness (d'.getSlotAtTime t) = d.getScheduledWitness (d.getSlotAtTime t) := by
  obtain ⟨hlater, hfirst⟩ := h.sum hbt ht
  refine h.same_iff.mpr ?_
  by_cases hnum : d.headBlockNumber = 0
  · rcases hs with hne | hone | hside
    · exact absurd hnum hne
    · rw [hone, Nat.mod_one, Nat.mod_one]
    · have hsum := hfirst hnum
      simp only [hside, Nat.add_right_cancel_iff] at hsum
      rw [hsum]
  · rw [hlater hnum]

/-- The counter is bounded by the time. -/
structure Bounded (d : SlotState) : Prop where
  aslot : d.currentAslot ≤ d.time
  time : d.time < 2 ^ 32

theorem Plain.steady_of_same (h : Plain d d' b) (hd : d.Bounded) (hbt : b.timestamp ≤ t) (ht : t < 2 ^ 32)
    (hsame : d'.getScheduledWitness (d'.getSlotAtTime t) = d.getScheduledWitness (d.getSlotAtTime t)) :
    d.Steady b t := by
  by_cases hnum : d.headBlockNumber = 0
  · by_contra hnot
    have hone : d.schedule.currentShuffledWitnesses.length ≠ 1 := fun hone => hnot (.inr (.inl hone))
    have hside := fun hside => hnot (.inr (.inr hside))
    have hsum := (h.sum hbt ht).2 hnum
    have haslot := hd.aslot
    have htime := hd.time
    have hlt := getSlotAtTime_lt (d := d) (t := t)
    have hlt' := getSlotAtTime_lt (d := d) (t := b.timestamp)
    have hlt'' := getSlotAtTime_lt (d := d') (t := t)
    have hmod := h.same_iff.mp hsame
    rw [Nat.mod_eq_of_lt (a := d.currentAslot + (d.getSlotAtTime b.timestamp + d'.getSlotAtTime t)) (by omega),
      Nat.mod_eq_of_lt (a := d.currentAslot + d.getSlotAtTime t) (by omega)] at hmod
    -- the two slots are next to each other
    have hnext : ∀ x : Nat, ¬ x % d.schedule.currentShuffledWitnesses.length =
        (x + 1) % d.schedule.currentShuffledWitnesses.length := by
      intro x hx
      have hdvd := Nat.dvd_of_mod_eq_zero (Nat.sub_mod_eq_zero_of_mod_eq hx.symm)
      rw [Nat.add_sub_cancel_left, Nat.dvd_one] at hdvd
      exact hone hdvd
    by_cases htm : t % d.parameters.blockInterval < d.time % d.parameters.blockInterval
    · by_cases hbm : b.timestamp % d.parameters.blockInterval < d.time % d.parameters.blockInterval
      · exact hside ⟨fun _ => hbm, fun _ => htm⟩
      · rw [if_pos htm, if_neg hbm] at hsum
        refine hnext (d.currentAslot + d.getSlotAtTime t) (hmod.symm.trans ?_)
        have hone' : d.getSlotAtTime b.timestamp + d'.getSlotAtTime t = d.getSlotAtTime t + 1 := by omega
        rw [hone', Nat.add_assoc]
    · by_cases hbm : b.timestamp % d.parameters.blockInterval < d.time % d.parameters.blockInterval
      · rw [if_neg htm, if_pos hbm] at hsum
        refine hnext (d.currentAslot + (d.getSlotAtTime b.timestamp + d'.getSlotAtTime t)) (hmod.trans ?_)
        have hone' : d.getSlotAtTime t = d.getSlotAtTime b.timestamp + d'.getSlotAtTime t + 1 := by omega
        rw [hone', Nat.add_assoc d.currentAslot]
      · exact hside ⟨fun h => absurd h htm, fun h => absurd h hbm⟩
  · exact .inl hnum

/-! ### Runs -/

/-- A state that `init_genesis` leaves: the schedule lists the active witnesses. -/
structure Genesis (d : SlotState) : Prop where
  headBlockNumber : d.headBlockNumber = 0
  currentAslot : d.currentAslot = 0
  maintenanceFlag : d.maintenanceFlag = false
  time : d.time < 2 ^ 32
  schedule : d.schedule.currentShuffledWitnesses = d.activeWitnesses.elems

/-- Blocks are applied to a genesis state, as long as the times fit. -/
inductive Reachable : SlotState → Prop
  | genesis {d : SlotState} : d.Genesis → Reachable d
  | block {d d' : SlotState} {b : SignedBlock} : Reachable d → d.Fits 1 → d.applyBlock b = some d' → Reachable d'

theorem updateWitnessSchedule_frame (h : d.updateWitnessSchedule = some d') :
    d'.currentAslot = d.currentAslot ∧ d'.time = d.time := by
  unfold updateWitnessSchedule at h
  split at h
  · cases h
  split at h
  · obtain rfl := Option.some.inj h
    exact ⟨rfl, rfl⟩
  · obtain rfl := Option.some.inj h
    exact ⟨rfl, rfl⟩

/-- At least as many seconds pass as slots. -/
theorem getSlotAtTime_le (hslot : 0 < d.getSlotAtTime b.timestamp) (hfits : d.Fits 1) :
    d.getSlotAtTime b.timestamp + d.time ≤ b.timestamp := by
  have hi := d.parameters.interval_pos
  have heq := getSlotAtTime_eq b.timestamp_lt hfits
  have hmul := Nat.div_mul_le_self (b.timestamp - d.slotBase) d.parameters.blockInterval
  rw [← heq] at hmul
  obtain ⟨k, hk⟩ := Nat.exists_eq_add_of_le hslot
  have hkle := Nat.le_mul_of_pos_right k hi
  rw [hk, Nat.add_mul, Nat.succ_mul, Nat.zero_mul] at hmul
  have hbase : d.time < d.slotBase + d.parameters.blockInterval := by
    unfold slotBase
    split
    · omega
    · have hmod := Nat.mod_lt d.time hi
      have hdiv := Nat.div_add_mod' d.time d.parameters.blockInterval
      omega
  omega

theorem Reachable.bounded (h : Reachable d) : d.Bounded := by
  induction h with
  | genesis hd => exact ⟨by rw [hd.currentAslot]; exact Nat.zero_le _, hd.time⟩
  | @block d d' b hd hfits h ih =>
    obtain ⟨-, hslot, e, he, het, -, hea, -⟩ := applyBlock_eq_some h
    obtain ⟨haslot, htime'⟩ := updateWitnessSchedule_frame he
    have hle := getSlotAtTime_le hslot hfits
    have hmod := Nat.mod_le (d.currentAslot + d.getSlotAtTime b.timestamp) (2 ^ 64)
    have hold := ih.aslot
    rw [currentAslot_updateGlobalDynamicData hslot] at hea
    refine ⟨?_, ?_⟩
    · rw [haslot, htime', hea, het]
      omega
    · rw [htime', het]
      exact b.timestamp_lt

/-- Consecutive slots, as many as there are witnesses, belong to different ones. -/
theorem Bounded.consecutive (hd : d.Bounded) {i j : Nat} (hi : i < d.schedule.currentShuffledWitnesses.length)
    (hj : j < d.schedule.currentShuffledWitnesses.length)
    (hn : n + d.schedule.currentShuffledWitnesses.length ≤ 2 ^ 32)
    (h : d.getScheduledWitness (n + i) = d.getScheduledWitness (n + j)) : i = j := by
  have haslot := hd.aslot
  have htime := hd.time
  have hmod := (getScheduledWitness_eq_iff rfl).mp h
  rw [Nat.mod_eq_of_lt (a := d.currentAslot + (n + i)) (by omega),
    Nat.mod_eq_of_lt (a := d.currentAslot + (n + j)) (by omega), ← Nat.add_assoc, ← Nat.add_assoc] at hmod
  have hij : i % _ = j % _ := Nat.ModEq.add_left_cancel' (d.currentAslot + n) hmod
  rwa [Nat.mod_eq_of_lt hi, Nat.mod_eq_of_lt hj] at hij

/-- Slots and times are adjoint; a block that triggers neither a maintenance nor a shuffle leaves the witness of a later time
    exactly where it is steady; and consecutive slots belong to different witnesses. -/
theorem slots_adjoint_steady (d : SlotState) :
    (∀ n, 1 ≤ n → d.Fits n → d.getSlotAtTime (d.getSlotTime n) = n) ∧
    (∀ t, t < 2 ^ 32 → d.Fits 1 → 1 ≤ d.getSlotAtTime t →
      d.getSlotTime (d.getSlotAtTime t) ≤ t ∧
        (d.Fits (d.getSlotAtTime t + 1) → t < d.getSlotTime (d.getSlotAtTime t + 1))) ∧
    (∀ (d' : SlotState) (b : SignedBlock) (t : Nat), Plain d d' b → b.timestamp ≤ t → t < 2 ^ 32 →
      (d.Steady b t → d'.getScheduledWitness (d'.getSlotAtTime t) = d.getScheduledWitness (d.getSlotAtTime t)) ∧
      (Reachable d → (d'.getScheduledWitness (d'.getSlotAtTime t) = d.getScheduledWitness (d.getSlotAtTime t) ↔
        d.Steady b t))) ∧
    (Reachable d → ∀ n i j, i < d.schedule.currentShuffledWitnesses.length →
      j < d.schedule.currentShuffledWitnesses.length → n + d.schedule.currentShuffledWitnesses.length ≤ 2 ^ 32 →
      d.getScheduledWitness (n + i) = d.getScheduledWitness (n + j) → i = j) := by
  refine ⟨fun n => getSlotAtTime_getSlotTime, fun t => getSlotTime_getSlotAtTime, ?_, ?_⟩
  · intro d' b t h hbt ht
    have hsteady := h.same_of_steady hbt ht
    exact ⟨hsteady, fun hd => ⟨h.steady_of_same hd.bounded hbt ht, hsteady⟩⟩
  · intro hd n i j hi hj hn
    exact hd.bounded.consecutive hi hj hn

/-! ### A genesis time that is no multiple of the interval -/

/-- Blocks every three seconds from second 5 on, by two witnesses -/
def unaligned : SlotState where
  headBlockNumber := 0
  headBlockId := 0
  time := 5
  nextMaintenanceTime := 1000
  recentlyMissedCount := 0
  currentAslot := 0
  recentSlotsFilled := -1
  maintenanceFlag := false
  parameters := ⟨3, 3, by decide⟩
  activeWitnesses := .ofList [0, 1]
  schedule := ⟨[0, 1], by decide, by decide⟩
  totalMissed := [0, 0]
  checkpoint := none

/-- The first block, in its slot -/
def firstBlock : SignedBlock where
  id := 1
  previous := 0
  blockNum := 1
  timestamp := 8
  witness := 1
  validSignee := true
  maintenance := ⟨⟨3, 3, by decide⟩, .ofList [0, 1], 2000⟩
  blockNum_pos := by decide
  timestamp_lt := by decide

/-- The first block after a genesis time of six seconds -/
def alignedBlock : SignedBlock := { firstBlock with timestamp := 9, timestamp_lt := by decide }

/-- With a genesis time of six seconds, the witness of second 12 is the same before and after the first block. -/
theorem slots_adjoint_steady_aligned : ∃ d', Plain { unaligned with time := 6 } d' alignedBlock ∧
    d'.getScheduledWitness (d'.getSlotAtTime 12) = some 0 := by
  obtain ⟨d', hd'⟩ : ∃ d', ({ unaligned with time := 6 } : SlotState).applyBlock alignedBlock = some d' :=
    Option.isSome_iff_exists.mp (by decide +kernel)
  have hget : d' = (({ unaligned with time := 6 } : SlotState).applyBlock alignedBlock).get (by decide +kernel) := by
    simp [hd']
  have hplain : Plain { unaligned with time := 6 } d' alignedBlock :=
    ⟨hd', by decide +kernel, by decide +kernel, by decide +kernel, by rw [hget]; decide +kernel⟩
  obtain ⟨hsame, -⟩ := (slots_adjoint_steady { unaligned with time := 6 }).2.2.1 d' alignedBlock 12 hplain (by decide) (by decide)
  exact ⟨d', hplain, (hsame (.inr (.inr (by decide)))).trans (by decide +kernel)⟩

theorem slots_moved : ¬ ∀ (d d' : SlotState) (b : SignedBlock) (t : Nat), Reachable d → Plain d d' b → b.timestamp ≤ t →
    t < 2 ^ 32 → d'.getScheduledWitness (d'.getSlotAtTime t) = d.getScheduledWitness (d.getSlotAtTime t) := by
  intro h
  have hreach : Reachable unaligned := .genesis ⟨rfl, rfl, rfl, by decide, by decide +kernel⟩
  obtain ⟨d', hd'⟩ : ∃ d', unaligned.applyBlock firstBlock = some d' :=
    Option.isSome_iff_exists.mp (by decide +kernel)
  have hget : d' = (unaligned.applyBlock firstBlock).get (by decide +kernel) := by simp [hd']
  have hplain : Plain unaligned d' firstBlock :=
    ⟨hd', by decide +kernel, by decide +kernel, by decide +kernel, by rw [hget]; decide +kernel⟩
  have hsame := h unaligned d' firstBlock 9 hreach hplain (by decide) (by decide)
  rw [hget] at hsame
  exact absurd hsame (by decide +kernel)

end Khc.Witness.SlotState
