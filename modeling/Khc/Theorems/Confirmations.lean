import Khc.Witness.Slots

/-! The last irreversible block does not go back or past the head, and is one that enough of the active witnesses have
    confirmed. -/

namespace Khc.Witness

open Lib

namespace Chain
variable {c c' c'' : Chain} {w : WitnessId} {n : Nat} {l : List Nat}

/-- The witness has confirmed the block. -/
def Confirms (c : Chain) (n : Nat) (w : WitnessId) : Prop := ∃ o ∈ c.witnesses[w]?, n ≤ o.lastConfirmedBlockNum

instance (c : Chain) (n : Nat) (w : WitnessId) : Decidable (c.Confirms n w) := inferInstanceAs (Decidable (∃ o ∈ _, _))

/-- The threshold of the active witnesses has confirmed the block. -/
def EnoughConfirm (active : FlatSet WitnessId) (c : Chain) (n : Nat) : Prop :=
  grapheneIrreversibleThreshold * active.elems.length ≤ graphene100Percent * active.elems.countP (c.Confirms n)

/-- No block is confirmed that is not there. -/
structure Bounded (c : Chain) : Prop where
  confirmed : ∀ o ∈ c.witnesses, o.lastConfirmedBlockNum ≤ c.headBlockNumber
  irreversible : c.lastIrreversibleBlockNum ≤ c.headBlockNumber

/-- The chain before its first block -/
structure Genesis (c : Chain) : Prop where
  confirmed : ∀ o ∈ c.witnesses, o.lastConfirmedBlockNum = 0
  irreversible : c.lastIrreversibleBlockNum = 0

theorem Genesis.bounded (h : c.Genesis) : c.Bounded where
  confirmed o ho := (h.confirmed o ho).le.trans (Nat.zero_le _)
  irreversible := h.irreversible.le.trans (Nat.zero_le _)

/-! ### The order statistic -/

/-- At most the part of the witnesses that the threshold leaves out stands before the offset. -/
theorem irreversibleOffset_le (size : Nat) :
    grapheneIrreversibleThreshold * size ≤ graphene100Percent * (size - irreversibleOffset size) := by
  have hle : 10000 * ((10000 - 7000) * size / 10000) ≤ (10000 - 7000) * size := Nat.mul_div_le _ _
  show 7000 * size ≤ 10000 * (size - (10000 - 7000) * size / 10000)
  omega

theorem confirmed_eq_map (h : c.confirmed = some l) :
    l = c.activeWitnesses.elems.map fun w => (c.witnesses[w]?).elim 0 (·.lastConfirmedBlockNum) := by
  unfold confirmed at h
  generalize c.activeWitnesses.elems = ws at h
  induction ws generalizing l with
  | nil =>
    obtain rfl := Option.some.inj h
    rfl
  | cons w ws ih =>
    simp only [List.mapM_cons, Option.bind_eq_bind, Option.bind_eq_some_iff, Option.map_eq_some_iff, Option.pure_def,
      Option.some.injEq] at h
    obtain ⟨n, ⟨o, ho, rfl⟩, rest, hrest, rfl⟩ := h
    rw [List.map_cons, ho, ih hrest]
    rfl

/-- A block that is taken from the confirmations is confirmed by enough of the witnesses. -/
theorem enoughConfirm_of_nthElement (h : c.confirmed = some l) (hn : nthElement l (irreversibleOffset l.length) = some n)
    (hpos : 0 < n) : EnoughConfirm c.activeWitnesses c n := by
  have hcount := le_countP_of_nthElement hn
  obtain rfl := confirmed_eq_map h
  rw [List.length_map, List.countP_map] at hcount
  refine (irreversibleOffset_le _).trans (Nat.mul_le_mul_left _ (hcount.trans (List.countP_mono_left fun w _ hw => ?_)))
  have hle : n ≤ (c.witnesses[w]?).elim 0 (·.lastConfirmedBlockNum) := of_decide_eq_true hw
  refine decide_eq_true ?_
  cases ho : c.witnesses[w]? with
  | none =>
    rw [ho] at hle
    exact absurd hle (not_le.mpr hpos)
  | some o =>
    rw [ho] at hle
    exact ⟨o, ho, hle⟩

/-! ### What the parts of a block do -/

theorem mem_createWitnesses {o : WitnessObject} (h : o ∈ (c.createWitnesses n).witnesses) :
    o ∈ c.witnesses ∨ o.lastConfirmedBlockNum = 0 := by
  rcases List.mem_append.mp h with ho | ho
  · exact .inl ho
  · exact .inr (List.eq_of_mem_replicate ho ▸ rfl)

theorem updateGlobalDynamicData_eq_some (h : c.updateGlobalDynamicData = some c') :
    c' = { c with headBlockNumber := c.headBlockNumber + 1 } := by
  simp only [updateGlobalDynamicData] at h
  split at h
  · exact (Option.some.inj h).symm
  · cases h

theorem mem_updateSigningWitness {o : WitnessObject} {aslot : Nat} (h : o ∈ (c.updateSigningWitness w aslot).witnesses) :
    o ∈ c.witnesses ∨ o.lastConfirmedBlockNum = c.headBlockNumber := by
  obtain ⟨i, hi, rfl⟩ := List.mem_iff_getElem.mp h
  rw [updateSigningWitness, List.length_modify] at hi
  simp only [updateSigningWitness, List.getElem_modify]
  split
  · exact .inr rfl
  · exact .inl (List.getElem_mem _)

/-- The number is kept, or set to a greater one that enough witnesses have confirmed. -/
theorem updateLastIrreversibleBlock_cases (h : c.updateLastIrreversibleBlock = some c') :
    c' = c ∨ ∃ n, c' = { c with lastIrreversibleBlockNum := n } ∧ c.lastIrreversibleBlockNum < n ∧
      (∃ o ∈ c.witnesses, o.lastConfirmedBlockNum = n) ∧ EnoughConfirm c.activeWitnesses c n := by
  simp only [updateLastIrreversibleBlock, Option.bind_eq_bind, Option.bind_eq_some_iff] at h
  obtain ⟨l, hl, n, hn, h⟩ := h
  split at h
  · rename_i hmore
    refine .inr ⟨n, (Option.some.inj h).symm, hmore, ?_, enoughConfirm_of_nthElement hl hn (Nat.zero_lt_of_lt hmore)⟩
    have hmem := nthElement_mem hn
    rw [confirmed_eq_map hl, List.mem_map] at hmem
    obtain ⟨w, -, hw⟩ := hmem
    cases ho : c.witnesses[w]? with
    | none =>
      rw [ho] at hw
      exact absurd (show 0 = n from hw) (Nat.zero_lt_of_lt hmore).ne
    | some o =>
      rw [ho] at hw
      exact ⟨o, List.mem_of_getElem? ho, hw⟩
  · exact .inl (Option.some.inj h).symm

theorem updateActiveWitnesses_eq_some {elected : List WitnessId} (h : c.updateActiveWitnesses elected = some c') :
    c' = { c with activeWitnesses := .ofList elected } := by
  unfold updateActiveWitnesses at h
  split at h
  · exact (Option.some.inj h).symm
  · cases h

theorem EnoughConfirm.congr {active : FlatSet WitnessId} (h : EnoughConfirm active c n) (hw : c'.witnesses = c.witnesses) :
    EnoughConfirm active c' n := by
  have hsame : c'.Confirms n = c.Confirms n := by
    funext w
    rw [Confirms, Confirms, hw]
  unfold EnoughConfirm at h ⊢
  simpa only [hsame] using h

/-- After the witness has signed, no block past the new head is confirmed. -/
theorem confirmed_le_of_signed (hc : c.Bounded) (b : Block) (h : (c.createWitnesses b.created).updateGlobalDynamicData = some c') :
    ∀ o ∈ (c'.updateSigningWitness b.witness b.aslot).witnesses, o.lastConfirmedBlockNum ≤ c'.headBlockNumber := by
  obtain rfl := updateGlobalDynamicData_eq_some h
  intro o ho
  rcases mem_updateSigningWitness ho with ho | ho
  · rcases mem_createWitnesses ho with ho | ho
    · exact (hc.confirmed o ho).trans (Nat.le_succ _)
    · exact ho.le.trans (Nat.zero_le _)
  · exact ho.le

/-- What a block does to the chain: the head is one further, and the number of the last irreversible block is kept, or set to a
    greater one that enough of the active witnesses have confirmed. -/
theorem applyBlock_cases {b : Block} (h : c.applyBlock b = some c') (hc : c.Bounded) :
    c'.headBlockNumber = c.headBlockNumber + 1 ∧ (∀ o ∈ c'.witnesses, o.lastConfirmedBlockNum ≤ c'.headBlockNumber) ∧
      (c'.lastIrreversibleBlockNum = c.lastIrreversibleBlockNum ∨
        (c.lastIrreversibleBlockNum < c'.lastIrreversibleBlockNum ∧ c'.lastIrreversibleBlockNum ≤ c'.headBlockNumber ∧
          EnoughConfirm c.activeWitnesses c' c'.lastIrreversibleBlockNum)) := by
  simp only [applyBlock, Option.bind_eq_bind, Option.bind_eq_some_iff] at h
  obtain ⟨_, -, c₁, h₁, c₂, h₂, h₃⟩ := h
  have hconfirmed := confirmed_le_of_signed hc b h₁
  obtain rfl := updateGlobalDynamicData_eq_some h₁
  have helected : c'.headBlockNumber = c₂.headBlockNumber ∧ c'.witnesses = c₂.witnesses ∧
      c'.lastIrreversibleBlockNum = c₂.lastIrreversibleBlockNum := by
    split at h₃
    · obtain rfl := Option.some.inj h₃
      exact ⟨rfl, rfl, rfl⟩
    · obtain rfl := updateActiveWitnesses_eq_some h₃
      exact ⟨rfl, rfl, rfl⟩
  obtain ⟨hhead, hwitnesses, hnum⟩ := helected
  rw [hhead, hwitnesses, hnum]
  rcases updateLastIrreversibleBlock_cases h₂ with rfl | ⟨n, rfl, hmore, ⟨o, ho, hn⟩, henough⟩
  · exact ⟨rfl, hconfirmed, .inl rfl⟩
  · exact ⟨rfl, hconfirmed, .inr ⟨hmore, hn ▸ hconfirmed o ho, henough.congr hwitnesses⟩⟩

theorem Bounded.applyBlock {b : Block} (hc : c.Bounded) (h : c.applyBlock b = some c') : c'.Bounded := by
  obtain ⟨hhead, hconfirmed, hnum⟩ := applyBlock_cases h hc
  refine ⟨hconfirmed, ?_⟩
  rcases hnum with hnum | ⟨-, hle, -⟩
  · rw [hnum, hhead]
    exact hc.irreversible.trans (Nat.le_succ _)
  · exact hle

end Chain

/-- In every run, the last irreversible block does not go back or past the head, and when it is set, enough of the active
    witnesses have confirmed it. -/
theorem irreversible_confirmed {c₀ c c' : Chain} {b : Block} (h₀ : c₀.Genesis)
    (h : Reaches Chain.applyBlock (fun _ _ => True) c₀ c) (hb : c.applyBlock b = some c') :
    c.lastIrreversibleBlockNum ≤ c'.lastIrreversibleBlockNum ∧ c'.lastIrreversibleBlockNum ≤ c'.headBlockNumber ∧
      (c'.lastIrreversibleBlockNum ≠ c.lastIrreversibleBlockNum →
        Chain.EnoughConfirm c.activeWitnesses c' c'.lastIrreversibleBlockNum) := by
  have hc : c.Bounded := h.invariant (fun _ _ _ hc _ hb => hc.applyBlock hb) h₀.bounded
  refine ⟨?_, (hc.applyBlock hb).irreversible, ?_⟩
  · rcases (Chain.applyBlock_cases hb hc).2.2 with hnum | ⟨hmore, -⟩
    · exact hnum.ge
    · exact hmore.le
  · intro hset
    rcases (Chain.applyBlock_cases hb hc).2.2 with hnum | ⟨-, -, henough⟩
    · exact absurd hnum hset
    · exact henough

section

/-- Three witnesses, all active -/
def Sample.start : Chain := ⟨0, 0, [.default, .default, .default], .ofList [0, 1, 2]⟩

theorem Sample.start_genesis : start.Genesis := ⟨by decide, rfl⟩

/-- Once each of them has signed a block, the first block is irreversible. -/
theorem irreversible_confirmed_third : ∃ c c' : Chain, c'.lastIrreversibleBlockNum = 1 ∧
    (c'.lastIrreversibleBlockNum ≠ c.lastIrreversibleBlockNum →
      Chain.EnoughConfirm c.activeWitnesses c' c'.lastIrreversibleBlockNum) := by
  have hblocks : [⟨0, 1, 0, none⟩, ⟨1, 2, 0, none⟩].foldlM Chain.applyBlock Sample.start =
      some ⟨2, 0, [⟨1, 1⟩, ⟨2, 2⟩, .default], .ofList [0, 1, 2]⟩ := by decide +kernel
  have hreaches := Reaches.of_foldlM (P := fun _ _ => True) hblocks fun _ _ _ => trivial
  have hthird : Chain.applyBlock ⟨2, 0, [⟨1, 1⟩, ⟨2, 2⟩, .default], .ofList [0, 1, 2]⟩ ⟨2, 3, 0, some [1, 2]⟩ =
      some ⟨3, 1, [⟨1, 1⟩, ⟨2, 2⟩, ⟨3, 3⟩], .ofList [1, 2]⟩ := by decide +kernel
  exact ⟨_, _, rfl, (irreversible_confirmed Sample.start_genesis hreaches hthird).2.2⟩

end

end Khc.Witness
