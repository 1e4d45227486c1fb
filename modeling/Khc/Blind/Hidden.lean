import Khc.Blind.Operations
import Khc.Market.Funds

/-! What the blinded balances hide: what is removed and created, and when sums that agree in the group agree. -/

namespace Khc.Blind

open Lib
open Auth (Authority)
open Chain (Asset AccountId AssetId InInt64 maxShareSupply)
open Fees (FbaAccumulatorId)
open Market (Eval PaidFee fcAssert_eq_ok safe_eq_ok)

variable {P K A : Type} [LinearOrder K] [LinearOrder A] {cs : List Commitment} {c : Commitment}

/-! ### Sums of hidden values -/

theorem Commitment.hidden_nonneg : 0 ≤ c.hidden := Int.natCast_nonneg _

theorem Commitment.hidden_lt : c.hidden < groupOrder := by
  unfold Commitment.hidden
  exact_mod_cast c.value.isLt

@[simp] theorem sumHidden_cons : sumHidden (c :: cs) = c.hidden + sumHidden cs := List.sum_cons

theorem sumHidden_nonneg : 0 ≤ sumHidden cs := by
  induction cs with
  | nil => exact le_refl 0
  | cons c cs ih =>
    rw [sumHidden_cons]
    exact add_nonneg c.hidden_nonneg ih

theorem sumHidden_le {m : Int} (h : ∀ c ∈ cs, c.hidden ≤ m) : sumHidden cs ≤ cs.length * m := by
  induction cs with
  | nil => simp [sumHidden]
  | cons c cs ih =>
    rw [sumHidden_cons, List.length_cons]
    have hc := h c List.mem_cons_self
    have hcs := ih fun c hc => h c (List.mem_cons_of_mem _ hc)
    push_cast
    linarith

/-- No operation has so many outputs that amounts of the supply wrap around. -/
theorem sumHidden_lt (hlen : cs.length < 2 ^ 32) (h : ∀ c ∈ cs, c.hidden ≤ maxShareSupply) : sumHidden cs < 2 ^ 92 := by
  have hsum := sumHidden_le h
  have hlen' : (cs.length : Int) < 2 ^ 32 := by exact_mod_cast hlen
  unfold maxShareSupply at hsum
  nlinarith

/-- Numbers that are small before the group order are the same when they are the same in the group. -/
theorem eq_of_dvd {x : Int} (h : (groupOrder : Int) ∣ x) (hlow : -2 ^ 128 < x) (hhigh : x < 2 ^ 128) : x = 0 := by
  refine Int.eq_zero_of_abs_lt_dvd h ?_
  rw [abs_lt]
  unfold groupOrder
  omega

theorem blind_hidden {blindingFactor value : Nat} (h : value < groupOrder) : (blind blindingFactor value).hidden = value := by
  unfold Commitment.hidden blind
  rw [Fin.val_ofNat, Nat.mod_eq_of_lt h]

theorem toUInt64_of_bounds {x : Int} (hlow : 0 ≤ x) (hhigh : x < 2 ^ 64) : (toUInt64 x : Int) = x := by
  unfold toUInt64
  rw [Int.toNat_of_nonneg (Int.emod_nonneg _ (by norm_num)), Int.emod_eq_of_lt hlow hhigh]

/-- What is blinded from a public amount -/
theorem blind_amount {blindingFactor : Nat} {x : Int} (hlow : 0 ≤ x) (hhigh : x < 2 ^ 64) :
    (blind blindingFactor (toUInt64 x)).hidden = x := by
  have hx := toUInt64_of_bounds hlow hhigh
  rw [blind_hidden, hx]
  have hlt : ((toUInt64 x : Nat) : Int) < groupOrder := by
    rw [hx]
    unfold groupOrder
    omega
  exact_mod_cast hlt

/-! ### What is hidden of an asset -/

def hiddenOf (bs : List (BlindedBalance K A)) (a : AssetId) : Int := (bs.map fun b => if b.assetId = a then b.commitment.hidden else 0).sum

section
variable {bs : List (BlindedBalance K A)} {b : BlindedBalance K A} {a : AssetId}

theorem hiddenOf_append {bs' : List (BlindedBalance K A)} : hiddenOf (bs ++ bs') a = hiddenOf bs a + hiddenOf bs' a := by
  unfold hiddenOf
  rw [List.map_append, List.sum_append]

theorem hiddenOf_nonneg : 0 ≤ hiddenOf bs a := by
  refine List.sum_nonneg fun x hx => ?_
  obtain ⟨b, -, rfl⟩ := List.mem_map.mp hx
  split_ifs
  · exact b.commitment.hidden_nonneg
  · exact le_refl 0

end

/-! ### Removal and creation -/

section
variable {d d' : Database P K A} {a q : AssetId}

theorem findBlinded_removed {c c' : Commitment} (hne : c' ≠ c) :
    { d with blindedBalances := d.blindedBalances.eraseP (·.commitment = c) }.findBlinded c' = d.findBlinded c' :=
  find?_eraseP_key_ne hne

theorem removeBlinded_eq_ok {i : BlindInput K A} (h : d.removeBlinded i = .ok d') :
    ∃ b, d.findBlinded i.commitment = some b ∧
      d' = { d with blindedBalances := d.blindedBalances.eraseP (·.commitment = i.commitment) } := by
  simp only [Database.removeBlinded, bind_eq_ok, fcAssert_eq_ok, pure_eq_ok] at h
  obtain ⟨-, hfound, rfl⟩ := h
  obtain ⟨b, hb⟩ := Option.ne_none_iff_exists'.mp hfound
  exact ⟨b, hb, rfl⟩

/-- The inputs are taken from what is hidden of their asset. -/
theorem removeInputs {inputs : List (BlindInput K A)} (h : inputs.foldlM (fun d i => d.removeBlinded i) d = .ok d')
    (hdistinct : (inputs.map (·.commitment)).Nodup)
    (hasset : ∀ i ∈ inputs, ∀ b, d.findBlinded i.commitment = some b → b.assetId = q) :
    d' = { d with blindedBalances := d'.blindedBalances } ∧ List.Sublist d'.blindedBalances d.blindedBalances ∧
      (∀ i ∈ inputs, i.commitment ∈ d.blindedBalances.map (·.commitment)) ∧
      ∀ a, hiddenOf d'.blindedBalances a =
        hiddenOf d.blindedBalances a - if q = a then sumHidden (inputs.map (·.commitment)) else 0 := by
  induction inputs generalizing d with
  | nil =>
    obtain rfl := Except.ok.inj h
    refine ⟨rfl, List.Sublist.refl _, fun i hi => absurd hi List.not_mem_nil, fun a => ?_⟩
    simp [sumHidden]
  | cons i inputs ih =>
    rw [List.foldlM_cons, bind_eq_ok] at h
    obtain ⟨d₁, hremove, h⟩ := h
    obtain ⟨b, hb, rfl⟩ := removeBlinded_eq_ok hremove
    rw [List.map_cons, List.nodup_cons] at hdistinct
    have hrest : ∀ i' ∈ inputs, i'.commitment ≠ i.commitment := by
      rintro i' hi' heq
      exact hdistinct.1 (heq ▸ List.mem_map_of_mem hi')
    obtain ⟨hsame, hsub, hlive, hhidden⟩ := ih h hdistinct.2 fun i' hi' b' hb' => by
      rw [findBlinded_removed (hrest i' hi')] at hb'
      exact hasset i' (List.mem_cons_of_mem _ hi') b' hb'
    refine ⟨hsame, hsub.trans List.eraseP_sublist, fun i' hi' => ?_, fun a => ?_⟩
    · rcases List.mem_cons.mp hi' with rfl | hi'
      · have hcommitment : b.commitment = i'.commitment := by simpa using List.find?_some hb
        exact hcommitment ▸ List.mem_map_of_mem (List.mem_of_find?_eq_some hb)
      · exact (List.eraseP_sublist.map _).subset (hlive i' hi')
    have hbasset := hasset i List.mem_cons_self b hb
    have hcommitment : b.commitment = i.commitment := by simpa using List.find?_some hb
    have herase : hiddenOf (d.blindedBalances.eraseP (·.commitment = i.commitment)) a =
        hiddenOf d.blindedBalances a - if b.assetId = a then b.commitment.hidden else 0 := sum_map_eraseP _ hb
    rw [hhidden, herase, hbasset, hcommitment, List.map_cons, sumHidden_cons]
    split_ifs <;> ring

theorem createBlinded_eq_ok {out : BlindOutput P K A} (h : d.createBlinded q out = .ok d') :
    out.commitment ∉ d.blindedBalances.map (·.commitment) ∧
      d' = { d with blindedBalances := d.blindedBalances ++ [⟨out.commitment, q, out.owner⟩] } := by
  simp only [Database.createBlinded, bind_eq_ok, fcAssert_eq_ok, pure_eq_ok] at h
  obtain ⟨-, hnone, rfl⟩ := h
  refine ⟨fun hmem => ?_, rfl⟩
  obtain ⟨b, hb, heq⟩ := List.mem_map.mp hmem
  have hnot := List.find?_eq_none.mp hnone b hb
  exact hnot (decide_eq_true heq)

/-- The outputs are added to what is hidden of their asset. -/
theorem createOutputs {outputs : List (BlindOutput P K A)} (h : outputs.foldlM (fun d out => d.createBlinded q out) d = .ok d')
    (hnodup : (d.blindedBalances.map (·.commitment)).Nodup) :
    d' = { d with blindedBalances := d'.blindedBalances } ∧ (d'.blindedBalances.map (·.commitment)).Nodup ∧
      d.blindedBalances <+: d'.blindedBalances ∧
      (∀ c, c ∈ d'.blindedBalances.map (·.commitment) ↔ c ∈ d.blindedBalances.map (·.commitment) ∨ c ∈ outputs.map (·.commitment)) ∧
      ∀ a, hiddenOf d'.blindedBalances a =
        hiddenOf d.blindedBalances a + if q = a then sumHidden (outputs.map (·.commitment)) else 0 := by
  induction outputs generalizing d with
  | nil =>
    obtain rfl := Except.ok.inj h
    refine ⟨rfl, hnodup, List.prefix_rfl, fun c => ?_, fun a => ?_⟩
    · simp
    · simp [sumHidden]
  | cons out outputs ih =>
    rw [List.foldlM_cons, bind_eq_ok] at h
    obtain ⟨d₁, hcreate, h⟩ := h
    obtain ⟨hfresh, rfl⟩ := createBlinded_eq_ok hcreate
    have hnodup₁ : ((d.blindedBalances ++ [BlindedBalance.mk out.commitment q out.owner]).map (·.commitment)).Nodup := by
      rw [List.map_append, List.map_singleton]
      refine List.nodup_append.mpr ⟨hnodup, List.nodup_singleton _, ?_⟩
      rintro x hx y hy rfl
      obtain rfl := List.mem_singleton.mp hy
      exact hfresh hx
    obtain ⟨hsame, hnodup', hprefix, hmem, hhidden⟩ := ih h hnodup₁
    refine ⟨hsame, hnodup', (List.prefix_append ..).trans hprefix, fun c => ?_, fun a => ?_⟩
    · rw [hmem, List.map_append, List.mem_append, List.map_singleton, List.mem_singleton, List.map_cons, List.mem_cons, or_assoc]
    · rw [hhidden, hiddenOf_append, List.map_cons, sumHidden_cons]
      simp only [hiddenOf, List.map_cons, List.map_nil, List.sum_cons, List.sum_nil]
      split_ifs <;> ring

theorem changeConfidential_eq_ok {delta : Asset} (h : d.changeConfidential delta = .ok d') :
    InInt64 (d.confidentialSupply delta.assetId + delta.amount) ∧ 0 ≤ d.confidentialSupply delta.assetId + delta.amount ∧
      d' = { d with
        confidentialSupply := Function.update d.confidentialSupply delta.assetId (d.confidentialSupply delta.assetId + delta.amount) } := by
  simp only [Database.changeConfidential, bind_eq_ok, fcAssert_eq_ok, pure_eq_ok, safe_eq_ok] at h
  obtain ⟨_, -, supply, ⟨hin, rfl⟩, -, hnonneg, rfl⟩ := h
  exact ⟨hin, hnonneg, rfl⟩

end

end Khc.Blind
