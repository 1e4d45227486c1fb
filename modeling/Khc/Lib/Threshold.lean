import Khc.Lib.Except
import Mathlib.Algebra.Order.BigOperators.Group.List
import Mathlib.Algebra.Order.Ring.Nat
import Mathlib.Data.List.Nodup

/-! Loops that add up weights until a threshold is reached. The total is kept below a bound, so it may wrap: such a loop finds
    the threshold reached only if it is, and finds it whenever it is as long as no total on its way wraps. -/

namespace Khc.Lib

variable {β γ σ ε : Type} {weight : β → Nat} {p q P forced : β → Prop} {es L R : List β} {b : β}

open Classical in
/-- The weight of the entries that are counted -/
noncomputable def weightSum (weight : β → Nat) (p : β → Prop) (es : List β) : Nat :=
  (es.map fun b => if p b then weight b else 0).sum

@[simp] theorem weightSum_nil : weightSum weight p [] = 0 := rfl

theorem weightSum_cons_of_pos (h : p b) : weightSum weight p (b :: es) = weight b + weightSum weight p es := by
  simp [weightSum, h]

theorem weightSum_cons_of_neg (h : ¬p b) : weightSum weight p (b :: es) = weightSum weight p es := by
  simp [weightSum, h]

theorem weightSum_append : weightSum weight p (L ++ R) = weightSum weight p L + weightSum weight p R := by
  simp [weightSum]

theorem weightSum_mono (h : ∀ b ∈ es, p b → q b) : weightSum weight p es ≤ weightSum weight q es := by
  refine List.sum_le_sum fun b hb => ?_
  by_cases hp : p b
  · simp [hp, h b hb hp]
  · simp [hp]

theorem weightSum_true : weightSum weight (fun _ => True) es = (es.map weight).sum := by
  simp [weightSum]

theorem weightSum_eq_zero (h : ∀ b ∈ es, ¬p b) : weightSum weight p es = 0 := by
  refine List.sum_eq_zero fun n hn => ?_
  obtain ⟨b, hb, rfl⟩ := List.mem_map.mp hn
  exact if_neg (h b hb)

theorem weightSum_congr (h : ∀ b ∈ es, p b ↔ q b) : weightSum weight p es = weightSum weight q es :=
  le_antisymm (weightSum_mono fun b hb => (h b hb).mp) (weightSum_mono fun b hb => (h b hb).mpr)

theorem weightSum_le_sum : weightSum weight p es ≤ (es.map weight).sum := by
  refine List.sum_le_sum fun b _ => ?_
  split
  · exact le_rfl
  · exact Nat.zero_le _

theorem weightSum_map {f : γ → β} {l : List γ} : weightSum weight p (l.map f) = weightSum (weight ∘ f) (p ∘ f) l := by
  simp [weightSum, Function.comp_def]

/-! ### The loop -/

/-- The entries are tested in turn. The weight of each that passes is added to the total, until this reaches the threshold:
    then no total is left over. -/
def accumulate (bound threshold : Nat) (weight : β → Nat) (test : β → σ → Except ε (Bool × σ)) :
    List β → Nat → σ → Except ε (Option Nat × σ)
  | [], total, s => .ok (some total, s)
  | b :: es, total, s => do
    let (yes, s) ← test b s
    if yes then
      let total := (total + weight b) % bound
      if threshold ≤ total then return (none, s)
      accumulate bound threshold weight test es total s
    else accumulate bound threshold weight test es total s

variable {bound threshold total t t' : Nat} {test : β → σ → Except ε (Bool × σ)} {s s' : σ} {r : Option Nat} {I : σ → Prop}

theorem accumulate_yes (h : test b s = .ok (true, s')) : accumulate bound threshold weight test (b :: es) total s =
    if threshold ≤ (total + weight b) % bound then .ok (none, s')
    else accumulate bound threshold weight test es ((total + weight b) % bound) s' := by
  rw [accumulate, h]
  rfl

theorem accumulate_no (h : test b s = .ok (false, s')) : accumulate bound threshold weight test (b :: es) total s =
    accumulate bound threshold weight test es total s' := by
  rw [accumulate, h]
  rfl

theorem accumulate_error {e : ε} (h : test b s = .error e) :
    accumulate bound threshold weight test (b :: es) total s = .error e := by
  rw [accumulate, h]
  rfl

theorem accumulate_append : accumulate bound threshold weight test (L ++ R) total s =
    accumulate bound threshold weight test L total s >>= fun r =>
      match r.1 with
      | none => .ok (none, r.2)
      | some total => accumulate bound threshold weight test R total r.2 := by
  induction L generalizing total s with
  | nil => rfl
  | cons b L ih =>
    rw [List.cons_append]
    cases h : test b s with
    | error e => rw [accumulate_error h, accumulate_error h]; rfl
    | ok x =>
      obtain ⟨yes, s'⟩ := x
      cases yes with
      | true =>
        rw [accumulate_yes h, accumulate_yes h]
        split
        · rfl
        · exact ih
      | false =>
        rw [accumulate_no h, accumulate_no h]
        exact ih

theorem accumulate_map {f : γ → β} {l : List γ} : accumulate bound threshold weight test (l.map f) total s =
    accumulate bound threshold (weight ∘ f) (test ∘ f) l total s := by
  induction l generalizing total s with
  | nil => rfl
  | cons c l ih =>
    rw [List.map_cons]
    cases h : test (f c) s with
    | error e =>
      have h' : (test ∘ f) c s = .error e := h
      rw [accumulate_error h, accumulate_error h']
    | ok x =>
      have h' : (test ∘ f) c s = .ok x := h
      obtain ⟨yes, s'⟩ := x
      cases yes with
      | true =>
        rw [accumulate_yes h, accumulate_yes h', ih]
        rfl
      | false => rw [accumulate_no h, accumulate_no h', ih]

/-- What is left of a loop after its first entry. -/
theorem accumulate_cons_eq_ok (h : accumulate bound threshold weight test (b :: es) total s = .ok (r, s')) :
    ∃ yes s₁, test b s = .ok (yes, s₁) ∧
      (yes = false ∧ accumulate bound threshold weight test es total s₁ = .ok (r, s') ∨
        yes = true ∧ threshold ≤ (total + weight b) % bound ∧ r = none ∧ s' = s₁ ∨
        yes = true ∧ accumulate bound threshold weight test es ((total + weight b) % bound) s₁ = .ok (r, s')) := by
  cases htest : test b s with
  | error e =>
    rw [accumulate_error htest] at h
    cases h
  | ok x =>
    obtain ⟨yes, s₁⟩ := x
    refine ⟨yes, s₁, rfl, ?_⟩
    cases yes with
    | false =>
      rw [accumulate_no htest] at h
      exact .inl ⟨rfl, h⟩
    | true =>
      rw [accumulate_yes htest] at h
      split at h
      · rename_i hreached
        obtain ⟨rfl, rfl⟩ := Prod.mk.inj (Except.ok.inj h)
        exact .inr (.inl ⟨rfl, hreached, rfl, rfl⟩)
      · exact .inr (.inr ⟨rfl, h⟩)

/-- A threshold that the loop finds reached is reached, and a total that it leaves over is at most what was counted. -/
theorem accumulate_sound (htest : ∀ b ∈ es, ∀ s yes s', I s → test b s = .ok (yes, s') → I s' ∧ (yes = true → P b))
    (hs : I s) (h : accumulate bound threshold weight test es total s = .ok (r, s')) :
    I s' ∧ (r = none → threshold ≤ total + weightSum weight P es) ∧ ∀ t ∈ r, t ≤ total + weightSum weight P es := by
  induction es generalizing total s with
  | nil =>
    obtain ⟨rfl, rfl⟩ := Prod.mk.inj (Except.ok.inj h)
    refine ⟨hs, fun h => absurd h (Option.some_ne_none _), ?_⟩
    rintro t ⟨⟩
    exact Nat.le_add_right _ _
  | cons b es ih =>
    obtain ⟨yes, s₁, hb, hrest⟩ := accumulate_cons_eq_ok h
    obtain ⟨hs₁, hyes⟩ := htest b List.mem_cons_self s yes s₁ hs hb
    have htail := fun b hb => htest b (List.mem_cons_of_mem _ hb)
    have hmod := Nat.mod_le (total + weight b) bound
    rcases hrest with ⟨-, hrest⟩ | ⟨rfl, hreached, rfl, rfl⟩ | ⟨rfl, hrest⟩
    · obtain ⟨hs', hnone, hsome⟩ := ih htail hs₁ hrest
      have hle : weightSum weight P es ≤ weightSum weight P (b :: es) := by
        by_cases hp : P b
        · rw [weightSum_cons_of_pos hp]
          exact Nat.le_add_left _ _
        · rw [weightSum_cons_of_neg hp]
      exact ⟨hs', fun hr => (hnone hr).trans (by omega), fun t ht => (hsome t ht).trans (by omega)⟩
    · rw [weightSum_cons_of_pos (hyes rfl)]
      refine ⟨hs₁, fun _ => by omega, ?_⟩
      rintro t ⟨⟩
    · obtain ⟨hs', hnone, hsome⟩ := ih htail hs₁ hrest
      rw [weightSum_cons_of_pos (hyes rfl)]
      exact ⟨hs', fun hr => (hnone hr).trans (by omega), fun t ht => (hsome t ht).trans (by omega)⟩

/-- What each test keeps, the loop keeps. -/
theorem accumulate_keeps (htest : ∀ b ∈ es, ∀ s yes s', I s → test b s = .ok (yes, s') → I s') (hs : I s)
    (h : accumulate bound threshold weight test es total s = .ok (r, s')) : I s' :=
  (accumulate_sound (P := fun _ => True) (fun b hb s yes s' hs hb' => ⟨htest b hb s yes s' hs hb', fun _ => trivial⟩) hs h).1

/-- A loop whose tests all return, returns. -/
theorem accumulate_total (htest : ∀ b ∈ es, ∀ s, I s → ∃ yes s', test b s = .ok (yes, s') ∧ I s') (hs : I s) :
    ∃ r s', accumulate bound threshold weight test es total s = .ok (r, s') ∧ I s' := by
  induction es generalizing total s with
  | nil => exact ⟨_, s, rfl, hs⟩
  | cons b es ih =>
    obtain ⟨yes, s₁, hb, hs₁⟩ := htest b List.mem_cons_self s hs
    have htail := fun b hb => htest b (List.mem_cons_of_mem _ hb)
    cases yes with
    | true =>
      rw [accumulate_yes hb]
      split
      · exact ⟨none, s₁, rfl, hs₁⟩
      · exact ih htail hs₁
    | false =>
      rw [accumulate_no hb]
      exact ih htail hs₁

/-! ### Totals that do not wrap -/

/-- Whichever entries are counted, the forced ones among them: no total wraps before it reaches the threshold. -/
def Steady (bound threshold : Nat) (weight : β → Nat) (forced : β → Prop) (es : List β) : Prop :=
  ∀ p : β → Prop, (∀ b, forced b → p b) → ∀ L b R, es = L ++ b :: R → p b → weightSum weight p L < threshold →
    weightSum weight p L + weight b < bound

theorem steady_of_sum_lt (h : (es.map weight).sum < bound) : Steady bound threshold weight forced es := by
  rintro p - L b R rfl - -
  have hle : weightSum weight p L ≤ (L.map weight).sum := weightSum_le_sum
  rw [List.map_append, List.sum_append, List.map_cons, List.sum_cons] at h
  omega

/-- When no total wraps, a total that is left over is all that there was to count, and below the threshold. -/
theorem accumulate_complete (hforced : ∀ b, forced b → P b)
    (htest : ∀ b ∈ es, ∀ s, I s → ∃ yes s', test b s = .ok (yes, s') ∧ I s' ∧ (P b → yes = true)) (hs : I s)
    (hnodup : (L ++ es).Nodup) (hsteady : Steady bound threshold weight forced (L ++ es)) (hp : ∀ b, forced b → p b)
    (hlt : weightSum weight p L < threshold) : ∃ r s', accumulate bound threshold weight test es (weightSum weight p L) s = .ok (r, s') ∧
      I s' ∧ ∀ t ∈ r, t < threshold ∧ weightSum weight p L + weightSum weight P es ≤ t := by
  induction es generalizing L p s with
  | nil =>
    refine ⟨_, _, rfl, hs, ?_⟩
    rintro t ⟨⟩
    exact ⟨hlt, le_rfl⟩
  | cons b es ih =>
    obtain ⟨yes, s₁, hb, hs₁, hyes⟩ := htest b List.mem_cons_self s hs
    have htail := fun b hb => htest b (List.mem_cons_of_mem _ hb)
    have hnotMem : b ∉ L := fun hL => (List.nodup_append'.mp hnodup).2.2 hL List.mem_cons_self
    have hsplit : L ++ b :: es = (L ++ [b]) ++ es := by simp
    rw [hsplit] at hnodup
    cases yes with
    | true =>
      have hq : ∀ x, forced x → x = b ∨ p x := fun x hx => .inr (hp x hx)
      have hL : weightSum weight (fun x => x = b ∨ p x) L = weightSum weight p L :=
        weightSum_congr fun x hx => or_iff_right fun heq => hnotMem (heq ▸ hx)
      have hless := hsteady _ hq L b es rfl (.inl rfl) (by rwa [hL])
      rw [hL] at hless
      have hL' : weightSum weight (fun x => x = b ∨ p x) (L ++ [b]) = weightSum weight p L + weight b := by
        rw [weightSum_append, hL, weightSum_cons_of_pos (.inl rfl), weightSum_nil, Nat.add_zero]
      rw [accumulate_yes hb, Nat.mod_eq_of_lt hless]
      split
      · refine ⟨_, _, rfl, hs₁, ?_⟩
        rintro t ⟨⟩
      · rename_i hnot
        obtain ⟨r, s', h, hs', hr⟩ := ih htail hs₁ hnodup (hsplit ▸ hsteady) hq (by rw [hL']; exact not_le.mp hnot)
        rw [hL'] at h hr
        refine ⟨r, s', h, hs', fun t ht => ⟨(hr t ht).1, ?_⟩⟩
        have hle := (hr t ht).2
        by_cases hP : P b
        · rw [weightSum_cons_of_pos hP]
          omega
        · rw [weightSum_cons_of_neg hP]
          omega
    | false =>
      have hP : ¬P b := fun hP => Bool.false_ne_true (hyes hP)
      have hq : ∀ x, forced x → x ≠ b ∧ p x := fun x hx => ⟨fun heq => hP (heq ▸ hforced x hx), hp x hx⟩
      have hL' : weightSum weight (fun x => x ≠ b ∧ p x) (L ++ [b]) = weightSum weight p L := by
        rw [weightSum_append, weightSum_cons_of_neg (fun h => h.1 rfl), weightSum_nil, Nat.add_zero]
        exact weightSum_congr fun x hx => and_iff_right fun heq => hnotMem (heq ▸ hx)
      obtain ⟨r, s', h, hs', hr⟩ := ih htail hs₁ hnodup (hsplit ▸ hsteady) hq (by rwa [hL'])
      rw [hL'] at h hr
      rw [accumulate_no hb, weightSum_cons_of_neg hP]
      exact ⟨r, s', h, hs', hr⟩

/-! ### Entries that a loop comes to -/

/-- The entries counted in front of this one do not reach the threshold. -/
def Tested (threshold : Nat) (weight : β → Nat) (q : β → Prop) (es : List β) (b : β) : Prop :=
  ∃ L R, es = L ++ b :: R ∧ ((∃ b' ∈ L, q b') → weightSum weight q L < threshold)

theorem Tested.mem (h : Tested threshold weight q es b) : b ∈ es := by
  obtain ⟨L, R, rfl, -⟩ := h
  exact List.mem_append_right _ List.mem_cons_self

/-- The fewer entries are counted, the further the loop comes. -/
theorem Tested.anti (h : Tested threshold weight q es b) (hpq : ∀ b ∈ es, p b → q b) : Tested threshold weight p es b := by
  obtain ⟨L, R, rfl, hL⟩ := h
  have hpq' : ∀ b ∈ L, p b → q b := fun b hb => hpq b (List.mem_append_left _ hb)
  refine ⟨L, R, rfl, fun ⟨b', hb', hp⟩ => ?_⟩
  exact (weightSum_mono hpq').trans_lt (hL ⟨b', hb', hpq' b' hb' hp⟩)

/-- The entries that the loop comes to reach the threshold if all do. -/
theorem weightSum_tested (h : threshold ≤ weightSum weight q es) :
    threshold ≤ weightSum weight (fun b => q b ∧ Tested threshold weight q es b) es := by
  suffices hsplit : ∀ L R, es = L ++ R → ((∃ b ∈ L, q b) → weightSum weight q L < threshold) → (∀ b ∈ L, Tested threshold weight q es b) →
      threshold ≤ weightSum weight (fun b => q b ∧ Tested threshold weight q es b) es from
    hsplit [] es rfl (fun ⟨_, hb, _⟩ => absurd hb List.not_mem_nil) fun _ hb => absurd hb List.not_mem_nil
  intro L R
  induction R generalizing L with
  | nil =>
    rintro hes - hL
    rw [List.append_nil] at hes
    subst hes
    exact h.trans (weightSum_mono fun b hb hq => ⟨hq, hL b hb⟩)
  | cons b R ih =>
    intro hes hlt hL
    have hb : Tested threshold weight q es b := ⟨L, R, hes, hlt⟩
    have hL' : ∀ b' ∈ L ++ [b], Tested threshold weight q es b' := by
      intro b' hb'
      rcases List.mem_append.mp hb' with hb' | hb'
      · exact hL b' hb'
      · exact List.mem_singleton.mp hb' ▸ hb
    by_cases hreached : (∃ b' ∈ L ++ [b], q b') → weightSum weight q (L ++ [b]) < threshold
    · exact ih (L ++ [b]) (by rw [hes, List.append_assoc]; rfl) hreached hL'
    · -- the loop ends here
      have hle : threshold ≤ weightSum weight q (L ++ [b]) := by
        by_contra hnot
        exact hreached fun _ => not_le.mp hnot
      have hprefix : ∀ t : β → Prop, weightSum weight t (L ++ [b]) ≤ weightSum weight t es := by
        intro t
        have hsplit : es = (L ++ [b]) ++ R := by simp [hes]
        rw [hsplit, weightSum_append (R := R)]
        exact Nat.le_add_right _ _
      calc threshold ≤ weightSum weight q (L ++ [b]) := hle
        _ ≤ weightSum weight (fun b => q b ∧ Tested threshold weight q es b) (L ++ [b]) :=
          weightSum_mono fun b' hb' hq => ⟨hq, hL' b' hb'⟩
        _ ≤ weightSum weight (fun b => q b ∧ Tested threshold weight q es b) es := hprefix _

/-- When no total wraps and the tests pass the entries counted, the loop tests the entries it comes to, and ends with whether the
    threshold is reached. What the test of an entry shows, and the later tests keep, holds at the end. -/
theorem accumulate_tested {T : β → σ → Prop} (hforced : ∀ b, forced b → q b) (hsteady : Steady bound threshold weight forced (L ++ es))
    (htest : ∀ b, Tested threshold weight q (L ++ es) b → ∀ s, I s →
      ∃ yes s', test b s = .ok (yes, s') ∧ I s' ∧ (yes = true ↔ q b) ∧ T b s' ∧ ∀ b', T b' s → T b' s')
    (hs : I s) (hlt : (∃ b ∈ L, q b) → weightSum weight q L < threshold) (hL : ∀ b ∈ L, T b s) :
    ∃ r s', accumulate bound threshold weight test es (weightSum weight q L) s = .ok (r, s') ∧ I s' ∧
      (r.elim true fun total => decide (threshold ≤ total)) = decide (threshold ≤ weightSum weight q (L ++ es)) ∧
      ∀ b, Tested threshold weight q (L ++ es) b → T b s' := by
  induction es generalizing L s with
  | nil =>
    refine ⟨_, s, rfl, hs, by rw [List.append_nil]; rfl, fun b hb => hL b ?_⟩
    rw [List.append_nil] at hb
    exact hb.mem
  | cons b es ih =>
    obtain ⟨yes, s₁, hb, hs₁, hyes, hT, hkeep⟩ := htest b ⟨L, es, rfl, hlt⟩ s hs
    have hsplit : L ++ b :: es = (L ++ [b]) ++ es := by simp
    have hL' : ∀ b' ∈ L ++ [b], T b' s₁ := by
      intro b' hb'
      rcases List.mem_append.mp hb' with hb' | hb'
      · exact hkeep b' (hL b' hb')
      · exact List.mem_singleton.mp hb' ▸ hT
    rw [hsplit] at htest hsteady ⊢
    cases yes with
    | true =>
      have hq := hyes.mp rfl
      have hsum : weightSum weight q (L ++ [b]) = weightSum weight q L + weight b := by
        rw [weightSum_append, weightSum_cons_of_pos hq, weightSum_nil, Nat.add_zero]
      rw [accumulate_yes hb]
      by_cases hreached : threshold ≤ weightSum weight q (L ++ [b])
      · have hmod : threshold ≤ (weightSum weight q L + weight b) % bound := by
          rcases Nat.eq_zero_or_pos threshold with hzero | hpos
          · exact hzero.le.trans (Nat.zero_le _)
          · have hbelow : weightSum weight q L < threshold := by
              by_cases hsome : ∃ b ∈ L, q b
              · exact hlt hsome
              · rw [weightSum_eq_zero fun b hb hq => hsome ⟨b, hb, hq⟩]
                exact hpos
            rwa [Nat.mod_eq_of_lt (hsteady q hforced L b es (by simp) hq hbelow), ← hsum]
        rw [if_pos hmod]
        refine ⟨none, s₁, rfl, hs₁, ?_, ?_⟩
        · rw [weightSum_append (L := L ++ [b])]
          exact (decide_eq_true (hreached.trans (Nat.le_add_right _ _))).symm
        · rintro b' ⟨L', R', heq, hL''⟩
          -- an entry behind this one is not tested
          rcases List.append_eq_append_iff.mp heq with ⟨as, hL₁, -⟩ | ⟨as, hL₁, hrest⟩
          · have hmem : b ∈ L' := hL₁ ▸ List.mem_append_left _ (List.mem_append_right _ List.mem_cons_self)
            have hsum' := hL'' ⟨b, hmem, hq⟩
            rw [hL₁, weightSum_append] at hsum'
            omega
          · refine hL' b' (hL₁ ▸ ?_)
            cases as with
            | nil =>
              have hmem : b ∈ L' := by
                rw [List.append_nil] at hL₁
                exact hL₁ ▸ List.mem_append_right _ List.mem_cons_self
              have hsum' := hL'' ⟨b, hmem, hq⟩
              rw [List.append_nil] at hL₁
              rw [← hL₁] at hsum'
              omega
            | cons a as =>
              obtain rfl := (List.cons.inj hrest).1
              exact List.mem_append_right _ List.mem_cons_self
      · have hless := not_le.mp hreached
        have hbound : weightSum weight q L + weight b < bound :=
          hsteady q hforced L b es (by simp) hq (by omega)
        rw [Nat.mod_eq_of_lt hbound, if_neg (by rw [← hsum]; exact hreached), ← hsum]
        exact ih hsteady htest hs₁ (fun _ => hless) hL'
    | false =>
      have hq : ¬q b := fun hq => Bool.false_ne_true (hyes.mpr hq)
      have hsum : weightSum weight q (L ++ [b]) = weightSum weight q L := by
        rw [weightSum_append, weightSum_cons_of_neg hq, weightSum_nil, Nat.add_zero]
      rw [accumulate_no hb, ← hsum]
      refine ih hsteady htest hs₁ ?_ hL'
      rintro ⟨b', hb', hq'⟩
      rw [hsum]
      rcases List.mem_append.mp hb' with hb' | hb'
      · exact hlt ⟨b', hb', hq'⟩
      · exact absurd (List.mem_singleton.mp hb' ▸ hq') hq

/-! ### Totals that wrap -/

/-- A loop whose tests pass exactly the entries counted, and that does not reach the threshold, leaves their weight over. -/
theorem accumulate_below (htest : ∀ b ∈ es, ∀ s, I s → ∃ yes s', test b s = .ok (yes, s') ∧ I s' ∧ (yes = true ↔ q b)) (hs : I s)
    (hle : threshold ≤ bound) (hlt : total + weightSum weight q es < threshold) :
    ∃ s', accumulate bound threshold weight test es total s = .ok (some (total + weightSum weight q es), s') ∧ I s' := by
  induction es generalizing total s with
  | nil => exact ⟨s, rfl, hs⟩
  | cons b es ih =>
    obtain ⟨yes, s₁, hb, hs₁, hyes⟩ := htest b List.mem_cons_self s hs
    have htail := fun b hb => htest b (List.mem_cons_of_mem _ hb)
    cases yes with
    | true =>
      rw [weightSum_cons_of_pos (hyes.mp rfl), ← Nat.add_assoc] at hlt ⊢
      rw [accumulate_yes hb, Nat.mod_eq_of_lt (by omega), if_neg (by omega)]
      exact ih htail hs₁ hlt
    | false =>
      rw [weightSum_cons_of_neg fun hq => Bool.false_ne_true (hyes.mpr hq)] at hlt ⊢
      rw [accumulate_no hb]
      exact ih htail hs₁ hlt

/-- A loop whose total wraps below the threshold, and stays below it afterwards, does not find the threshold reached. -/
theorem accumulate_wraps
    (htest : ∀ x ∈ L ++ b :: R, ∀ s, I s → ∃ yes s', test x s = .ok (yes, s') ∧ I s' ∧ (yes = true ↔ q x)) (hs : I s) (hle : threshold ≤ bound) (hb : q b) (hlt : weightSum weight q L < threshold) (hwrap : bound ≤ weightSum weight q L + weight b)
    (hafter : weightSum weight q L + weight b - bound + weightSum weight q R < threshold) :
    ∃ t s', accumulate bound threshold weight test (L ++ b :: R) 0 s = .ok (some t, s') ∧ I s' ∧ t < threshold := by
  have hbefore : 0 + weightSum weight q L < threshold := by rwa [Nat.zero_add]
  obtain ⟨s₁, h₁, hs₁⟩ := accumulate_below (fun x hx => htest x (List.mem_append_left _ hx)) hs hle hbefore
  obtain ⟨yes, s₂, h₂, hs₂, hyes⟩ := htest b (List.mem_append_right _ List.mem_cons_self) s₁ hs₁
  obtain rfl := hyes.mpr hb
  obtain ⟨s₃, h₃, hs₃⟩ := accumulate_below
    (fun x hx => htest x (List.mem_append_right _ (List.mem_cons_of_mem _ hx))) hs₂ hle hafter
  have hmod : (0 + weightSum weight q L + weight b) % bound = weightSum weight q L + weight b - bound := by
    rw [Nat.zero_add, Nat.mod_eq_sub_mod hwrap, Nat.mod_eq_of_lt (by omega)]
  refine ⟨_, s₃, ?_, hs₃, hafter⟩
  rw [accumulate_append, h₁, ok_bind]
  dsimp only
  rw [accumulate_yes h₂, hmod, if_neg (by omega)]
  exact h₃

/-- When a total can wrap, there are entries that reach the threshold together, and a loop that passes exactly these does not
    find it reached. -/
theorem exists_wrap (hsteady : ¬Steady bound threshold weight forced es) (hnodup : es.Nodup) (hle : threshold ≤ bound)
    (hsmall : ∀ b ∈ es, 2 * weight b + weightSum weight forced es ≤ bound) :
    ∃ q : β → Prop, (∀ b, forced b → q b) ∧ threshold ≤ weightSum weight q es ∧
      ∀ {σ ε : Type} (I : σ → Prop) (test : β → σ → Except ε (Bool × σ)) (s : σ),
        (∀ b ∈ es, ∀ s, I s → ∃ yes s', test b s = .ok (yes, s') ∧ I s' ∧ (yes = true ↔ q b)) → I s →
          ∃ t s', accumulate bound threshold weight test es 0 s = .ok (some t, s') ∧ I s' ∧ t < threshold := by
  simp only [Steady, not_forall, not_lt] at hsteady
  obtain ⟨p, hp, L, b, R, rfl, hb, hlt, hwrap⟩ := hsteady
  have hsmall := hsmall b (List.mem_append_right _ List.mem_cons_self)
  obtain ⟨-, hR, hdisj⟩ := List.nodup_append'.mp hnodup
  obtain ⟨q, hq⟩ : ∃ q : β → Prop, ∀ x, q x ↔ forced x ∨ p x ∧ x ∈ L ++ [b] := ⟨_, fun _ => Iff.rfl⟩
  have hqL : weightSum weight q L = weightSum weight p L := by
    refine weightSum_congr fun x hx => (hq x).trans ⟨?_, fun h => .inr ⟨h, List.mem_append_left _ hx⟩⟩
    rintro (h | h)
    · exact hp x h
    · exact h.1
  have hqb : q b := (hq b).mpr (.inr ⟨hb, List.mem_append_right _ List.mem_cons_self⟩)
  have hqR : weightSum weight q R = weightSum weight forced R := by
    refine weightSum_congr fun x hx => (hq x).trans (or_iff_left ?_)
    rintro ⟨-, hmem⟩
    rcases List.mem_append.mp hmem with h | h
    · exact hdisj h (List.mem_cons_of_mem _ hx)
    · obtain rfl := List.mem_singleton.mp h
      exact (List.nodup_cons.mp hR).1 hx
  have hforced : weightSum weight forced R ≤ weightSum weight forced (L ++ b :: R) := by
    rw [weightSum_append]
    by_cases hf : forced b
    · rw [weightSum_cons_of_pos hf]
      omega
    · rw [weightSum_cons_of_neg hf]
      omega
  refine ⟨q, fun x hx => (hq x).mpr (.inl hx), ?_, fun {σ ε} I test s htest hs => ?_⟩
  · rw [weightSum_append, hqL, weightSum_cons_of_pos hqb]
    omega
  · exact accumulate_wraps htest hs hle hqb (by omega) (by omega) (by omega)

/-! ### Loops that follow another -/

section
variable {τ ε' α : Type} {R : σ → τ → Prop} {Bad : τ → Prop} {test' : β → τ → Except ε' (Bool × τ)} {u : τ}

/-- The second computation returns, and the first returns the same from related states unless the second one's ends badly: then
    it fails. -/
def Follows (R : σ → τ → Prop) (Bad : τ → Prop) (x : Except ε (α × σ)) (y : Except ε' (α × τ)) : Prop :=
  ∃ a u, y = .ok (a, u) ∧ ((¬Bad u ∧ ∃ s, x = .ok (a, s) ∧ R s u) ∨ (Bad u ∧ ∃ e, x = .error e))

/-- The computation returns, badly. -/
def EndsBadly (Bad : τ → Prop) (y : Except ε' (α × τ)) : Prop := ∃ a u, y = .ok (a, u) ∧ Bad u

theorem accumulate_endsBadly (hbad : ∀ b ∈ es, ∀ u, Bad u → EndsBadly Bad (test' b u)) (hu : Bad u) :
    EndsBadly Bad (accumulate bound threshold weight test' es total u) := by
  induction es generalizing total u with
  | nil => exact ⟨_, u, rfl, hu⟩
  | cons b es ih =>
    obtain ⟨yes, u', hb, hu'⟩ := hbad b List.mem_cons_self u hu
    have htail := fun b hb => hbad b (List.mem_cons_of_mem _ hb)
    cases yes with
    | true =>
      rw [accumulate_yes hb]
      split
      · exact ⟨none, u', rfl, hu'⟩
      · exact ih htail hu'
    | false =>
      rw [accumulate_no hb]
      exact ih htail hu'

/-- A loop follows another when its tests do. -/
theorem accumulate_follows (hstep : ∀ b ∈ es, ∀ s u, R s u → ¬Bad u → Follows R Bad (test b s) (test' b u))
    (hbad : ∀ b ∈ es, ∀ u, Bad u → EndsBadly Bad (test' b u)) (hs : R s u) (hu : ¬Bad u) :
    Follows R Bad (accumulate bound threshold weight test es total s) (accumulate bound threshold weight test' es total u) := by
  induction es generalizing total s u with
  | nil => exact ⟨_, u, rfl, .inl ⟨hu, s, rfl, hs⟩⟩
  | cons b es ih =>
    have htail := fun b hb => hstep b (List.mem_cons_of_mem _ hb)
    have htail' := fun b hb => hbad b (List.mem_cons_of_mem _ hb)
    obtain ⟨yes, u', hb', ⟨hu', s', hb, hs'⟩ | ⟨hu', e, hb⟩⟩ := hstep b List.mem_cons_self s u hs hu
    · cases yes with
      | true =>
        rw [accumulate_yes hb, accumulate_yes hb']
        split
        · exact ⟨none, u', rfl, .inl ⟨hu', s', rfl, hs'⟩⟩
        · exact ih htail htail' hs' hu'
      | false =>
        rw [accumulate_no hb, accumulate_no hb']
        exact ih htail htail' hs' hu'
    · rw [accumulate_error hb]
      cases yes with
      | true =>
        rw [accumulate_yes hb']
        split
        · exact ⟨none, u', rfl, .inr ⟨hu', e, rfl⟩⟩
        · obtain ⟨r, u'', h, hbad⟩ := accumulate_endsBadly htail' hu'
          exact ⟨r, u'', h, .inr ⟨hbad, e, rfl⟩⟩
      | false =>
        rw [accumulate_no hb']
        obtain ⟨r, u'', h, hbad⟩ := accumulate_endsBadly htail' hu'
        exact ⟨r, u'', h, .inr ⟨hbad, e, rfl⟩⟩

end

end Khc.Lib
