import Mathlib.Algebra.Group.Basic
import Mathlib.Algebra.Group.Nat.Defs
import Mathlib.Data.List.Basic

/-! Runs of a deterministic transition system `step : σ → ι → σ`: the state a list of inputs leads to, what
    holds at each of its steps (`Along`), what happens at one of them (`At`), and what its steps add up to
    (`tally`). Invariants of runs are proved here once, from one step. -/

namespace Khc.Lib

variable {σ ι : Type}

/-- The state after the inputs, one after the other. -/
def run (step : σ → ι → σ) (s : σ) (is : List ι) : σ := is.foldl step s

/-- Each input meets the condition in the state it is applied in. -/
def Along (step : σ → ι → σ) (P : σ → ι → Prop) : σ → List ι → Prop
  | _, [] => True
  | s, i :: is => P s i ∧ Along step P (step s i) is

/-- Input `i` of the run is applied in state `t`. -/
def At (step : σ → ι → σ) (s : σ) (is : List ι) (t : σ) (i : ι) : Prop :=
  ∃ before after, is = before ++ i :: after ∧ t = run step s before

instance Along.decidable {step : σ → ι → σ} {P : σ → ι → Prop} [∀ s i, Decidable (P s i)] :
    (s : σ) → (is : List ι) → Decidable (Along step P s is)
  | _, [] => .isTrue trivial
  | s, i :: is =>
    have : Decidable (Along step P (step s i) is) := Along.decidable (step s i) is
    inferInstanceAs (Decidable (P s i ∧ Along step P (step s i) is))

/-- What the steps of a run add up to. -/
def tally {M : Type} [AddCommMonoid M] (step : σ → ι → σ) (f : σ → ι → M) : σ → List ι → M
  | _, [] => 0
  | s, i :: is => f s i + tally step f (step s i) is

section
variable {step : σ → ι → σ} {P Q : σ → ι → Prop} {s t : σ} {i : ι} {is js : List ι}

@[simp] theorem run_nil : run step s [] = s := rfl

@[simp] theorem run_cons : run step s (i :: is) = run step (step s i) is := rfl

theorem run_append : run step s (is ++ js) = run step (run step s is) js := List.foldl_append

@[simp] theorem run_snoc : run step s (is ++ [i]) = step (run step s is) i := by
  rw [run_append, run_cons, run_nil]

@[simp] theorem along_nil : Along step P s [] := trivial

theorem along_append : Along step P s (is ++ js) ↔ Along step P s is ∧ Along step P (run step s is) js := by
  induction is generalizing s with
  | nil => simp
  | cons i is ih => simp only [List.cons_append, Along, run_cons, ih, and_assoc]

theorem along_snoc : Along step P s (is ++ [i]) ↔ Along step P s is ∧ P (run step s is) i := by
  rw [along_append]
  simp [Along]

theorem Along.mono (h : Along step P s is) (hPQ : ∀ t i, P t i → Q t i) : Along step Q s is := by
  induction is generalizing s with
  | nil => trivial
  | cons i is ih => exact ⟨hPQ _ _ h.1, ih h.2⟩

theorem Along.at (h : Along step P s is) (ha : At step s is t i) : P t i := by
  obtain ⟨before, after, rfl, rfl⟩ := ha
  exact (along_append.mp h).2.1

theorem along_iff_at : Along step P s is ↔ ∀ t i, At step s is t i → P t i := by
  refine ⟨fun h t i ha => h.at ha, fun h => ?_⟩
  induction is generalizing s with
  | nil => trivial
  | cons i is ih =>
    refine ⟨h s i ⟨[], is, rfl, rfl⟩, ih fun t j ha => h t j ?_⟩
    obtain ⟨before, after, rfl, rfl⟩ := ha
    exact ⟨i :: before, after, rfl, rfl⟩

theorem At.snoc (h : At step s is t i) (j : ι) : At step s (is ++ [j]) t i := by
  obtain ⟨before, after, rfl, rfl⟩ := h
  exact ⟨before, after ++ [j], by simp, rfl⟩

theorem at_last : At step s (is ++ [i]) (run step s is) i := ⟨is, [], rfl, rfl⟩

theorem at_snoc {j : ι} : At step s (is ++ [i]) t j ↔ At step s is t j ∨ (t = run step s is ∧ j = i) := by
  constructor
  · rintro ⟨before, after, heq, rfl⟩
    rcases List.eq_nil_or_concat after with rfl | ⟨after, k, rfl⟩
    · obtain ⟨rfl, hj⟩ := List.append_inj' heq rfl
      exact .inr ⟨rfl, (List.singleton_inj.mp hj).symm⟩
    · rw [List.concat_eq_append, ← List.cons_append, ← List.append_assoc] at heq
      exact .inl ⟨before, after, (List.append_inj' heq rfl).1, rfl⟩
  · rintro (h | ⟨rfl, rfl⟩)
    · exact h.snoc i
    · exact at_last

/-- The prefix of a run that leads to one of its steps meets what the run meets. -/
theorem Along.before (h : Along step P s is) (ha : At step s is t i) :
    ∃ before, Along step P s before ∧ t = run step s before := by
  obtain ⟨before, after, rfl, rfl⟩ := ha
  exact ⟨before, (along_append.mp h).1, rfl⟩

/-- What holds at the start and is kept by each step that meets the condition holds in every state that a
    run meeting the condition reaches. -/
theorem run_invariant {I : σ → Prop} (keep : ∀ t i, I t → P t i → I (step t i)) (h : Along step P s is)
    (h₀ : I s) : I (run step s is) := by
  induction is generalizing s with
  | nil => exact h₀
  | cons i is ih => exact ih h.2 (keep s i h₀ h.1)

/-- Two runs through steps that come to the same where the first one meets the condition -/
theorem run_eq_of_forall₂ {R : ι → ι → Prop} (same : ∀ t i j, P t i → R i j → step t i = step t j)
    (hR : List.Forall₂ R is js) (h : Along step P s is) : run step s is = run step s js := by
  induction hR generalizing s with
  | nil => rfl
  | cons hij _ ih =>
    rw [run_cons, run_cons, ← same s _ _ h.1 hij]
    exact ih h.2

/-- An invariant of all steps. -/
theorem run_invariant_all {I : σ → Prop} (keep : ∀ t i, I t → I (step t i)) (h₀ : I s) :
    I (run step s is) :=
  run_invariant (P := fun _ _ => True) (fun t i h _ => keep t i h) (along_iff_at.mpr fun _ _ _ => trivial) h₀

theorem tally_append {M : Type} [AddCommMonoid M] {f : σ → ι → M} :
    tally step f s (is ++ js) = tally step f s is + tally step f (run step s is) js := by
  induction is generalizing s with
  | nil => simp [tally]
  | cons i is ih => simp [tally, ih, add_assoc]

@[simp] theorem tally_snoc {M : Type} [AddCommMonoid M] {f : σ → ι → M} :
    tally step f s (is ++ [i]) = tally step f s is + f (run step s is) i := by
  rw [tally_append]
  simp [tally]

theorem tally_add {M : Type} [AddCommMonoid M] {f g : σ → ι → M} :
    tally step (fun t i => f t i + g t i) s is = tally step f s is + tally step g s is := by
  induction is generalizing s with
  | nil => simp [tally]
  | cons i is ih => simp only [tally, ih, add_add_add_comm]

/-- A step that counts is counted. -/
theorem At.le_tally {f : σ → ι → Nat} (h : At step s is t i) : f t i ≤ tally step f s is := by
  obtain ⟨before, after, rfl, rfl⟩ := h
  rw [tally_append, tally]
  omega

end

/-! ### Steps that may fail -/

/-- The states that successful steps lead to, each of them taken where the condition holds. -/
inductive Reaches (step : σ → ι → Option σ) (P : σ → ι → Prop) (s : σ) : σ → Prop
  | refl : Reaches step P s s
  | step {t u : σ} {i : ι} (h : Reaches step P s t) (hP : P t i) (hs : step t i = some u) : Reaches step P s u

section
variable {step : σ → ι → Option σ} {P : σ → ι → Prop} {s t : σ} {I : σ → Prop}

/-- What a step keeps where the condition holds is kept by such runs. -/
theorem Reaches.invariant (h : Reaches step P s t) (keep : ∀ t i u, I t → P t i → step t i = some u → I u) (h₀ : I s) :
    I t := by
  induction h with
  | refl => exact h₀
  | step _ hP hs ih => exact keep _ _ _ ih hP hs

theorem Reaches.head {i : ι} {u : σ} (h : Reaches step P u t) (hP : P s i) (hs : step s i = some u) : Reaches step P s t := by
  induction h with
  | refl => exact .step .refl hP hs
  | step _ hP' hs' ih => exact .step ih hP' hs'

/-- The state that a list of inputs leads to -/
theorem Reaches.of_foldlM {is : List ι} (h : is.foldlM step s = some t) (hP : ∀ t, ∀ i ∈ is, P t i) : Reaches step P s t := by
  induction is generalizing s with
  | nil =>
    obtain rfl := Option.some.inj h
    exact .refl
  | cons i is ih =>
    rw [List.foldlM_cons, Option.bind_eq_bind, Option.bind_eq_some_iff] at h
    obtain ⟨u, hu, h⟩ := h
    exact (ih h fun t j hj => hP t j (List.mem_cons_of_mem _ hj)).head (hP s i List.mem_cons_self) hu

end

end Khc.Lib
