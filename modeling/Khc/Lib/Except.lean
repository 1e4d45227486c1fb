import Mathlib.Data.List.Basic
import Mathlib.Logic.Basic

/-! # Computations that may throw or fail, and loops of them -/

/-! Computations that may throw: what it means that one has returned or thrown, in terms of its parts. -/

namespace Khc.Lib

variable {ε α β : Type} {x : Except ε α} {f : α → Except ε β} {a a' : α} {b : β} {e e' : ε}

theorem bind_eq_ok : (x >>= f) = .ok b ↔ ∃ a, x = .ok a ∧ f a = .ok b := by
  cases x <;> simp [bind, Except.bind]

theorem ok_bind : ((.ok a : Except ε α) >>= f) = f a := rfl

theorem bind_eq_error : (x >>= f) = .error e ↔ x = .error e ∨ ∃ a, x = .ok a ∧ f a = .error e := by
  cases x <;> simp [bind, Except.bind]

theorem pure_eq_ok : (pure a : Except ε α) = .ok a' ↔ a = a' := by
  simp [pure, Except.pure]

theorem pure_eq_error : (pure a : Except ε α) = .error e ↔ False := by
  simp [pure, Except.pure]

theorem map_eq_error {g : α → β} : (g <$> x) = .error e ↔ x = .error e := by
  cases x <;> simp [Functor.map, Except.map]

theorem throw_eq_error : (throw e : Except ε α) = .error e' ↔ e = e' := by
  simp [throw, throwThe, MonadExceptOf.throw]

theorem throw_ne_ok : (throw e : Except ε α) = .ok a ↔ False := by
  simp [throw, throwThe, MonadExceptOf.throw]

theorem toOption_eq_some : x.toOption = some a ↔ x = .ok a := by
  cases x <;> simp [Except.toOption]

/-- A check that throws the error when it fails -/
def ensure (c : Prop) [Decidable c] (e : ε) : Except ε Unit := if c then .ok () else .error e

@[simp] theorem ensure_eq_ok {c : Prop} [Decidable c] {u : Unit} : ensure c e = .ok u ↔ c := by
  unfold ensure
  split <;> simp_all

theorem ensure_eq_error {c : Prop} [Decidable c] : ensure c e = .error e' ↔ ¬c ∧ e = e' := by
  unfold ensure
  split <;> simp_all

/-- What comes after a guarded check is reached either way. -/
theorem guarded_eq_ok {c : Prop} [Decidable c] {x : Except ε Unit} {k : Unit → Except ε β} {b : β}
    (h : (if c then x >>= k else k ()) = .ok b) : k () = .ok b := by
  split at h
  · exact (bind_eq_ok.mp h).choose_spec.2
  · exact h

theorem guarded_eq_ok₂ {c : Prop} [Decidable c] {x y : Except ε Unit} {k : Unit → Except ε β} {b : β}
    (h : (if c then x >>= fun _ => y >>= k else k ()) = .ok b) : k () = .ok b := by
  rw [← bind_assoc] at h
  exact guarded_eq_ok h

/-- What each round of a loop keeps holds at its end, and what each shows of its element holds of all. -/
theorem foldlM_forall {g : β → α → Except ε β} {I : β → Prop} {Q : α → Prop} {l : List α} {b c : β}
    (keep : ∀ a ∈ l, ∀ b c, I b → g b a = .ok c → I c ∧ Q a) (h₀ : I b) (h : l.foldlM g b = .ok c) : I c ∧ ∀ a ∈ l, Q a := by
  induction l generalizing b with
  | nil =>
    obtain rfl := Except.ok.inj h
    exact ⟨h₀, fun a ha => absurd ha List.not_mem_nil⟩
  | cons a l ih =>
    rw [List.foldlM_cons, bind_eq_ok] at h
    obtain ⟨b₁, h₁, h⟩ := h
    obtain ⟨hb₁, ha⟩ := keep a List.mem_cons_self b b₁ h₀ h₁
    obtain ⟨hc, hl⟩ := ih (fun a ha => keep a (List.mem_cons_of_mem _ ha)) hb₁ h
    exact ⟨hc, List.forall_mem_cons.mpr ⟨ha, hl⟩⟩

/-- What each round of a loop keeps holds at its end. -/
theorem foldlM_invariant {g : β → α → Except ε β} {I : β → Prop} (keep : ∀ b a c, I b → g b a = .ok c → I c)
    {l : List α} {b c : β} (h₀ : I b) (h : l.foldlM g b = .ok c) : I c :=
  (foldlM_forall (Q := fun _ => True) (fun a _ b c hb hc => ⟨keep b a c hb hc, trivial⟩) h₀ h).1

/-- A loop whose rounds all return, returns. -/
theorem foldlM_total {g : β → α → Except ε β} {I : β → Prop} {l : List α} {b : β}
    (total : ∀ a ∈ l, ∀ b, I b → ∃ c, g b a = .ok c ∧ I c) (h₀ : I b) : ∃ c, l.foldlM g b = .ok c ∧ I c := by
  induction l generalizing b with
  | nil => exact ⟨b, rfl, h₀⟩
  | cons a l ih =>
    obtain ⟨b₁, h₁, hb₁⟩ := total a List.mem_cons_self b h₀
    obtain ⟨c, h, hc⟩ := ih (fun a ha => total a (List.mem_cons_of_mem _ ha)) hb₁
    exact ⟨c, by rw [List.foldlM_cons, h₁, ok_bind, h], hc⟩

/-- The results of a loop over a list, where another function knows them. -/
theorem mapM_eq_filterMap {f : α → Except ε β} {g : α → Option β} {l : List α} (h : ∀ a ∈ l, ∃ b, f a = .ok b ∧ g a = some b) :
    l.mapM f = .ok (l.filterMap g) := by
  induction l with
  | nil => rfl
  | cons a l ih =>
    obtain ⟨b, hf, hg⟩ := h a List.mem_cons_self
    rw [List.mapM_cons, hf, ok_bind, ih fun a' ha' => h a' (List.mem_cons_of_mem _ ha'), ok_bind, List.filterMap_cons_some hg]
    rfl

/-- Each result of such a loop is one of its function. -/
theorem exists_of_mapM {f : α → Except ε β} {l : List α} {l' : List β} (h : l.mapM f = .ok l') :
    l'.length = l.length ∧ ∀ b ∈ l', ∃ a ∈ l, f a = .ok b := by
  induction l generalizing l' with
  | nil =>
    obtain rfl := Except.ok.inj h
    exact ⟨rfl, fun _ hb => absurd hb List.not_mem_nil⟩
  | cons a l ih =>
    rw [List.mapM_cons, bind_eq_ok] at h
    obtain ⟨b, hb, h⟩ := h
    obtain ⟨m, hm, h⟩ := bind_eq_ok.mp h
    obtain rfl := pure_eq_ok.mp h
    obtain ⟨hlength, hall⟩ := ih hm
    refine ⟨by rw [List.length_cons, hlength, List.length_cons], ?_⟩
    rw [List.forall_mem_cons]
    refine ⟨⟨a, List.mem_cons_self, hb⟩, fun c hc => ?_⟩
    obtain ⟨a', ha', hc'⟩ := hall c hc
    exact ⟨a', List.mem_cons_of_mem _ ha', hc'⟩

/-- A loop that only checks returns where all the checks do. -/
theorem forM_eq_ok {f : α → Except ε PUnit} {l : List α} {u : PUnit} : l.forM f = .ok u ↔ ∀ a ∈ l, f a = .ok () := by
  induction l with
  | nil => exact ⟨fun _ _ h => absurd h List.not_mem_nil, fun _ => rfl⟩
  | cons a l ih =>
    rw [List.forM, bind_eq_ok, List.forall_mem_cons, ← ih]
    exact ⟨fun ⟨_, ha, hl⟩ => ⟨ha, hl⟩, fun ⟨ha, hl⟩ => ⟨_, ha, hl⟩⟩

end Khc.Lib

/-! Computations in `Option`, and loops, which end with the first round that fails. -/

namespace Khc.Lib
variable {α β γ ε : Type}

theorem map_toOption_eq_some {x : Except ε α} {f : α → β} {b : β} (h : (do return f (← x.toOption)) = some b) :
    ∃ a, x = .ok a ∧ f a = b := by
  cases x with
  | error e => cases h
  | ok a => exact ⟨a, rfl, Option.some.inj h⟩

theorem toOption_bind_eq_some {x : Except ε α} {f : α → Option β} {b : β} (h : (do f (← x.toOption)) = some b) :
    ∃ a, x = .ok a ∧ f a = some b := by
  cases x with
  | error e => cases h
  | ok a => exact ⟨a, rfl, h⟩

theorem guard_bind_eq_some {p : Prop} [Decidable p] {x : Option β} {b : β} (h : (do guard p; x) = some b) : p ∧ x = some b := by
  by_cases hp : p
  · rw [guard, if_pos hp] at h
    exact ⟨hp, h⟩
  · rw [guard, if_neg hp] at h
    cases h

section
variable {f : β → α → Option β} {l : List α} {b b' : β} {I J : β → Prop}

theorem foldlM_cons_eq_some {a : α} : (a :: l).foldlM f b = some b' ↔ ∃ b₁, f b a = some b₁ ∧ l.foldlM f b₁ = some b' := by
  rw [List.foldlM_cons]
  exact Option.bind_eq_some_iff

theorem foldlM_keeps (hf : ∀ b b', ∀ a ∈ l, f b a = some b' → I b → I b') (h : l.foldlM f b = some b') (hb : I b) : I b' := by
  induction l generalizing b with
  | nil =>
    obtain rfl := Option.some.inj h
    exact hb
  | cons a l ih =>
    obtain ⟨b₁, h₁, h⟩ := foldlM_cons_eq_some.mp h
    exact ih (fun b b' a' ha' => hf b b' a' (.tail _ ha')) h (hf b b₁ a (.head _) h₁ hb)

/-- One round turns the first condition into the second; the rounds before it keep the first and all keep the second. -/
theorem foldlM_turns {a : α} (ha : a ∈ l) (hbefore : ∀ b b', ∀ a' ∈ l, a' ≠ a → f b a' = some b' → I b → I b')
    (hturn : ∀ b b', f b a = some b' → I b → J b') (hafter : ∀ b b' a', f b a' = some b' → J b → J b')
    (h : l.foldlM f b = some b') (hb : I b) : J b' := by
  induction l generalizing b with
  | nil => cases ha
  | cons a₀ l ih =>
    obtain ⟨b₁, h₁, h⟩ := foldlM_cons_eq_some.mp h
    by_cases heq : a₀ = a
    · subst heq
      exact foldlM_keeps (fun b b' a' _ => hafter b b' a') h (hturn b b₁ h₁ hb)
    · have hin : a ∈ l := (List.mem_cons.mp ha).resolve_left fun h => heq h.symm
      exact ih hin (fun b b' a' ha' => hbefore b b' a' (.tail _ ha')) h (hbefore b b₁ a₀ (.head _) heq h₁ hb)

end

end Khc.Lib

/-! Errors that a computation does not throw. A loop that is given a number of rounds throws one of its own when they run
    out, and does not with enough of them. -/

namespace Khc.Lib

variable {ε α β : Type} {x : Except ε α} {f : α → Except ε β} {e e' : ε} {a : α}

/-- The computation does not throw the error. -/
def Never (e : ε) (x : Except ε α) : Prop := x ≠ .error e

/-- Some number of rounds is enough, and so is every greater one. -/
def Enough (e : ε) (loop : Nat → Except ε α) : Prop := ∃ n, ∀ fuel ≥ n, Never e (loop fuel)

@[simp] theorem never_ok : Never e (.ok a) := by simp [Never]

@[simp] theorem never_pure : Never e (pure a) := by simp [Never, pure, Except.pure]

@[simp] theorem never_error : Never e (.error e' : Except ε α) ↔ e' ≠ e := by simp [Never]

@[simp] theorem never_throw : Never e (throw e' : Except ε α) ↔ e' ≠ e := by
  simp [Never, throw, throwThe, MonadExceptOf.throw]

/-- Neither part throws the error, the second one on what the first one returns. -/
@[simp] theorem never_bind : Never e (x >>= f) ↔ Never e x ∧ ∀ a, x = .ok a → Never e (f a) := by
  cases x with
  | error e' => simp [Never, bind, Except.bind]
  | ok a => simp [Never, bind, Except.bind]

@[simp] theorem never_map {g : α → β} : Never e (g <$> x) ↔ Never e x := by
  cases x <;> simp [Never, Functor.map, Except.map]

@[simp] theorem never_ite {c : Prop} [Decidable c] {y : Except ε α} :
    Never e (if c then x else y) ↔ (c → Never e x) ∧ (¬c → Never e y) := by
  split <;> simp [*]

theorem never_foldlM {g : β → α → Except ε β} {l : List α} {b : β} (h : ∀ b a, Never e (g b a)) : Never e (l.foldlM g b) := by
  induction l generalizing b with
  | nil => exact never_ok
  | cons a l ih =>
    rw [List.foldlM_cons]
    exact never_bind.mpr ⟨h b a, fun _ _ => ih⟩

/-! ### Computations that throw nothing else -/

/-- The computation throws no other error. -/
def Only (e : ε) (x : Except ε α) : Prop := ∀ e', x = .error e' → e' = e

theorem only_ok : Only e (.ok a) := by simp [Only]

theorem only_pure : Only e (pure a) := by simp [Only, pure, Except.pure]

theorem only_throw : Only e (throw e : Except ε α) := fun _ h => (Except.error.inj h).symm

theorem only_of_ok (h : ∃ a, x = .ok a) : Only e x := by
  obtain ⟨a, rfl⟩ := h
  exact only_ok

theorem only_bind (hx : Only e x) (hf : ∀ a, x = .ok a → Only e (f a)) : Only e (x >>= f) := by
  cases x with
  | error e₁ =>
    intro e₂ h
    obtain rfl : e₁ = e₂ := Except.error.inj h
    exact hx _ rfl
  | ok a => exact hf a rfl

theorem only_ite {c : Prop} [Decidable c] {y : Except ε α} (hx : c → Only e x) (hy : ¬c → Only e y) :
    Only e (if c then x else y) := by
  split
  · exact hx ‹_›
  · exact hy ‹_›

/-- A computation that throws one error at most, and does not throw that, returns. -/
theorem Never.total (h : Never e x) (honly : Only e x) : ∃ a, x = .ok a := by
  cases x with
  | error e' => exact absurd (congrArg Except.error (honly e' rfl)) h
  | ok a => exact ⟨a, rfl⟩

end Khc.Lib
