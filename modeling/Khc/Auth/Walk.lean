import Khc.Auth.Verify

/-! What a check of an authority does: its three loops are one over the members, and what each test of a member keeps and shows,
    the check keeps and shows of the authority. -/

namespace Khc.Auth

open Lib Authority

variable {K A : Type} [LinearOrder K] [LinearOrder A]

/-- The members for which the property holds reach the threshold. -/
def Authority.Reached (P : Member K A → Prop) (au : Authority K A) : Prop :=
  au.weightThreshold.toNat ≤ weightSum weightOf (fun e => P e.1) au.members

theorem Authority.Reached.mono {P Q : Member K A → Prop} {au : Authority K A} (h : au.Reached P)
    (hPQ : ∀ e ∈ au.members, P e.1 → Q e.1) : au.Reached Q := h.trans (weightSum_mono hPQ)

namespace SignState
variable [AddressHash K A] {c : SignContext K A} {deeper : Option (Option (Authority K A) → SignState K A → Eval K A (Bool × SignState K A))}
  {au : Option (Authority K A)} {auth : Authority K A} {s s' s₁ : SignState K A} {yes : Bool} {n : Nat} {k : K} {a : A} {x : AccountId}

/-- The test of a member -/
def signedBy (c : SignContext K A)
    (deeper : Option (Option (Authority K A) → SignState K A → Eval K A (Bool × SignState K A))) :
    Member K A → SignState K A → Eval K A (Bool × SignState K A)
  | .key k => fun s => .ok (signedByKey c k s)
  | .address a => signedByAddress c a
  | .account x => approvedByAccount c deeper x

/-- The three loops as one -/
def addMembers (c : SignContext K A)
    (deeper : Option (Option (Authority K A) → SignState K A → Eval K A (Bool × SignState K A))) (auth : Authority K A) :
    SignState K A → Eval K A (Option Nat × SignState K A) :=
  accumulate (2 ^ 32) auth.weightThreshold.toNat weightOf (fun e => signedBy c deeper e.1) auth.members 0

theorem accumulate_members {κ : Type} {f : κ → Member K A} (test : κ → SignState K A → Eval K A (Bool × SignState K A))
    {l : List (κ × Weight)} {total : Nat} (htest : ∀ y, signedBy c deeper (f y) = test y) :
    accumulate (2 ^ 32) auth.weightThreshold.toNat weightOf (fun e => signedBy c deeper e.1) (l.map fun e => (f e.1, e.2)) total s =
      addWeights auth test l total s := by
  obtain rfl : (fun y => signedBy c deeper (f y)) = test := funext htest
  exact accumulate_map

theorem walk_some : walk c deeper (some auth) s = addMembers c deeper auth s >>= fun r =>
    .ok (r.1.elim true fun total => decide (auth.weightThreshold.toNat ≤ total), r.2) := by
  simp only [walk, addMembers, members]
  rw [accumulate_append, accumulate_members (fun k s => .ok (signedByKey c k s)) fun _ => rfl]
  rcases addWeights auth (fun k s => .ok (signedByKey c k s)) auth.keyAuths.entries 0 s with e | ⟨_ | total, s⟩
  · rfl
  · rfl
  simp only [ok_bind]
  rw [accumulate_append, accumulate_members (signedByAddress c) fun _ => rfl]
  rcases addWeights auth (signedByAddress c) auth.addressAuths.entries total s with e | ⟨_ | total, s⟩
  · rfl
  · rfl
  simp only [ok_bind]
  rw [accumulate_members (approvedByAccount c deeper) fun _ => rfl]
  rcases addWeights auth (approvedByAccount c deeper) auth.accountAuths.entries total s with e | ⟨_ | total, s⟩
  · rfl
  · rfl
  · rfl

/-- What a check calls one deeper -/
def deeperOf (c : SignContext K A) : Nat → Option (Option (Authority K A) → SignState K A → Eval K A (Bool × SignState K A))
  | 0 => none
  | n + 1 => some (checkAuthority c n)

theorem checkAuthority_none : checkAuthority c n none s = .ok (false, s) := by
  cases n <;> rfl

theorem checkAuthority_some : checkAuthority c n (some auth) s = addMembers c (deeperOf c n) auth s >>= fun r =>
    .ok (r.1.elim true fun total => decide (auth.weightThreshold.toNat ≤ total), r.2) := by
  cases n <;> exact walk_some

omit [AddressHash K A] in
theorem approvedByAccount_of_mem (h : x ∈ s.approvedBy) : approvedByAccount c deeper x s = .ok (true, s) := if_pos h

theorem approvedByAccount_zero (h : x ∉ s.approvedBy) : approvedByAccount c (deeperOf c 0) x s = .ok (false, s) := if_neg h

theorem approvedByAccount_succ (h : x ∉ s.approvedBy) : approvedByAccount c (deeperOf c (n + 1)) x s =
    checkAuthority c n (c.getActive x) s >>= fun r => if r.1 then .ok (true, r.2.approve x) else .ok (false, r.2) := if_neg h

/-- What a test of an account comes from. -/
theorem approvedByAccount_eq_ok (h : approvedByAccount c (deeperOf c n) x s = .ok (yes, s')) :
    yes = true ∧ s' = s ∧ x ∈ s.approvedBy ∨ x ∉ s.approvedBy ∧
      (n = 0 ∧ yes = false ∧ s' = s ∨ ∃ m s₁, n = m + 1 ∧ checkAuthority c m (c.getActive x) s = .ok (yes, s₁) ∧
        s' = if yes then s₁.approve x else s₁) := by
  by_cases hx : x ∈ s.approvedBy
  · rw [approvedByAccount_of_mem hx] at h
    obtain ⟨rfl, rfl⟩ := Prod.mk.inj (Except.ok.inj h)
    exact .inl ⟨rfl, rfl, hx⟩
  · refine .inr ⟨hx, ?_⟩
    cases n with
    | zero =>
      rw [approvedByAccount_zero hx] at h
      obtain ⟨rfl, rfl⟩ := Prod.mk.inj (Except.ok.inj h)
      exact .inl ⟨rfl, rfl, rfl⟩
    | succ m =>
      rw [approvedByAccount_succ hx, bind_eq_ok] at h
      obtain ⟨⟨yes₁, s₁⟩, hcheck, h⟩ := h
      cases yes₁ <;>
      · obtain ⟨rfl, rfl⟩ := Prod.mk.inj (Except.ok.inj h)
        exact .inr ⟨m, s₁, rfl, hcheck, rfl⟩

section
variable {I : SignState K A → Prop} {P : Member K A → Prop} {W : Authority K A → Prop}

/-- What each test of a member keeps and shows, given what the checks one deeper do. -/
theorem checkAuthority_step
    (hkey : ∀ k ∈ auth.keyAuths.keys, ∀ s, I s → I (signedByKey c k s).2 ∧ ((signedByKey c k s).1 = true → P (.key k)))
    (haddress : ∀ a ∈ auth.addressAuths.keys, ∀ s yes s', I s → signedByAddress c a s = .ok (yes, s') →
      I s' ∧ (yes = true → P (.address a)))
    (happroved : ∀ x s, I s → x ∈ s.approvedBy → P (.account x))
    (hcheck : ∀ m, n = m + 1 → ∀ x s yes s₁, I s → x ∉ s.approvedBy → checkAuthority c m (c.getActive x) s = .ok (yes, s₁) →
      I s₁ ∧ (yes = true → I (s₁.approve x) ∧ P (.account x)))
    (hs : I s) (h : checkAuthority c n (some auth) s = .ok (yes, s')) : I s' ∧ (yes = true → auth.Reached P) := by
  rw [checkAuthority_some, bind_eq_ok] at h
  obtain ⟨⟨r, s₁⟩, hloop, h⟩ := h
  obtain ⟨rfl, rfl⟩ := Prod.mk.inj (Except.ok.inj h)
  have htest : ∀ e ∈ auth.members, ∀ s yes s', I s → signedBy c (deeperOf c n) e.1 s = .ok (yes, s') →
      I s' ∧ (yes = true → P e.1) := by
    intro e he s yes s' hs h
    simp only [members, List.mem_append, List.mem_map] at he
    rcases he with ⟨e, he, rfl⟩ | ⟨e, he, rfl⟩ | ⟨e, -, rfl⟩
    · have hkey := hkey e.1 (List.mem_map_of_mem he) s hs
      rw [show signedByKey c e.1 s = (yes, s') from Except.ok.inj h] at hkey
      exact hkey
    · exact haddress e.1 (List.mem_map_of_mem he) _ _ _ hs h
    · rcases approvedByAccount_eq_ok h with ⟨-, rfl, hmem⟩ | ⟨hnot, ⟨-, rfl, rfl⟩ | ⟨m, s₁, hm, h₁, rfl⟩⟩
      · exact ⟨hs, fun _ => happroved _ _ hs hmem⟩
      · exact ⟨hs, fun h => absurd h Bool.false_ne_true⟩
      · obtain ⟨hs₁, hyes⟩ := hcheck m hm _ _ _ _ hs hnot h₁
        cases yes with
        | false => exact ⟨hs₁, fun h => absurd h Bool.false_ne_true⟩
        | true => exact ⟨(hyes rfl).1, fun _ => (hyes rfl).2⟩
  obtain ⟨hs₁, hnone, hsome⟩ := accumulate_sound htest hs hloop
  refine ⟨hs₁, fun hyes => ?_⟩
  cases r with
  | none => exact (hnone rfl).trans (Nat.zero_add _).le
  | some t => exact (of_decide_eq_true hyes).trans ((hsome t rfl).trans (Nat.zero_add _).le)

/-- The rule for checks: `I` is kept by each test, and `P` shown by each that is passed; `W` holds of the authorities that are
    walked through. -/
theorem checkAuthority_rule
    (hkey : ∀ auth, W auth → ∀ k ∈ auth.keyAuths.keys, ∀ s, I s →
      I (signedByKey c k s).2 ∧ ((signedByKey c k s).1 = true → P (.key k)))
    (haddress : ∀ auth, W auth → ∀ a ∈ auth.addressAuths.keys, ∀ s yes s', I s → signedByAddress c a s = .ok (yes, s') →
      I s' ∧ (yes = true → P (.address a)))
    (happroved : ∀ x s, I s → x ∈ s.approvedBy → P (.account x))
    (hdeeper : ∀ x auth s, I s → x ∉ s.approvedBy → c.getActive x = some auth → W auth)
    (happrove : n ≠ 0 → ∀ x auth s, c.getActive x = some auth → auth.Reached P → I s → I (s.approve x) ∧ P (.account x))
    (hW : ∀ auth ∈ au, W auth) (hs : I s) (h : checkAuthority c n au s = .ok (yes, s')) :
    I s' ∧ (yes = true → ∃ auth ∈ au, auth.Reached P) := by
  induction n generalizing au s s' yes with
  | zero =>
    cases au with
    | none =>
      rw [checkAuthority_none] at h
      obtain ⟨rfl, rfl⟩ := Prod.mk.inj (Except.ok.inj h)
      exact ⟨hs, fun h => absurd h Bool.false_ne_true⟩
    | some auth =>
      obtain ⟨hs', hyes⟩ := checkAuthority_step (hkey auth (hW auth rfl)) (haddress auth (hW auth rfl)) happroved (fun _ hm => by cases hm) hs h
      exact ⟨hs', fun h => ⟨auth, rfl, hyes h⟩⟩
  | succ n ih =>
    cases au with
    | none =>
      rw [checkAuthority_none] at h
      obtain ⟨rfl, rfl⟩ := Prod.mk.inj (Except.ok.inj h)
      exact ⟨hs, fun h => absurd h Bool.false_ne_true⟩
    | some auth =>
      have hcheck : ∀ m, n + 1 = m + 1 → ∀ x s yes s₁, I s → x ∉ s.approvedBy → checkAuthority c m (c.getActive x) s = .ok (yes, s₁) →
          I s₁ ∧ (yes = true → I (s₁.approve x) ∧ P (.account x)) := by
        intro m hm x s yes s₁ hs hnot h₁
        obtain rfl := Nat.succ.inj hm
        obtain ⟨hs₁, hreached⟩ := ih (fun _ => happrove (Nat.succ_ne_zero _)) (fun auth hauth => hdeeper x auth s hs hnot hauth) hs h₁
        refine ⟨hs₁, fun hyes => ?_⟩
        obtain ⟨auth, hauth, hreached⟩ := hreached hyes
        exact happrove (Nat.succ_ne_zero _) x auth s₁ hauth hreached hs₁
      obtain ⟨hs', hyes⟩ := checkAuthority_step (hkey auth (hW auth rfl)) (haddress auth (hW auth rfl)) happroved hcheck hs h
      exact ⟨hs', fun h => ⟨auth, rfl, hyes h⟩⟩

end

/-! ### Checks that find what there is -/

/-- The temporary account is always approved. -/
def Temp (e : Member K A × Weight) : Prop := e.1 = .account grapheneTempAccount

end SignState

/-- However the keys and accounts approve, no total of the authority wraps before it reaches the threshold. -/
def Authority.Steady (au : Authority K A) : Prop :=
  Lib.Steady (2 ^ 32) au.weightThreshold.toNat weightOf SignState.Temp au.members

theorem Authority.steady_of_numAuths {au : Authority K A} (h : au.numAuths ≤ 65535) : au.Steady :=
  steady_of_sum_lt (sum_lt_of_numAuths h)

/-- An authority of keys and accounts -/
def Authority.Plain (au : Authority K A) : Prop := au.addressAuths.entries = []

theorem Authority.Plain.mem_members {au : Authority K A} (h : au.Plain) {e : Member K A × Weight} (he : e ∈ au.members) :
    (∃ x ∈ au.keyAuths.entries, (.key x.1, x.2) = e) ∨ ∃ x ∈ au.accountAuths.entries, (.account x.1, x.2) = e := by
  unfold Authority.Plain at h
  simpa only [members, h, List.map_nil, List.nil_append, List.mem_append, List.mem_map] using he

namespace SignState
variable [AddressHash K A] {c : SignContext K A} {auth : Authority K A} {s : SignState K A} {n : Nat} {I : SignState K A → Prop}
  {P : Nat → Member K A → Prop}

theorem checkAuthority_complete_step (hplain : auth.Plain) (hsteady : auth.Steady) (htemp : P n (.account grapheneTempAccount))
    (hkey : ∀ k s, I s → I (signedByKey c k s).2 ∧ (P n (.key k) → (signedByKey c k s).1 = true))
    (haccount : ∀ x s, I s → ∃ yes s', approvedByAccount c (deeperOf c n) x s = .ok (yes, s') ∧ I s' ∧
      (P n (.account x) → yes = true))
    (hs : I s) : ∃ yes s', checkAuthority c n (some auth) s = .ok (yes, s') ∧ I s' ∧ (auth.Reached (P n) → yes = true) := by
  have htest : ∀ e ∈ auth.members, ∀ s, I s → ∃ yes s', signedBy c (deeperOf c n) e.1 s = .ok (yes, s') ∧ I s' ∧
      (P n e.1 → yes = true) := by
    intro e he s hs
    rcases hplain.mem_members he with ⟨e, -, rfl⟩ | ⟨e, -, rfl⟩
    · exact ⟨_, _, rfl, hkey e.1 s hs⟩
    · exact haccount e.1 s hs
  rcases Nat.eq_zero_or_pos auth.weightThreshold.toNat with hthreshold | hthreshold
  · -- a threshold of zero is reached from the start
    obtain ⟨r, s', hloop, hs'⟩ := accumulate_total (fun e he s hs =>
      (htest e he s hs).imp fun yes => fun ⟨s', h, hs', _⟩ => ⟨s', h, hs'⟩) hs
    refine ⟨_, s', by rw [checkAuthority_some, addMembers, hloop, ok_bind], hs', fun _ => ?_⟩
    cases r with
    | none => rfl
    | some t => exact decide_eq_true (hthreshold.le.trans (Nat.zero_le t))
  have hforced : ∀ e : Member K A × Weight, Temp e → P n e.1 := fun e he => he ▸ htemp
  have hzero : weightSum weightOf (fun _ : Member K A × Weight => True) [] < auth.weightThreshold.toNat := hthreshold
  obtain ⟨r, s', hloop, hs', hr⟩ := accumulate_complete (L := []) hforced htest hs nodup_members hsteady (fun _ _ => trivial) hzero
  rw [weightSum_nil] at hloop hr
  refine ⟨r.elim true fun total => decide (auth.weightThreshold.toNat ≤ total), s', ?_, hs', fun hreached => ?_⟩
  · rw [checkAuthority_some, addMembers, hloop, ok_bind]
  · cases r with
    | none => rfl
    | some t =>
      have hle := hr t rfl
      unfold Authority.Reached at hreached
      exact decide_eq_true (hreached.trans (by omega))

/-- The rule for checks that find what there is: of the authorities with no address and steady totals, a check passes each that
    is reached through the members that its tests pass. -/
theorem checkAuthority_complete (hactive : ∀ x auth, c.getActive x = some auth → auth.Plain ∧ auth.Steady)
    (htemp : ∀ n, P n (.account grapheneTempAccount))
    (hkey : ∀ n k s, I s → I (signedByKey c k s).2 ∧ (P n (.key k) → (signedByKey c k s).1 = true))
    (happrove : ∀ x s, I s → I (s.approve x))
    (hzero : ∀ x s, I s → P 0 (.account x) → x ∈ s.approvedBy)
    (hsucc : ∀ n x s, I s → P (n + 1) (.account x) → x ∈ s.approvedBy ∨ ∃ auth ∈ c.getActive x, auth.Reached (P n))
    (hplain : auth.Plain) (hsteady : auth.Steady) (hs : I s) :
    ∃ yes s', checkAuthority c n (some auth) s = .ok (yes, s') ∧ I s' ∧ (auth.Reached (P n) → yes = true) := by
  induction n generalizing auth s with
  | zero =>
    refine checkAuthority_complete_step hplain hsteady (htemp 0) (hkey 0) (fun x s hs => ?_) hs
    by_cases hx : x ∈ s.approvedBy
    · exact ⟨_, _, approvedByAccount_of_mem hx, hs, fun _ => rfl⟩
    · exact ⟨_, _, approvedByAccount_zero hx, hs, fun hP => absurd (hzero x s hs hP) hx⟩
  | succ n ih =>
    refine checkAuthority_complete_step hplain hsteady (htemp _) (hkey _) (fun x s hs => ?_) hs
    by_cases hx : x ∈ s.approvedBy
    · exact ⟨_, _, approvedByAccount_of_mem hx, hs, fun _ => rfl⟩
    rw [approvedByAccount_succ hx]
    cases hauth : c.getActive x with
    | none =>
      rw [checkAuthority_none]
      refine ⟨false, s, rfl, hs, fun hP => ?_⟩
      rcases hsucc n x s hs hP with h | ⟨auth, h, -⟩
      · exact absurd h hx
      · rw [hauth] at h
        cases h
    | some auth =>
      obtain ⟨yes, s', h, hs', hyes⟩ := ih (hactive x auth hauth).1 (hactive x auth hauth).2 hs
      rw [h, ok_bind]
      cases yes with
      | true => exact ⟨true, _, rfl, happrove x s' hs', fun _ => rfl⟩
      | false =>
        refine ⟨false, _, rfl, hs', fun hP => ?_⟩
        rcases hsucc n x s hs hP with h | ⟨auth', h, hreached⟩
        · exact absurd h hx
        · obtain rfl : auth = auth' := Option.some.inj (hauth.symm.trans h)
          exact hyes hreached

end SignState

/-! ### The checks of what is required -/

section
open SignState
variable [AddressHash K A] {c : SignContext K A} {getOwner : AccountId → Option (Authority K A)} {owners : FlatSet AccountId}
  {s s' : SignState K A} {auth : Authority K A} {id : AccountId}

theorem requireOther_eq_ok (h : requireOther c s auth = .ok s') : checkAuthority c c.maxRecursion (some auth) s = .ok (true, s') := by
  rw [requireOther, bind_eq_ok] at h
  obtain ⟨⟨yes, s₁⟩, hcheck, h⟩ := h
  cases yes with
  | false => cases h
  | true => exact Except.ok.inj h ▸ hcheck

theorem requireActive_eq_ok (h : requireActive c getOwner s id = .ok s') :
    id ∈ s.approvedBy ∧ s' = s ∨ id ∉ s.approvedBy ∧
      (checkAuthority c c.maxRecursion (c.getActive id) s = .ok (true, s') ∨
        ∃ s₁, checkAuthority c c.maxRecursion (c.getActive id) s = .ok (false, s₁) ∧
          checkAuthority c c.maxRecursion (getOwner id) s₁ = .ok (true, s')) := by
  rw [requireActive, bind_eq_ok] at h
  obtain ⟨⟨yes, s₁⟩, hcheck, h⟩ := h
  unfold checkAccount at hcheck
  split at hcheck
  · rename_i hid
    obtain ⟨rfl, rfl⟩ := Prod.mk.inj (Except.ok.inj hcheck)
    exact .inl ⟨hid, (Except.ok.inj h).symm⟩
  rename_i hid
  refine .inr ⟨hid, ?_⟩
  cases yes with
  | true => exact .inl (Except.ok.inj h ▸ hcheck)
  | false =>
    obtain ⟨⟨yes, s₂⟩, hcheck₂, h⟩ := bind_eq_ok.mp h
    cases yes with
    | true => exact .inr ⟨s₁, hcheck, Except.ok.inj h ▸ hcheck₂⟩
    | false =>
      simp only [Bool.false_eq_true, if_false] at h
      split at h <;> cases h

theorem requireOwner_eq_ok (h : requireOwner c getOwner owners s id = .ok s') :
    id ∈ owners ∧ s' = s ∨ id ∉ owners ∧ checkAuthority c c.maxRecursion (getOwner id) s = .ok (true, s') := by
  unfold requireOwner at h
  split at h
  · rename_i hid
    exact .inl ⟨hid, (Except.ok.inj h).symm⟩
  rename_i hid
  obtain ⟨⟨yes, s₁⟩, hcheck, h⟩ := bind_eq_ok.mp h
  cases yes with
  | true => exact .inr ⟨hid, Except.ok.inj h ▸ hcheck⟩
  | false =>
    simp only [Bool.false_eq_true, if_false] at h
    split at h <;> cases h

end

end Khc.Auth
