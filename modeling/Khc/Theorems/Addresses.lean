import Khc.Auth.Signatures

/-! Addresses in authorities: a check counts them rightly as long as each that it looks at is the address of a key that signs. Of
    any other it dereferences the end of a map. -/

namespace Khc.Auth

open Lib SignState Authority

variable {K A : Type} [LinearOrder K] [LinearOrder A] [AddressHash K A]

/-! ### Checks as they are meant -/

/-- What a check keeps track of: who has approved, and which addresses were looked at. -/
structure Reckoning (A : Type) where
  approvedBy : FlatSet AccountId
  looked : List A

/-- The address is one of a key that signs. -/
def Matches (signers : List K) (a : A) : Prop := ∃ k ∈ signers, a ∈ encodings k

instance (signers : List K) (a : A) : Decidable (Matches signers a) := inferInstanceAs (Decidable (∃ k ∈ signers, a ∈ encodings k))

namespace Reckoning

/-- The test of a member: an address counts if it is one of a key that signs. -/
def counts (signers : List K) (active : AccountId → Option (Authority K A))
    (deeper : Option (Option (Authority K A) → Reckoning A → Eval K A (Bool × Reckoning A))) :
    Member K A → Reckoning A → Eval K A (Bool × Reckoning A)
  | .key k, r => .ok (signers.contains k, r)
  | .address a, r => .ok (decide (Matches signers a), { r with looked := a :: r.looked })
  | .account x, r =>
    if x ∈ r.approvedBy then .ok (true, r)
    else
      match deeper with
      | none => .ok (false, r)
      | some check => do
        let (yes, r) ← check (active x) r
        if yes then .ok (true, { r with approvedBy := r.approvedBy.insert x }) else .ok (false, r)

/-- One level of a check -/
def reckon (signers : List K) (active : AccountId → Option (Authority K A))
    (deeper : Option (Option (Authority K A) → Reckoning A → Eval K A (Bool × Reckoning A))) (au : Option (Authority K A))
    (r : Reckoning A) : Eval K A (Bool × Reckoning A) :=
  match au with
  | none => .ok (false, r)
  | some auth => do
    let (total, r) ← accumulate (2 ^ 32) auth.weightThreshold.toNat weightOf (fun e => counts signers active deeper e.1) auth.members 0 r
    return (total.elim true fun total => decide (auth.weightThreshold.toNat ≤ total), r)

/-- A check with as many levels left -/
def check (signers : List K) (active : AccountId → Option (Authority K A)) :
    Nat → Option (Authority K A) → Reckoning A → Eval K A (Bool × Reckoning A)
  | 0 => reckon signers active none
  | n + 1 => reckon signers active (some (check signers active n))

variable {c : SignContext K A} {signers : List K} {active : AccountId → Option (Authority K A)} {n : Nat}
  {au : Option (Authority K A)} {s s' : SignState K A} {r : Reckoning A}

/-- An address was looked at that no key that signs has. -/
def Unmatched (signers : List K) (r : Reckoning A) : Prop := ∃ a ∈ r.looked, ¬Matches signers a

/-- The state of the code and what is kept track of agree. -/
def Agrees (c : SignContext K A) (signers : List K) (s : SignState K A) (r : Reckoning A) : Prop :=
  s.Ready c (· ∈ signers) ∧ s.approvedBy = r.approvedBy

theorem check_none : check signers active n none r = .ok (false, r) := by
  cases n <;> rfl

/-- What a check calls one deeper -/
def deeperOf (signers : List K) (active : AccountId → Option (Authority K A)) :
    Nat → Option (Option (Authority K A) → Reckoning A → Eval K A (Bool × Reckoning A))
  | 0 => none
  | n + 1 => some (check signers active n)

theorem check_some {auth : Authority K A} : check signers active n (some auth) r =
    accumulate (2 ^ 32) auth.weightThreshold.toNat weightOf (fun e => counts signers active (deeperOf signers active n) e.1)
      auth.members 0 r >>= fun x => .ok (x.1.elim true fun total => decide (auth.weightThreshold.toNat ≤ total), x.2) := by
  cases n <;> rfl

theorem counts_of_mem {deeper : Option (Option (Authority K A) → Reckoning A → Eval K A (Bool × Reckoning A))} {x : AccountId}
    (h : x ∈ r.approvedBy) : counts signers active deeper (.account x) r = .ok (true, r) := if_pos h

theorem counts_zero {x : AccountId} (h : x ∉ r.approvedBy) :
    counts signers active (deeperOf signers active 0) (.account x) r = .ok (false, r) := if_neg h

theorem counts_succ {x : AccountId} (h : x ∉ r.approvedBy) : counts signers active (deeperOf signers active (n + 1)) (.account x) r =
    check signers active n (active x) r >>= fun y =>
      if y.1 then .ok (true, { y.2 with approvedBy := y.2.approvedBy.insert x }) else .ok (false, y.2) := if_neg h

/-! ### An unmatched address stays unmatched -/

theorem counts_endsBadly {m : Member K A} (hr : Unmatched signers r)
    (hdeeper : ∀ k, n = k + 1 → ∀ au r, Unmatched signers r → EndsBadly (Unmatched signers) (check signers active k au r)) :
    EndsBadly (Unmatched signers) (counts signers active (deeperOf signers active n) m r) := by
  cases m with
  | key k => exact ⟨_, r, rfl, hr⟩
  | address a => exact ⟨_, _, rfl, hr.imp fun _ h => ⟨List.mem_cons_of_mem _ h.1, h.2⟩⟩
  | account x =>
    by_cases hx : x ∈ r.approvedBy
    · exact ⟨true, r, counts_of_mem hx, hr⟩
    cases n with
    | zero => exact ⟨false, r, counts_zero hx, hr⟩
    | succ n =>
      obtain ⟨yes, r', h, hr'⟩ := hdeeper n rfl (active x) r hr
      rw [counts_succ hx, h, ok_bind]
      cases yes with
      | true => exact ⟨true, _, rfl, hr'⟩
      | false => exact ⟨false, _, rfl, hr'⟩

theorem check_some_endsBadly {auth : Authority K A} (hr : Unmatched signers r)
    (hdeeper : ∀ k, n = k + 1 → ∀ au r, Unmatched signers r → EndsBadly (Unmatched signers) (check signers active k au r)) :
    EndsBadly (Unmatched signers) (check signers active n (some auth) r) := by
  have hbad : ∀ e ∈ auth.members, ∀ r, Unmatched signers r →
      EndsBadly (Unmatched signers) (counts signers active (deeperOf signers active n) e.1 r) :=
    fun e _ r hr => counts_endsBadly hr hdeeper
  obtain ⟨t, r', h, hr'⟩ := accumulate_endsBadly hbad hr
  exact ⟨_, r', by rw [check_some, h, ok_bind], hr'⟩

theorem check_endsBadly (hr : Unmatched signers r) : EndsBadly (Unmatched signers) (check signers active n au r) := by
  induction n generalizing au r with
  | zero =>
    cases au with
    | none => exact ⟨false, r, check_none, hr⟩
    | some auth => exact check_some_endsBadly hr fun k hk => absurd hk (Nat.succ_ne_zero k).symm
  | succ n ih =>
    cases au with
    | none => exact ⟨false, r, check_none, hr⟩
    | some auth => exact check_some_endsBadly hr fun k hk au r hr => Nat.succ.inj hk ▸ ih hr

/-! ### The code follows until an address is unmatched -/

/-- The test of a member follows the one that is meant, when what is deeper does. -/
theorem signedBy_follows {m : Member K A} (hs : Agrees c signers s r) (hr : ¬Unmatched signers r)
    (hdeeper : ∀ k, n = k + 1 → ∀ au s r, Agrees c signers s r → ¬Unmatched signers r → Follows (Agrees c signers) (Unmatched signers)
      (checkAuthority c k au s) (check signers c.getActive k au r)) :
    Follows (Agrees c signers) (Unmatched signers) (signedBy c (SignState.deeperOf c n) m s)
      (counts signers c.getActive (deeperOf signers c.getActive n) m r) := by
  cases m with
  | key k =>
    refine ⟨signers.contains k, r, rfl, .inl ⟨hr, ?_⟩⟩
    rcases hs.1.signedByKey (k := k) with ⟨hk, heq⟩ | ⟨hk, heq⟩
    · exact ⟨s.mark k, by rw [List.contains_iff_mem.mpr hk]; exact congrArg Except.ok heq, hs.1.mark hk, hs.2⟩
    · have hnone : signers.contains k = false := Bool.eq_false_iff.mpr fun h => hk (List.contains_iff_mem.mp h)
      exact ⟨s, by rw [hnone]; exact congrArg Except.ok heq, hs⟩
  | address a =>
    refine ⟨decide (Matches signers a), { r with looked := a :: r.looked }, rfl, ?_⟩
    rcases hs.1.signedByAddress (a := a) with ⟨k, hk, ha, heq⟩ | ⟨hnone, heq⟩
    · have hmatch : Matches signers a := ⟨k, hk, ha⟩
      refine .inl ⟨?_, (s.fillAddressSigs c).mark k, by rw [decide_eq_true hmatch]; exact heq, hs.1.fill.mark hk, ?_⟩
      · rintro ⟨b, hb, hnot⟩
        rcases List.mem_cons.mp hb with rfl | hb
        · exact hnot hmatch
        · exact hr ⟨b, hb, hnot⟩
      · rw [mark_approvedBy, fillAddressSigs_approvedBy, hs.2]
    · exact .inr ⟨⟨a, List.mem_cons_self, fun ⟨k, hk, ha⟩ => hnone k hk ha⟩, _, heq⟩
  | account x =>
    show Follows _ _ (approvedByAccount c (SignState.deeperOf c n) x s) _
    by_cases hx : x ∈ s.approvedBy
    · exact ⟨true, r, counts_of_mem (hs.2 ▸ hx), .inl ⟨hr, s, approvedByAccount_of_mem hx, hs⟩⟩
    have hx' : x ∉ r.approvedBy := hs.2 ▸ hx
    cases n with
    | zero => exact ⟨false, r, counts_zero hx', .inl ⟨hr, s, approvedByAccount_zero hx, hs⟩⟩
    | succ n =>
      rw [approvedByAccount_succ hx, counts_succ hx']
      obtain ⟨yes, r', h', ⟨hr', s', h, hs'⟩ | ⟨hr', e, h⟩⟩ := hdeeper n rfl (c.getActive x) s r hs hr
      · rw [h, h', ok_bind, ok_bind]
        cases yes with
        | true => exact ⟨true, _, rfl, .inl ⟨hr', _, rfl, hs'.1.approve, congrArg (·.insert x) hs'.2⟩⟩
        | false => exact ⟨false, r', rfl, .inl ⟨hr', s', rfl, hs'⟩⟩
      · rw [h, h', ok_bind]
        cases yes with
        | true => exact ⟨true, _, rfl, .inr ⟨hr', e, rfl⟩⟩
        | false => exact ⟨false, r', rfl, .inr ⟨hr', e, rfl⟩⟩

theorem checkAuthority_follows_some {auth : Authority K A} (hs : Agrees c signers s r) (hr : ¬Unmatched signers r)
    (hdeeper : ∀ k, n = k + 1 → ∀ au s r, Agrees c signers s r → ¬Unmatched signers r → Follows (Agrees c signers) (Unmatched signers)
      (checkAuthority c k au s) (check signers c.getActive k au r)) :
    Follows (Agrees c signers) (Unmatched signers) (checkAuthority c n (some auth) s) (check signers c.getActive n (some auth) r) := by
  have hstep : ∀ e ∈ auth.members, ∀ s r, Agrees c signers s r → ¬Unmatched signers r → Follows (Agrees c signers) (Unmatched signers)
      (signedBy c (SignState.deeperOf c n) e.1 s) (counts signers c.getActive (deeperOf signers c.getActive n) e.1 r) :=
    fun e _ s r hs hr => signedBy_follows hs hr hdeeper
  have hbad : ∀ e ∈ auth.members, ∀ r, Unmatched signers r →
      EndsBadly (Unmatched signers) (counts signers c.getActive (deeperOf signers c.getActive n) e.1 r) :=
    fun e _ r hr => counts_endsBadly hr fun _ _ _ _ => check_endsBadly
  obtain ⟨t, r', h, hfollows⟩ := accumulate_follows hstep hbad hs hr
  rw [checkAuthority_some, check_some, addMembers, h, ok_bind]
  refine ⟨_, r', rfl, hfollows.imp ?_ ?_⟩
  · rintro ⟨hr', s', h', hs'⟩
    exact ⟨hr', s', by rw [h', ok_bind], hs'⟩
  · rintro ⟨hr', e, h'⟩
    exact ⟨hr', e, by rw [h']; rfl⟩

theorem checkAuthority_follows (hs : Agrees c signers s r) (hr : ¬Unmatched signers r) :
    Follows (Agrees c signers) (Unmatched signers) (checkAuthority c n au s) (check signers c.getActive n au r) := by
  induction n generalizing au s r with
  | zero =>
    cases au with
    | none => exact ⟨false, r, check_none, .inl ⟨hr, s, checkAuthority_none, hs⟩⟩
    | some auth => exact checkAuthority_follows_some hs hr fun k hk => absurd hk (Nat.succ_ne_zero k).symm
  | succ n ih =>
    cases au with
    | none => exact ⟨false, r, check_none, .inl ⟨hr, s, checkAuthority_none, hs⟩⟩
    | some auth => exact checkAuthority_follows_some hs hr fun k hk au s r hs hr => Nat.succ.inj hk ▸ ih hs hr

/-- The addresses that a check as it is meant looks at -/
def lookedAt (signers : List K) (active : AccountId → Option (Authority K A)) (n : Nat) (au : Option (Authority K A))
    (approved : FlatSet AccountId) : List A :=
  match check signers active n au { approvedBy := approved, looked := [] } with
  | .ok (_, r) => r.looked
  | .error _ => []

end Reckoning

/-! ### Main result -/

/-- The states that the checks of a transaction go through, with these signatures and whatever approvals -/
inductive Reachable (c : SignContext K A) (sigs : FlatSet K) : SignState K A → Prop
  | init (approved : FlatSet AccountId) : Reachable c sigs { SignState.init sigs with approvedBy := approved }
  | check {n : Nat} {au : Option (Authority K A)} {s s' : SignState K A} {yes : Bool} (hs : Reachable c sigs s)
    (h : checkAuthority c n au s = .ok (yes, s')) : Reachable c sigs s'

/-- The keys that are provided or available -/
def signersOf (c : SignContext K A) (sigs : FlatSet K) : List K := sigs.elems ++ c.availableKeys.elems

/-- The check returns what it is meant to, so that an address counts if and only if it is one of a key that signs, and adds no key
    that is neither provided nor available. -/
def CheckedRightly (c : SignContext K A) (sigs : FlatSet K) (n : Nat) (au : Option (Authority K A)) (s : SignState K A) : Prop :=
  ∃ yes s' r, checkAuthority c n au s = .ok (yes, s') ∧
    Reckoning.check (signersOf c sigs) c.getActive n au { approvedBy := s.approvedBy, looked := [] } = .ok (yes, r) ∧
    s'.approvedBy = r.approvedBy ∧ ∀ k ∈ s'.providedSignatures.keys, k ∈ sigs ∨ k ∈ c.availableKeys

theorem Reachable.ready {c : SignContext K A} {sigs : FlatSet K} {s : SignState K A} (h : Reachable c sigs s) :
    s.Ready c (· ∈ signersOf c sigs) := by
  induction h with
  | init approved =>
    have hready : ({ SignState.init sigs with approvedBy := approved } : SignState K A).Ready c
        fun k => k ∈ sigs ∨ k ∈ c.availableKeys := ready_init
    have hsigners : (fun k => k ∈ sigs ∨ k ∈ c.availableKeys) = (· ∈ signersOf c sigs) :=
      funext fun k => propext List.mem_append.symm
    rwa [hsigners] at hready
  | check _ h ih => exact ih.check h

/-- In every state that checks come to, a check counts the addresses rightly if and only if each one that is to be looked at is the
    address of a key that signs. -/
theorem checkAuthority_rightly_iff (c : SignContext K A) (sigs : FlatSet K) (n : Nat) (au : Option (Authority K A)) (s : SignState K A)
    (hs : Reachable c sigs s) : CheckedRightly c sigs n au s ↔
      ∀ a ∈ Reckoning.lookedAt (signersOf c sigs) c.getActive n au s.approvedBy, Matches (signersOf c sigs) a := by
  have hr : ¬Reckoning.Unmatched (signersOf c sigs) ({ approvedBy := s.approvedBy, looked := [] } : Reckoning A) :=
    fun ⟨a, ha, _⟩ => List.not_mem_nil ha
  have hchecked : Follows (Reckoning.Agrees c (signersOf c sigs)) (Reckoning.Unmatched (signersOf c sigs)) (checkAuthority c n au s)
      (Reckoning.check (signersOf c sigs) c.getActive n au { approvedBy := s.approvedBy, looked := [] }) :=
    Reckoning.checkAuthority_follows ⟨hs.ready, rfl⟩ hr
  obtain ⟨yes, r, h', hfollows⟩ := hchecked
  rw [Reckoning.lookedAt, h']
  rcases hfollows with ⟨hr', s', h, hs'⟩ | ⟨⟨a, ha, hnot⟩, e, h⟩
  · refine iff_of_true ⟨yes, s', r, h, h', hs'.2, fun k hk => ?_⟩ fun a ha => not_not.mp fun hnot => hr' ⟨a, ha, hnot⟩
    exact List.mem_append.mp ((hs'.1.signers k).mpr (.inl hk))
  · refine iff_of_false ?_ fun hall => hnot (hall a ha)
    rintro ⟨yes, s', r, hok, -⟩
    rw [h] at hok
    cases hok

/-- An authority that lists one address and one key -/
def mixed : Authority Nat Nat where
  weightThreshold := 1
  accountAuths := ∅
  keyAuths := FlatMap.set ∅ 7 1
  addressAuths := FlatMap.set ∅ 9 1

/-- No account has an authority, and no keys are available but those that sign. -/
def bare : SignContext Nat Nat where
  getActive _ := none
  availableKeys := .ofList []
  maxRecursion := 2

theorem checkAuthority_rightly_mixed : CheckedRightly bare (.ofList [9]) 2 (some mixed)
    { SignState.init (.ofList [9]) with approvedBy := .ofList [] } :=
  (checkAuthority_rightly_iff bare (.ofList [9]) 2 (some mixed) _ (.init _)).mpr (by decide +kernel)

/-- With neither the key nor the address signed for, the check goes wrong. -/
theorem mixed_notRightly : ¬CheckedRightly bare (.ofList [5]) 2 (some mixed)
    { SignState.init (.ofList [5]) with approvedBy := .ofList [] } := by
  rintro ⟨yes, s', r, h, -⟩
  have hnone : (checkAuthority bare 2 (some mixed) { SignState.init (.ofList [5]) with approvedBy := .ofList [] }).toOption.isNone := by
    decide +kernel
  rw [h] at hnone
  cases hnone

end Khc.Auth
