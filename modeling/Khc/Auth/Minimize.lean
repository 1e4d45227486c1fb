import Khc.Auth.Unused
import Khc.Lib.Greedy

/-! The keys that have to sign a transaction, from `get_required_signatures` and `minimize_required_signatures`. -/

namespace Khc.Auth

open Lib SignState

variable {K A : Type} [LinearOrder K] [LinearOrder A]

/-- A transaction, as what its operations require and the keys that have signed it, with the other parameters of the two functions -/
structure Signing (K A : Type) [LinearOrder K] [LinearOrder A] where
  ops : List (RequiredAuthorities K A)
  signatureKeys : FlatSet K
  availableKeys : FlatSet K
  getActive : AccountId → Option (Authority K A)
  getOwner : AccountId → Option (Authority K A)
  maxRecursion : Nat

namespace Signing
variable [AddressHash K A] (t : Signing K A)

/-- The `verify_authority` of these keys, with the defaults for the committee and the approvals -/
def verification (sigs : FlatSet K) : Verification K A where
  ops := t.ops
  sigs := sigs
  getActive := t.getActive
  getOwner := t.getOwner
  maxRecursionDepth := t.maxRecursion
  allowCommitte := false
  activeAprovals := .ofList []
  ownerApprovals := .ofList []

def other : List (Authority K A) := t.ops.flatMap (·.other)

def requiredOwner : FlatSet AccountId := .ofList (t.ops.flatMap (·.owner))

/-- `transaction::get_required_authorities` leaves out the accounts whose owner authority is required. -/
def requiredActive : FlatSet AccountId := (FlatSet.ofList (t.ops.flatMap (·.active))).diff t.requiredOwner

def context : SignContext K A where
  getActive := t.getActive
  availableKeys := t.availableKeys
  maxRecursion := t.maxRecursion

/-- The keys that were looked for and have not signed -/
def found (s : SignState K A) : FlatSet K :=
  .ofList ((s.providedSignatures.entries.filter fun e => e.2 ∧ e.1 ∈ t.availableKeys ∧ e.1 ∉ t.signatureKeys).map (·.1))

end Signing

end Khc.Auth

/-! What a check walks through when no recursion limit cuts it off: the members that it comes to, and through the accounts among them their
    active authorities. It marks the keys among these members, and the fewer keys sign, the more it walks through. -/

namespace Khc.Auth

open Lib SignState Authority

variable {K A : Type} [LinearOrder K] [LinearOrder A]

/-- Authorities of keys and accounts whose totals do not wrap, and so are those of the accounts, through at most so many levels -/
def Regular (approves : AccountId → Prop) (active : AccountId → Option (Authority K A)) : Nat → Authority K A → Prop
  | 0, auth => auth.Plain ∧ auth.Steady ∧ ∀ x ∈ auth.accountAuths.keys, approves x ∨ active x = none
  | n + 1, auth => auth.Plain ∧ auth.Steady ∧
      ∀ x ∈ auth.accountAuths.keys, approves x ∨ ∀ b, active x = some b → Regular approves active n b

section
variable {approves : AccountId → Prop} {active : AccountId → Option (Authority K A)} {n : Nat} {auth : Authority K A}

theorem Regular.plain (h : Regular approves active n auth) : auth.Plain := by
  cases n with
  | zero => exact h.1
  | succ n => exact h.1

theorem Regular.steady (h : Regular approves active n auth) : auth.Steady := by
  cases n with
  | zero => exact h.2.1
  | succ n => exact h.2.1

/-- An account that does not approve has an authority with a level less, or none. -/
theorem Regular.account {x : AccountId} {b : Authority K A} (h : Regular approves active n auth) (hx : x ∈ auth.accountAuths.keys)
    (hnot : ¬approves x) (hb : active x = some b) : ∃ m, n = m + 1 ∧ Regular approves active m b := by
  cases n with
  | zero =>
    rw [(h.2.2 x hx).resolve_left hnot] at hb
    cases hb
  | succ n => exact ⟨n, rfl, (h.2.2 x hx).resolve_left hnot b hb⟩

end

/-! ### What is granted -/

namespace Consent
variable [AddressHash K A] {g g' : Consent K A} {e : Member K A} {auth : Authority K A} {k : K} {x : AccountId} {n : Nat}

/-- What is granted through any number of levels -/
def Grants (g : Consent K A) (e : Member K A) : Prop := ∃ n, g.granted n e

theorem grants_key : g.Grants (.key k) ↔ g.signs k :=
  ⟨fun ⟨_, h⟩ => granted_key.mp h, fun h => ⟨0, granted_key.mpr h⟩⟩

theorem grants_account : g.Grants (.account x) ↔ g.approves x ∨ ∃ auth ∈ g.active x, auth.Reached g.Grants := by
  constructor
  · rintro ⟨n, h⟩
    refine (approves_or_derivable h).imp_right ?_
    rintro ⟨auth, hauth, m, hm⟩
    exact ⟨auth, hauth, hm.mono fun e _ he => ⟨m, he⟩⟩
  · rintro (h | ⟨auth, hauth, hreached⟩)
    · exact ⟨0, h⟩
    · obtain ⟨n, hn⟩ := derivable_of_reached hreached
      exact ⟨n + 1, .inr ⟨auth, hauth, hn⟩⟩

/-- More keys grant more. -/
theorem Grants.mono (hsigns : ∀ k, g.signs k → g'.signs k) (happroves : ∀ x, g.approves x → g'.approves x) (hactive : g'.active = g.active)
    (h : g.Grants e) : g'.Grants e := by
  obtain ⟨n, h⟩ := h
  refine ⟨n, ?_⟩
  induction n generalizing e with
  | zero =>
    cases e with
    | key k => exact hsigns k h
    | address a => exact h.imp fun k hk => hk.imp_left (hsigns k)
    | account x => exact happroves x h
  | succ n ih =>
    cases e with
    | key k => exact hsigns k h
    | address a => exact h.imp fun k hk => hk.imp_left (hsigns k)
    | account x =>
      rcases h with h | ⟨auth, hauth, hreached⟩
      · exact .inl (happroves x h)
      · exact .inr ⟨auth, hactive ▸ hauth, hreached.mono fun e _ he => ih he⟩

/-- The loop over the members comes to this one. -/
def Comes (g : Consent K A) (auth : Authority K A) (e : Member K A × Weight) : Prop :=
  Tested auth.weightThreshold.toNat weightOf (fun e => g.Grants e.1) auth.members e

theorem Comes.anti {e : Member K A × Weight} (h : g'.Comes auth e) (hg : ∀ e, g.Grants e → g'.Grants e) : g.Comes auth e :=
  Tested.anti h fun e _ => hg e.1

/-- Everything that is signed and that the check of the authority comes to is marked. -/
inductive Done (g : Consent K A) (s : SignState K A) : Authority K A → Prop
  | mk {auth : Authority K A} (keys : ∀ k w, g.Comes auth (.key k, w) → g.signs k → s.Marked k)
      (accounts : ∀ x w, g.Comes auth (.account x, w) → ¬g.approves x → ∀ b, g.active x = some b → Done g s b) : Done g s auth

theorem Done.mono {s s' : SignState K A} (h : g.Done s auth) (hmarked : ∀ k, s.Marked k → s'.Marked k) : g.Done s' auth := by
  induction h with
  | mk keys _ ih => exact ⟨fun k w hk hsigns => hmarked k (keys k w hk hsigns), ih⟩

theorem Comes.mem {e : Member K A × Weight} (h : g.Comes auth e) : e ∈ auth.members := Tested.mem h

omit [AddressHash K A] in
theorem mem_keys_of_mem {w : Weight} (hplain : auth.Plain) (h : (.account x, w) ∈ auth.members) : x ∈ auth.accountAuths.keys := by
  rcases hplain.mem_members h with ⟨e, -, heq⟩ | ⟨e, he, heq⟩
  · cases heq
  · obtain rfl := Member.account.inj (Prod.mk.inj heq).1
    exact List.mem_map_of_mem he

/-- The marked keys are enough for what is granted. -/
theorem Done.reached {s : SignState K A} (h : g.Done s auth) (hregular : Regular g.approves g.active n auth)
    (hmarked : ∀ k, s.Marked k → g'.signs k) (happroves : ∀ x, g.approves x → g'.approves x) (hactive : g'.active = g.active)
    (hreached : auth.Reached g.Grants) : auth.Reached g'.Grants := by
  induction n using Nat.strong_induction_on generalizing auth with
  | _ n ih =>
    obtain ⟨keys, accounts⟩ := h
    refine (weightSum_tested hreached).trans (weightSum_mono ?_)
    rintro ⟨e, w⟩ he ⟨hgrants, hcomes⟩
    rcases hregular.plain.mem_members he with ⟨e, -, heq⟩ | ⟨e, -, heq⟩
    · obtain ⟨rfl, rfl⟩ := Prod.mk.inj heq
      exact grants_key.mpr (hmarked _ (keys _ _ hcomes (grants_key.mp hgrants)))
    · obtain ⟨rfl, rfl⟩ := Prod.mk.inj heq
      by_cases hx : g.approves e.1
      · exact grants_account.mpr (.inl (happroves _ hx))
      · obtain ⟨b, hb, hreached⟩ := (grants_account.mp hgrants).resolve_left hx
        obtain ⟨m, rfl, hm⟩ := hregular.account (mem_keys_of_mem hregular.plain he) hx hb
        exact grants_account.mpr (.inr ⟨b, hactive ▸ hb, ih m m.lt_succ_self (accounts _ _ hcomes hx b hb) hm hreached⟩)

end Consent

/-! ### The walk -/

namespace SignState
variable [AddressHash K A] {c : SignContext K A} {g : Consent K A} {E : Authority K A → Prop} {s s' : SignState K A} {auth : Authority K A}
  {n : Nat} {k : K} {x : AccountId}

/-- Where the walk has been: the accounts that are approved are those that are granted and whose authorities are done, and each key that is
    marked is one that an authority with the property comes to. -/
structure Explores (c : SignContext K A) (g : Consent K A) (E : Authority K A → Prop) (s : SignState K A) : Prop where
  ready : s.Ready c g.signs
  approves : ∀ x, g.approves x → x ∈ s.approvedBy
  granted : ∀ x ∈ s.approvedBy, g.Grants (.account x)
  done : ∀ x ∈ s.approvedBy, ¬g.approves x → ∀ b, g.active x = some b → g.Done s b
  found : ∀ k, s.Marked k → ∃ auth w, E auth ∧ g.Comes auth (.key k, w)

/-- The authorities that the walk comes to have the property. -/
def Follows (g : Consent K A) (E : Authority K A → Prop) : Prop :=
  ∀ auth, E auth → ∀ x w, g.Comes auth (.account x, w) → ¬g.approves x → ∀ b, g.active x = some b → E b

theorem Explores.mark (hs : s.Explores c g E) (hk : g.signs k) (hfound : ∃ auth w, E auth ∧ g.Comes auth (.key k, w)) :
    (s.mark k).Explores c g E where
  ready := hs.ready.mark hk
  approves := hs.approves
  granted := hs.granted
  done x hx hnot b hb := (hs.done x hx hnot b hb).mono fun _ => Marked.mark
  found k' hk' := by
    by_cases heq : k' = k
    · exact heq ▸ hfound
    · by_cases hmarked : s.Marked k'
      · exact hs.found k' hmarked
      · exact absurd hk' (not_marked_mark hmarked heq)

theorem Explores.approve (hs : s.Explores c g E) (hx : g.Grants (.account x)) (hdone : ∀ b, g.active x = some b → g.Done s b) :
    (s.approve x).Explores c g E where
  ready := hs.ready.approve
  approves y hy := FlatSet.mem_insert.mpr (.inr (hs.approves y hy))
  granted y hy := by
    rcases FlatSet.mem_insert.mp hy with rfl | hy
    · exact hx
    · exact hs.granted y hy
  done y hy hnot b hb := by
    have hmono : ∀ k, s.Marked k → (s.approve x).Marked k := fun _ h => h
    rcases FlatSet.mem_insert.mp hy with rfl | hy
    · exact (hdone b hb).mono hmono
    · exact (hs.done y hy hnot b hb).mono hmono
  found := hs.found

/-- What the test of a member shows -/
def Shown (g : Consent K A) (e : Member K A × Weight) (s : SignState K A) : Prop :=
  match e.1 with
  | .key k => g.signs k → s.Marked k
  | .address _ => True
  | .account x => ¬g.approves x → ∀ b, g.active x = some b → g.Done s b

theorem Shown.mono {e : Member K A × Weight} (h : Shown g e s) (hmarked : ∀ k, s.Marked k → s'.Marked k) : Shown g e s' := by
  obtain ⟨e, w⟩ := e
  cases e with
  | key k => exact fun hk => hmarked k (h hk)
  | address a => trivial
  | account x => exact fun hx b hb => (h hx b hb).mono hmarked

theorem done_of_shown (h : ∀ e, g.Comes auth e → Shown g e s) : g.Done s auth :=
  .mk (fun _ _ hcomes => h _ hcomes) fun _ _ hcomes => h _ hcomes

/-- A walk that returns whether the proposition holds, keeps what is marked, and shows something -/
def Walks (c : SignContext K A) (g : Consent K A) (E : Authority K A → Prop) (yes : Prop) (D : SignState K A → Prop) (s : SignState K A)
    (x : Eval K A (Bool × SignState K A)) : Prop :=
  ∃ b s', x = .ok (b, s') ∧ s'.Explores c g E ∧ (∀ k, s.Marked k → s'.Marked k) ∧ (b = true ↔ yes) ∧ D s'

theorem Explores.signedByKey {w : Weight} (hs : s.Explores c g E) (hE : E auth) (hcomes : g.Comes auth (.key k, w)) :
    Walks c g E (g.Grants (.key k)) (Shown g (.key k, w)) s (.ok (SignState.signedByKey c k s)) := by
  rw [Walks, Consent.grants_key]
  rcases hs.ready.signedByKey (k := k) with ⟨hk, heq⟩ | ⟨hk, heq⟩
  · exact ⟨true, s.mark k, congrArg Except.ok heq, hs.mark hk ⟨auth, w, hE, hcomes⟩, fun _ => Marked.mark, iff_of_true rfl hk,
      fun _ => marked_mark⟩
  · exact ⟨false, s, congrArg Except.ok heq, hs, fun _ h => h, iff_of_false Bool.false_ne_true hk, fun h => absurd h hk⟩

/-- The test of an account, whose authority is walked through one deeper if it has not approved -/
theorem Explores.approvedByAccount {w : Weight} (hs : s.Explores c g E) (hactive : g.active = c.getActive)
    (hdeeper : ¬g.approves x → ∀ b, c.getActive x = some b → ∃ m, n = m + 1 ∧
      ∀ s, s.Explores c g E → Walks c g E (b.Reached g.Grants) (g.Done · b) s (checkAuthority c m (some b) s)) :
    Walks c g E (g.Grants (.account x)) (Shown g (.account x, w)) s (SignState.approvedByAccount c (deeperOf c n) x s) := by
  by_cases hx : x ∈ s.approvedBy
  · exact ⟨true, s, approvedByAccount_of_mem hx, hs, fun _ h => h, iff_of_true rfl (hs.granted x hx), hs.done x hx⟩
  have hnot : ¬g.approves x := fun h => hx (hs.approves x h)
  cases hb : c.getActive x with
  | none =>
    have hgrants : ¬g.Grants (.account x) := by
      rw [Consent.grants_account, hactive, hb]
      rintro (h | ⟨b, h, -⟩)
      · exact hnot h
      · cases h
    have heq : SignState.approvedByAccount c (deeperOf c n) x s = .ok (false, s) := by
      cases n with
      | zero => exact approvedByAccount_zero hx
      | succ n =>
        rw [approvedByAccount_succ hx, hb, checkAuthority_none]
        rfl
    refine ⟨false, s, heq, hs, fun _ h => h, iff_of_false Bool.false_ne_true hgrants, fun _ b h => ?_⟩
    rw [hactive, hb] at h
    cases h
  | some b =>
    obtain ⟨m, rfl, hwalk⟩ := hdeeper hnot b hb
    obtain ⟨yes, s₁, hcheck, hs₁, hmarked, hyes, hdone⟩ := hwalk s hs
    have hdone' : ∀ b', g.active x = some b' → g.Done s₁ b' := by
      intro b' hb'
      rw [hactive, hb] at hb'
      exact Option.some.inj hb' ▸ hdone
    have hgrants : g.Grants (.account x) ↔ b.Reached g.Grants := by
      rw [Consent.grants_account, or_iff_right hnot, hactive, hb]
      exact ⟨fun ⟨b', hb', h⟩ => Option.some.inj hb' ▸ h, fun h => ⟨b, rfl, h⟩⟩
    rw [approvedByAccount_succ hx, hb, hcheck, ok_bind]
    cases yes with
    | true =>
      have hx' := hgrants.mpr (hyes.mp rfl)
      exact ⟨true, s₁.approve x, rfl, hs₁.approve hx' hdone', hmarked, iff_of_true rfl hx',
        fun _ b' hb' => (hdone' b' hb').mono fun _ h => h⟩
    | false =>
      exact ⟨false, s₁, rfl, hs₁, hmarked, iff_of_false Bool.false_ne_true fun h => Bool.false_ne_true (hyes.mpr (hgrants.mp h)),
        fun _ => hdone'⟩

/-- A check that no limit cuts off finds out whether the authority is reached, and does it. -/
theorem Explores.checkAuthority (hs : s.Explores c g E) (hactive : g.active = c.getActive) (htemp : g.approves grapheneTempAccount)
    (hfollows : Follows g E) (hE : E auth) (hregular : Regular g.approves g.active n auth) :
    Walks c g E (auth.Reached g.Grants) (g.Done · auth) s (SignState.checkAuthority c n (some auth) s) := by
  induction n using Nat.strong_induction_on generalizing auth s with
  | _ n ih =>
    have htest : ∀ e, g.Comes auth e → ∀ s', s'.Explores c g E ∧ (∀ k, s.Marked k → s'.Marked k) →
        ∃ yes s'', signedBy c (deeperOf c n) e.1 s' = .ok (yes, s'') ∧ (s''.Explores c g E ∧ ∀ k, s.Marked k → s''.Marked k) ∧
          (yes = true ↔ g.Grants e.1) ∧ Shown g e s'' ∧ ∀ e', Shown g e' s' → Shown g e' s'' := by
      rintro ⟨e, w⟩ hcomes s' ⟨hs', hkept⟩
      have hwalk : Walks c g E (g.Grants e) (Shown g (e, w)) s' (signedBy c (deeperOf c n) e s') := by
        rcases hregular.plain.mem_members hcomes.mem with ⟨e', -, heq⟩ | ⟨e', -, heq⟩
        · obtain ⟨rfl, rfl⟩ := Prod.mk.inj heq
          exact hs'.signedByKey hE hcomes
        · obtain ⟨rfl, rfl⟩ := Prod.mk.inj heq
          refine hs'.approvedByAccount hactive fun hnot b hb => ?_
          have hmem := Consent.mem_keys_of_mem hregular.plain hcomes.mem
          obtain ⟨m, rfl, hm⟩ := hregular.account hmem hnot (hactive ▸ hb)
          exact ⟨m, rfl, fun s hs => ih m m.lt_succ_self hs (hfollows auth hE _ _ hcomes hnot b (hactive ▸ hb)) hm⟩
      obtain ⟨yes, s'', h, hs'', hmarked, hyes, hshown⟩ := hwalk
      exact ⟨yes, s'', h, ⟨hs'', fun k hk => hmarked k (hkept k hk)⟩, hyes, hshown, fun e' h' => h'.mono hmarked⟩
    have hforced : ∀ e : Member K A × Weight, Temp e → g.Grants e.1 := by
      intro e he
      rw [show e.1 = .account grapheneTempAccount from he]
      exact Consent.grants_account.mpr (.inl htemp)
    have hsteady : Lib.Steady (2 ^ 32) auth.weightThreshold.toNat weightOf Temp ([] ++ auth.members) := hregular.steady
    obtain ⟨r, s', hloop, ⟨hs', hmarked⟩, hr, hshown⟩ := accumulate_tested (T := Shown g) hforced hsteady htest
      ⟨hs, fun _ h => h⟩ (fun ⟨_, h, _⟩ => absurd h List.not_mem_nil) fun _ h => absurd h List.not_mem_nil
    rw [weightSum_nil] at hloop
    refine ⟨_, s', by rw [checkAuthority_some, addMembers, hloop, ok_bind], hs', hmarked, ?_, done_of_shown hshown⟩
    rw [hr, decide_eq_true_iff]
    rfl

end SignState

end Khc.Auth
