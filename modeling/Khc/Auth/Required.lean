import Khc.Auth.Signatures

/-! The check of the required authorities: what passes it is derivable, and what is derivable within the recursion limit passes it
    when the totals of the authorities do not wrap. -/

namespace Khc.Auth

open Lib SignState Authority

variable {K A : Type} [LinearOrder K] [LinearOrder A]

namespace Verification
variable [AddressHash K A] {v : Verification K A} {s s' : SignState K A} {auth : Authority K A} {id : AccountId}

/-- The accounts that are taken to approve; for the temporary account nobody has to. -/
def Approved (v : Verification K A) (x : AccountId) : Prop :=
  x = grapheneTempAccount ∨ x ∈ v.activeAprovals ∨ x ∈ v.ownerApprovals

def consent (v : Verification K A) : Consent K A := v.context.consent (· ∈ v.sigs) v.Approved

/-- Every required authority is satisfied, when those with the property are. -/
structure Authorised (v : Verification K A) (D : Authority K A → Prop) : Prop where
  other : ∀ auth ∈ v.other, D auth
  active : ∀ id ∈ v.requiredActive, v.Approved id ∨ (∃ auth ∈ v.getActive id, D auth) ∨ ∃ auth ∈ v.getOwner id, D auth
  owner : ∀ id ∈ v.requiredOwner, id ∈ v.ownerApprovals ∨ ∃ auth ∈ v.getOwner id, D auth

/-- The authorities that the check can come to -/
def Mentions (v : Verification K A) (auth : Authority K A) : Prop :=
  auth ∈ v.other ∨ (∃ id, v.getActive id = some auth) ∨ ∃ id, v.getOwner id = some auth

omit [AddressHash K A] in
theorem mem_start_approvedBy {x : AccountId} : x ∈ v.start.approvedBy ↔ v.Approved x := by
  simp [start, init, Approved, or_assoc]

theorem start_ready : v.start.Ready v.context (· ∈ v.sigs) := by
  have hready : v.start.Ready v.context fun k => k ∈ v.sigs ∨ k ∈ v.context.availableKeys := ready_init
  have hnone : ∀ k, k ∉ v.context.availableKeys := fun k hk => List.not_mem_nil (FlatSet.mem_ofList.mp hk)
  have hsigs : (fun k => k ∈ v.sigs ∨ k ∈ v.context.availableKeys) = (· ∈ v.sigs) :=
    funext fun k => propext (or_iff_left (hnone k))
  rwa [hsigs] at hready

/-- No account is approved but those that approve. -/
def Untouched (v : Verification K A) (s : SignState K A) : Prop :=
  s.Ready v.context (· ∈ v.sigs) ∧ ∀ x, x ∈ s.approvedBy ↔ v.Approved x

theorem start_untouched : v.Untouched v.start := ⟨start_ready, fun _ => mem_start_approvedBy⟩

/-! ### What passes is derivable -/

section
variable {P : Member K A → Prop}

/-- What signing keys and the approvals have, and members with an authority of such members, if any check goes deeper. -/
structure Closed (v : Verification K A) (P : Member K A → Prop) : Prop where
  key : ∀ k, k ∈ v.sigs → P (.key k)
  address : ∀ k a, k ∈ v.sigs → a ∈ encodings k → P (.address a)
  approved : ∀ x, v.Approved x → P (.account x)
  active : v.maxRecursionDepth ≠ 0 → ∀ x auth, v.getActive x = some auth → auth.Reached P → P (.account x)

theorem Closed.start (hP : v.Closed P) : v.start.Within v.context (· ∈ v.sigs) P where
  ready := start_ready
  approved x hx := hP.approved x (mem_start_approvedBy.mp hx)

theorem Closed.check (hP : v.Closed P) {au : Option (Authority K A)} {yes : Bool} (hs : s.Within v.context (· ∈ v.sigs) P)
    (h : checkAuthority v.context v.context.maxRecursion au s = .ok (yes, s')) :
    s'.Within v.context (· ∈ v.sigs) P ∧ (yes = true → ∃ auth ∈ au, auth.Reached P) :=
  checkAuthority_within hP.key hP.address hP.active hs h

theorem Closed.requireOther (hP : v.Closed P) (hs : s.Within v.context (· ∈ v.sigs) P)
    (h : Khc.Auth.requireOther v.context s auth = .ok s') : s'.Within v.context (· ∈ v.sigs) P ∧ auth.Reached P := by
  obtain ⟨hs', hyes⟩ := hP.check hs (requireOther_eq_ok h)
  obtain ⟨_, hmem, hreached⟩ := hyes rfl
  obtain rfl := Option.some.inj hmem
  exact ⟨hs', hreached⟩

theorem Closed.requireActive (hP : v.Closed P) (hs : s.Within v.context (· ∈ v.sigs) P)
    (h : Khc.Auth.requireActive v.context v.getOwner s id = .ok s') : s'.Within v.context (· ∈ v.sigs) P ∧
      (P (.account id) ∨ (∃ auth ∈ v.getActive id, auth.Reached P) ∨ ∃ auth ∈ v.getOwner id, auth.Reached P) := by
  rcases requireActive_eq_ok h with ⟨hid, rfl⟩ | ⟨-, h | ⟨s₁, h₁, h₂⟩⟩
  · exact ⟨hs, .inl (hs.approved id hid)⟩
  · obtain ⟨hs', hyes⟩ := hP.check hs h
    exact ⟨hs', .inr (.inl (hyes rfl))⟩
  · obtain ⟨hs₂, hyes⟩ := hP.check (hP.check hs h₁).1 h₂
    exact ⟨hs₂, .inr (.inr (hyes rfl))⟩

theorem Closed.requireOwner (hP : v.Closed P) (hs : s.Within v.context (· ∈ v.sigs) P)
    (h : Khc.Auth.requireOwner v.context v.getOwner v.ownerApprovals s id = .ok s') : s'.Within v.context (· ∈ v.sigs) P ∧
      (id ∈ v.ownerApprovals ∨ ∃ auth ∈ v.getOwner id, auth.Reached P) := by
  rcases requireOwner_eq_ok h with ⟨hid, rfl⟩ | ⟨-, h⟩
  · exact ⟨hs, .inl hid⟩
  · obtain ⟨hs', hyes⟩ := hP.check hs h
    exact ⟨hs', .inr (hyes rfl)⟩

/-- The required authorities that pass are reached through the members that have the property. -/
theorem Closed.verifyAuthority (hP : v.Closed P) (h : v.verifyAuthority = .ok ()) : (∀ auth ∈ v.other, auth.Reached P) ∧
    (∀ id ∈ v.requiredActive,
      P (.account id) ∨ (∃ auth ∈ v.getActive id, auth.Reached P) ∨ ∃ auth ∈ v.getOwner id, auth.Reached P) ∧
    ∀ id ∈ v.requiredOwner, id ∈ v.ownerApprovals ∨ ∃ auth ∈ v.getOwner id, auth.Reached P := by
  simp only [Verification.verifyAuthority, bind_eq_ok] at h
  obtain ⟨_, -, s₁, hother, s₂, hactive, s₃, howner, -⟩ := h
  obtain ⟨hs₁, hother⟩ := foldlM_forall (fun auth _ s s' hs h => hP.requireOther hs h) hP.start hother
  obtain ⟨hs₂, hactive⟩ := foldlM_forall (fun id _ s s' hs h => hP.requireActive hs h) hs₁ hactive
  obtain ⟨-, howner⟩ := foldlM_forall (fun id _ s s' hs h => hP.requireOwner hs h) hs₂ howner
  exact ⟨hother, hactive, howner⟩

end

theorem closed_granted : v.Closed fun e => ∃ n, v.consent.granted n e where
  key k hk := ⟨0, hk⟩
  address k a hk ha := ⟨0, k, hk, ha⟩
  approved x hx := ⟨0, hx⟩
  active _ x auth hx hreached := by
    obtain ⟨n, hn⟩ := Consent.derivable_of_reached hreached
    exact ⟨n + 1, .inr ⟨auth, hx, hn⟩⟩

theorem authorised_of_verifyAuthority (h : v.verifyAuthority = .ok ()) : v.Authorised v.consent.Derivable := by
  obtain ⟨hother, hactive, howner⟩ := closed_granted.verifyAuthority h
  have hderivable : ∀ au : Option (Authority K A), (∃ auth ∈ au, auth.Reached fun e => ∃ n, v.consent.granted n e) →
      ∃ auth ∈ au, v.consent.Derivable auth :=
    fun _ h => h.imp fun _ ⟨hmem, hreached⟩ => ⟨hmem, Consent.derivable_of_reached hreached⟩
  refine ⟨fun auth hauth => Consent.derivable_of_reached (hother auth hauth), fun id hid => ?_, fun id hid => ?_⟩
  · rcases hactive id hid with ⟨n, hn⟩ | h | h
    · exact (Consent.approves_or_derivable hn).imp_right .inl
    · exact .inr (.inl (hderivable _ h))
    · exact .inr (.inr (hderivable _ h))
  · exact (howner id hid).imp_right (hderivable _)

/-! ### What is derivable passes -/

/-- What the checks keep: every approval is found. -/
def Complete (v : Verification K A) (s : SignState K A) : Prop := s.Holds v.context (· ∈ v.sigs) v.Approved

theorem start_complete : v.Complete v.start where
  ready := start_ready
  approved _ := mem_start_approvedBy.mpr

section
variable (hplain : ∀ auth, v.Mentions auth → auth.Plain ∧ auth.Steady)
include hplain

theorem checkAuthority_found (hmentions : v.Mentions auth) (hs : v.Complete s) :
    ∃ yes s', checkAuthority v.context v.context.maxRecursion (some auth) s = .ok (yes, s') ∧ v.Complete s' ∧
      (v.consent.DerivableWithin v.maxRecursionDepth auth → yes = true) :=
  checkAuthority_finds (fun x auth hx => hplain auth (.inr (.inl ⟨x, hx⟩))) (.inl rfl) (hplain auth hmentions).1
    (hplain auth hmentions).2 hs

theorem requireOther_complete (hmem : auth ∈ v.other) (hauth : v.consent.DerivableWithin v.maxRecursionDepth auth)
    (hs : v.Complete s) : ∃ s', requireOther v.context s auth = .ok s' ∧ v.Complete s' := by
  obtain ⟨yes, s', h, hs', hyes⟩ := checkAuthority_found hplain (.inl hmem) hs
  obtain rfl := hyes hauth
  exact ⟨s', by rw [requireOther, h]; rfl, hs'⟩

/-- The check of an account's authority returns, and finds one that is derivable. -/
theorem checkAuthority_of {au : Option (Authority K A)} (hmentions : ∀ auth ∈ au, v.Mentions auth) (hs : v.Complete s) :
    ∃ yes s', checkAuthority v.context v.context.maxRecursion au s = .ok (yes, s') ∧ v.Complete s' ∧
      ((∃ auth ∈ au, v.consent.DerivableWithin v.maxRecursionDepth auth) → yes = true) := by
  cases au with
  | none => exact ⟨false, s, checkAuthority_none, hs, fun ⟨_, h, _⟩ => by cases h⟩
  | some auth =>
    obtain ⟨yes, s', h, hs', hyes⟩ := checkAuthority_found hplain (hmentions auth rfl) hs
    refine ⟨yes, s', h, hs', ?_⟩
    rintro ⟨_, hmem, hauth⟩
    obtain rfl := Option.some.inj hmem
    exact hyes hauth

theorem requireActive_complete (hid : v.Approved id ∨ (∃ auth ∈ v.getActive id, v.consent.DerivableWithin v.maxRecursionDepth auth) ∨
    ∃ auth ∈ v.getOwner id, v.consent.DerivableWithin v.maxRecursionDepth auth) (hs : v.Complete s) :
    ∃ s', requireActive v.context v.getOwner s id = .ok s' ∧ v.Complete s' := by
  by_cases hmem : id ∈ s.approvedBy
  · exact ⟨s, by rw [requireActive, checkAccount, if_pos hmem]; rfl, hs⟩
  obtain ⟨yes, s₁, h₁, hs₁, hyes⟩ := checkAuthority_of hplain (fun auth hauth => .inr (.inl ⟨id, hauth⟩)) hs
  have hfirst : checkAccount v.context id s = .ok (yes, s₁) := (if_neg hmem).trans h₁
  cases yes with
  | true => exact ⟨s₁, by rw [requireActive, hfirst]; rfl, hs₁⟩
  | false =>
    obtain ⟨yes, s₂, h₂, hs₂, hyes₂⟩ := checkAuthority_of hplain (fun auth hauth => .inr (.inr ⟨id, hauth⟩)) hs₁
    have htrue : yes = true := by
      rcases hid with hid | hid | hid
      · exact absurd (hs.approved id hid) hmem
      · exact absurd (hyes hid) Bool.false_ne_true
      · exact hyes₂ hid
    subst htrue
    refine ⟨s₂, ?_, hs₂⟩
    rw [requireActive, hfirst, ok_bind]
    simp only [Bool.false_eq_true, if_false]
    rw [h₂]
    rfl

theorem requireOwner_complete (hid : id ∈ v.ownerApprovals ∨ ∃ auth ∈ v.getOwner id, v.consent.DerivableWithin v.maxRecursionDepth auth)
    (hs : v.Complete s) : ∃ s', requireOwner v.context v.getOwner v.ownerApprovals s id = .ok s' ∧ v.Complete s' := by
  by_cases hmem : id ∈ v.ownerApprovals
  · exact ⟨s, by rw [requireOwner, if_pos hmem]; rfl, hs⟩
  obtain ⟨yes, s', h, hs', hyes⟩ := checkAuthority_of hplain (fun auth hauth => .inr (.inr ⟨id, hauth⟩)) hs
  obtain rfl := hyes (hid.resolve_left hmem)
  exact ⟨s', by rw [requireOwner, if_neg hmem, h]; rfl, hs'⟩

/-- With everything derivable within the limit, only the committee's part and the signatures that were not needed are left to
    object to. -/
theorem verifyAuthority_of_authorised (h : v.Authorised (v.consent.DerivableWithin v.maxRecursionDepth)) : ∃ s, v.Complete s ∧
    v.verifyAuthority = ensure (v.allowCommitte ∨ grapheneCommitteeAccount ∉ v.requiredActive) .invalidCommitteeApproval >>= fun _ =>
      ensure (s.removeUnusedSignatures = false) .txIrrelevantSig := by
  obtain ⟨s₁, hother, hs₁⟩ := foldlM_total
    (fun auth hauth s hs => requireOther_complete hplain hauth (h.other auth hauth) hs) start_complete
  obtain ⟨s₂, hactive, hs₂⟩ := foldlM_total
    (fun id hid s hs => requireActive_complete hplain (h.active id hid) hs) hs₁
  obtain ⟨s₃, howner, hs₃⟩ := foldlM_total
    (fun id hid s hs => requireOwner_complete hplain (h.owner id hid) hs) hs₂
  refine ⟨s₃, hs₃, ?_⟩
  rw [verifyAuthority, hother, ok_bind, hactive, ok_bind, howner, ok_bind]

end

end Verification

end Khc.Auth
