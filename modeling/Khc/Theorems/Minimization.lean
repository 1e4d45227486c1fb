import Khc.Auth.Minimize
import Khc.Theorems.Authorities

/-! The minimized signatures: where the recursion limit cuts no check off, they are a smallest set of keys that passes. -/

namespace Khc.Auth

open Lib SignState

variable {K A : Type} [LinearOrder K] [LinearOrder A] [AddressHash K A]

/-! ### Verifications -/

namespace Signing
variable {t : Signing K A} {s s' : SignState K A} {S S' : FlatSet K} {signs : K → Prop} {auth : Authority K A} {id : AccountId}
  {E : Authority K A → Prop} {c : SignContext K A}

/-- The temporary account approves, and nobody else does. -/
def consent (t : Signing K A) (signs : K → Prop) : Consent K A := ⟨signs, (· = grapheneTempAccount), t.getActive⟩

/-- The authority is reached through these keys. -/
def Reached (t : Signing K A) (signs : K → Prop) (auth : Authority K A) : Prop := auth.Reached (t.consent signs).Grants

/-- Every required authority is reached through these keys. -/
structure Satisfied (t : Signing K A) (signs : K → Prop) : Prop where
  other : ∀ auth ∈ t.other, t.Reached signs auth
  active : ∀ id ∈ t.ops.flatMap (·.active),
    id = grapheneTempAccount ∨ (∃ auth ∈ t.getActive id, t.Reached signs auth) ∨ ∃ auth ∈ t.getOwner id, t.Reached signs auth
  owner : ∀ id ∈ t.requiredOwner, ∃ auth ∈ t.getOwner id, t.Reached signs auth

/-- Authorities of keys and accounts whose totals do not wrap, through at most as many levels as the recursion limit allows -/
def Bounded (t : Signing K A) (auth : Authority K A) : Prop := Regular (· = grapheneTempAccount) t.getActive t.maxRecursion auth

theorem grants_mono {signs' : K → Prop} (hsigns : ∀ k, signs k → signs' k) (e : Member K A) (h : (t.consent signs).Grants e) :
    (t.consent signs').Grants e := by
  have hkeys : ∀ k, (t.consent signs).signs k → (t.consent signs').signs k := hsigns
  have happroves : ∀ x, (t.consent signs).approves x → (t.consent signs').approves x := fun _ h => h
  exact h.mono hkeys happroves rfl

theorem reached_mono (h : t.Reached signs auth) {signs' : K → Prop} (hsigns : ∀ k, signs k → signs' k) : t.Reached signs' auth :=
  Authority.Reached.mono h fun e _ => grants_mono hsigns e.1

theorem Satisfied.mono (h : t.Satisfied signs) {signs' : K → Prop} (hsigns : ∀ k, signs k → signs' k) : t.Satisfied signs' where
  other auth hauth := reached_mono (h.other auth hauth) hsigns
  active id hid := (h.active id hid).imp_right (Or.imp
    (fun ⟨auth, hauth, hreached⟩ => ⟨auth, hauth, reached_mono hreached hsigns⟩)
    fun ⟨auth, hauth, hreached⟩ => ⟨auth, hauth, reached_mono hreached hsigns⟩)
  owner id hid := (h.owner id hid).imp fun _ h => h.imp_right fun h => reached_mono h hsigns

/-- What is marked stays marked. -/
def Kept (s s' : SignState K A) : Prop := ∀ k, s.Marked k → s'.Marked k

/-- The state of a verification in which nothing is missing so far, with what the check of each requirement has done -/
def OtherDone (t : Signing K A) (signs : K → Prop) (auth : Authority K A) (s : SignState K A) : Prop := (t.consent signs).Done s auth

def OwnerDone (t : Signing K A) (signs : K → Prop) (id : AccountId) (s : SignState K A) : Prop :=
  ∀ owner, t.getOwner id = some owner → (t.consent signs).Done s owner

/-- The owner authority of an account is only looked at if its active authority is not reached. -/
def ActiveDone (t : Signing K A) (signs : K → Prop) (id : AccountId) (s : SignState K A) : Prop :=
  id ≠ grapheneTempAccount → ∀ auth, t.getActive id = some auth → (t.consent signs).Done s auth ∧
    (¬t.Reached signs auth → t.OwnerDone signs id s)

theorem OwnerDone.mono (h : t.OwnerDone signs id s) (hkept : Kept s s') : t.OwnerDone signs id s' :=
  fun owner howner => (h owner howner).mono hkept

theorem ActiveDone.mono (h : t.ActiveDone signs id s) (hkept : Kept s s') : t.ActiveDone signs id s' := by
  intro hid auth hauth
  obtain ⟨hdone, howner⟩ := h hid auth hauth
  exact ⟨hdone.mono hkept, fun hnot => (howner hnot).mono hkept⟩

section
variable (S)

end

variable {owner : Authority K A}

omit [AddressHash K A] in
theorem Kept.refl (s : SignState K A) : Kept s s := fun _ h => h

omit [AddressHash K A] in
theorem Kept.trans (s₁ s₂ s₃ : SignState K A) (h : Kept s₁ s₂) (h' : Kept s₂ s₃) : Kept s₁ s₃ := fun k hk => h' k (h k hk)

/-- What the search for keys has done -/
structure Searched (t : Signing K A) (signs : K → Prop) (s : SignState K A) : Prop where
  other : ∀ auth ∈ t.other, t.OtherDone signs auth s
  owner : ∀ id ∈ t.requiredOwner, t.OwnerDone signs id s
  active : ∀ id ∈ t.requiredActive, t.ActiveDone signs id s

end Signing

/-! ### Concrete cases -/

end Khc.Auth
