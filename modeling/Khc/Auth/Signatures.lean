import Khc.Auth.Walk
import Mathlib.Data.List.Induction

/-! Which keys and addresses are found signed. The maps of addresses are made once, while keys are still marked, but what can be
    signed does not change during a check. -/

namespace Khc.Auth

open Lib

theorem find?_foldl_set {K A : Type} [LinearOrder A] {l : List A} {m : FlatMap A K} {a : A} {k : K} :
    (l.foldl (fun m a => m.set a k) m).find? a = if a ∈ l then some k else m.find? a := by
  induction l generalizing m with
  | nil => simp
  | cons b l ih =>
    rw [List.foldl_cons, ih]
    by_cases hl : a ∈ l
    · rw [if_pos hl, if_pos (List.mem_cons_of_mem _ hl)]
    · rw [if_neg hl]
      by_cases hb : a = b
      · rw [hb, FlatMap.find?_set_self, if_pos List.mem_cons_self]
      · rw [FlatMap.find?_set_of_ne hb, if_neg (fun h => (List.mem_cons.mp h).elim hb hl)]

variable {K A : Type} [LinearOrder A]

section
variable [AddressHash K A] {keys : List K} {a : A} {k : K}

theorem addressSigs_append : (addressSigs (keys ++ [k])).find? a =
    if a ∈ encodings k then some k else (addressSigs keys).find? a := by
  rw [addressSigs, List.foldl_append, List.foldl_cons, List.foldl_nil, find?_foldl_set]
  rfl

/-- A key is found only under its own addresses. -/
theorem mem_of_addressSigs (hk : (addressSigs keys).find? a = some k) : k ∈ keys ∧ a ∈ encodings k := by
  induction keys using List.reverseRecOn with
  | nil => cases hk
  | append_singleton keys k' ih =>
    rw [addressSigs_append] at hk
    split at hk
    · rename_i ha
      obtain rfl := Option.some.inj hk
      exact ⟨List.mem_append_right _ List.mem_cons_self, ha⟩
    · exact ⟨List.mem_append_left _ (ih hk).1, (ih hk).2⟩

/-- Under each address of a key, some key is found. -/
theorem addressSigs_ne_none (hk : k ∈ keys) (ha : a ∈ encodings k) : (addressSigs keys).find? a ≠ none := by
  induction keys using List.reverseRecOn with
  | nil => cases hk
  | append_singleton keys k' ih =>
    rw [addressSigs_append]
    split
    · exact Option.some_ne_none _
    · rename_i ha'
      rcases List.mem_append.mp hk with hk | hk
      · exact ih hk
      · obtain rfl := List.mem_singleton.mp hk
        exact absurd ha ha'

end

variable [LinearOrder K]

namespace SignState
variable [AddressHash K A] {c : SignContext K A} {s : SignState K A} {k : K} {a : A} {x : AccountId} {signs : K → Prop}

omit [AddressHash K A] in
theorem signedByKey_eq : signedByKey c k s =
    if k ∈ s.providedSignatures.keys ∨ k ∈ c.availableKeys then (true, s.mark k) else (false, s) := by
  unfold signedByKey
  split
  · rename_i hnone
    have hnotMem := FlatMap.find?_eq_none.mp hnone
    split
    · rename_i hk
      rw [if_pos (.inr hk)]
    · rename_i hk
      rw [if_neg (fun h => h.elim hnotMem hk)]
  · rename_i v hsome
    rw [if_pos (.inl (FlatMap.mem_keys.mpr ⟨v, hsome⟩))]

omit [AddressHash K A] in
@[simp] theorem mark_approvedBy : (s.mark k).approvedBy = s.approvedBy := rfl

@[simp] theorem fillAddressSigs_approvedBy : (s.fillAddressSigs c).approvedBy = s.approvedBy := by
  unfold fillAddressSigs
  split <;> rfl

@[simp] theorem fillAddressSigs_providedSignatures : (s.fillAddressSigs c).providedSignatures = s.providedSignatures := by
  unfold fillAddressSigs
  split <;> rfl

/-- The keys that sign are the ones provided or available, and the maps of addresses, once they are made, are of these keys. -/
structure Ready (c : SignContext K A) (signs : K → Prop) (s : SignState K A) : Prop where
  signers : ∀ k, signs k ↔ k ∈ s.providedSignatures.keys ∨ k ∈ c.availableKeys
  filled : s.availableAddressSigs = none ∨ s.availableAddressSigs = some (addressSigs c.availableKeys.elems) ∧
    ∃ keys, s.providedAddressSigs = some (addressSigs keys) ∧ ∀ k, signs k ↔ k ∈ keys ∨ k ∈ c.availableKeys

namespace Ready

theorem mark (hs : s.Ready c signs) (hk : signs k) : (s.mark k).Ready c signs where
  signers k' := by
    rw [hs.signers, SignState.mark, FlatMap.mem_keys_set]
    by_cases h : k' = k
    · subst h
      exact ⟨fun _ => .inl (.inl rfl), fun _ => (hs.signers _).mp hk⟩
    · rw [or_iff_right h]
  filled := hs.filled

theorem approve (hs : s.Ready c signs) : (s.approve x).Ready c signs := ⟨hs.signers, hs.filled⟩

theorem fill (hs : s.Ready c signs) : (s.fillAddressSigs c).Ready c signs where
  signers := by
    rw [fillAddressSigs_providedSignatures]
    exact hs.signers
  filled := by
    unfold fillAddressSigs
    split
    · exact .inr ⟨rfl, _, rfl, hs.signers⟩
    · exact hs.filled

theorem availableAddressSigs_fill : (s.fillAddressSigs c).availableAddressSigs ≠ none := by
  unfold fillAddressSigs
  split
  · exact Option.some_ne_none _
  · rename_i h
    rw [h]
    exact Option.some_ne_none _

theorem signedByKey (hs : s.Ready c signs) : signs k ∧ SignState.signedByKey c k s = (true, s.mark k) ∨
    ¬signs k ∧ SignState.signedByKey c k s = (false, s) := by
  rw [signedByKey_eq]
  by_cases hk : signs k
  · exact .inl ⟨hk, if_pos ((hs.signers k).mp hk)⟩
  · exact .inr ⟨hk, if_neg fun h => hk ((hs.signers k).mpr h)⟩

/-- An address that a signing key has is found, under one of these keys; of any other, the end of a map is dereferenced. -/
theorem signedByAddress (hs : s.Ready c signs) :
    (∃ k, signs k ∧ a ∈ encodings k ∧ SignState.signedByAddress c a s = .ok (true, (s.fillAddressSigs c).mark k)) ∨
      (∀ k, signs k → a ∉ encodings k) ∧ SignState.signedByAddress c a s = .error .undefinedBehavior := by
  obtain ⟨havailable, keys, hprovided, hkeys⟩ := hs.fill.filled.resolve_left availableAddressSigs_fill
  unfold SignState.signedByAddress
  simp only [havailable, hprovided]
  split
  · rename_i hnone
    split
    · rename_i k hsome
      obtain ⟨hk, ha⟩ := mem_of_addressSigs hsome
      exact .inl ⟨k, (hkeys k).mpr (.inr hk), ha, if_pos hk⟩
    · rename_i hnone'
      refine .inr ⟨fun k hk ha => ?_, rfl⟩
      rcases (hkeys k).mp hk with hk | hk
      · exact addressSigs_ne_none hk ha hnone
      · exact addressSigs_ne_none hk ha hnone'
  · rename_i k hsome
    obtain ⟨hk, ha⟩ := mem_of_addressSigs hsome
    exact .inl ⟨k, (hkeys k).mpr (.inl hk), ha, rfl⟩

end Ready

omit [AddressHash K A] in
theorem mem_keys_init {sigs : FlatSet K} : k ∈ (init sigs : SignState K A).providedSignatures.keys ↔ k ∈ sigs := by
  have hfold : ∀ (l : List K) (m : FlatMap K Bool), k ∈ (l.foldl (fun m k => m.set k false) m).keys ↔ k ∈ l ∨ k ∈ m.keys := by
    intro l
    induction l with
    | nil => simp
    | cons b l ih =>
      intro m
      rw [List.foldl_cons, ih, FlatMap.mem_keys_set, List.mem_cons]
      tauto
  exact (hfold sigs.elems ∅).trans (or_iff_left (show k ∉ [] from List.not_mem_nil))

theorem ready_init {sigs : FlatSet K} {approved : FlatSet AccountId} :
    ({ init sigs with approvedBy := approved } : SignState K A).Ready c fun k => k ∈ sigs ∨ k ∈ c.availableKeys where
  signers _ := or_congr_left (mem_keys_init (A := A)).symm
  filled := .inl rfl

end SignState

end Khc.Auth

/-! What is derivable from signatures and approvals: keys that sign, addresses of such keys, accounts that approve, and accounts
    whose active authority is reached by what is derivable. A check finds an authority satisfied only if it is derivable, and it
    finds it satisfied if it is derivable within the levels that it has left. -/

namespace Khc.Auth

open Lib Authority

variable {K A : Type} [LinearOrder K] [LinearOrder A]

/-- Who signs and approves, and the active authorities of the accounts. -/
structure Consent (K A : Type) [LinearOrder K] [LinearOrder A] where
  signs : K → Prop
  approves : AccountId → Prop
  active : AccountId → Option (Authority K A)

namespace Consent
variable [AddressHash K A] {g : Consent K A} {au : Authority K A} {n m : Nat} {e : Member K A}

/-- What is granted through at most so many levels of active authorities. -/
def granted (g : Consent K A) : Nat → Member K A → Prop
  | _, .key k => g.signs k
  | _, .address a => ∃ k, g.signs k ∧ a ∈ encodings k
  | 0, .account x => g.approves x
  | n + 1, .account x => g.approves x ∨ ∃ au ∈ g.active x, au.Reached (g.granted n)

def DerivableWithin (g : Consent K A) (n : Nat) (au : Authority K A) : Prop := au.Reached (g.granted n)

def Derivable (g : Consent K A) (au : Authority K A) : Prop := ∃ n, g.DerivableWithin n au

theorem granted_key {k : K} : g.granted n (.key k) ↔ g.signs k := by
  cases n <;> rfl

theorem granted_address {a : A} : g.granted n (.address a) ↔ ∃ k, g.signs k ∧ a ∈ encodings k := by
  cases n <;> rfl

theorem granted_of_approves {x : AccountId} (h : g.approves x) : g.granted n (.account x) := by
  cases n with
  | zero => exact h
  | succ n => exact .inl h

theorem granted_succ (h : g.granted n e) : g.granted (n + 1) e := by
  induction n generalizing e with
  | zero =>
    cases e with
    | key k => exact h
    | address a => exact h
    | account x => exact .inl h
  | succ n ih =>
    cases e with
    | key k => exact h
    | address a => exact h
    | account x =>
      rcases h with h | ⟨au, hau, hreached⟩
      · exact .inl h
      · exact .inr ⟨au, hau, hreached.mono fun _ _ => ih⟩

theorem granted_mono (h : g.granted n e) (hle : n ≤ m) : g.granted m e := Nat.le_induction h (fun _ _ => granted_succ) m hle

/-- An account is granted by its approval, or by its active authority. -/
theorem approves_or_derivable {x : AccountId} (h : g.granted n (.account x)) :
    g.approves x ∨ ∃ au ∈ g.active x, g.Derivable au := by
  cases n with
  | zero => exact .inl h
  | succ n => exact h.imp_right fun ⟨au, hau, hreached⟩ => ⟨au, hau, n, hreached⟩

/-- Finitely many members are granted at one level. -/
theorem exists_level (g : Consent K A) (l : List (Member K A × Weight)) :
    ∃ n, ∀ e ∈ l, (∃ n, g.granted n e.1) → g.granted n e.1 := by
  induction l with
  | nil => exact ⟨0, fun e he => absurd he List.not_mem_nil⟩
  | cons e l ih =>
    obtain ⟨n, hn⟩ := ih
    by_cases he : ∃ m, g.granted m e.1
    · obtain ⟨m, hm⟩ := he
      refine ⟨max n m, fun e' he' hgranted => ?_⟩
      rcases List.mem_cons.mp he' with rfl | he'
      · exact granted_mono hm (le_max_right _ _)
      · exact granted_mono (hn e' he' hgranted) (le_max_left _ _)
    · refine ⟨n, fun e' he' hgranted => ?_⟩
      rcases List.mem_cons.mp he' with rfl | he'
      · exact absurd hgranted he
      · exact hn e' he' hgranted

theorem derivable_of_reached (h : au.Reached fun e => ∃ n, g.granted n e) : g.Derivable au := by
  obtain ⟨n, hn⟩ := exists_level g au.members
  exact ⟨n, h.mono fun e he => hn e he⟩

end Consent

/-- The context with the keys and accounts that are taken to consent. -/
def SignContext.consent (c : SignContext K A) (signs : K → Prop) (approves : AccountId → Prop) : Consent K A where
  signs := signs
  approves := approves
  active := c.getActive

namespace SignState
variable [AddressHash K A] {c : SignContext K A} {s s' : SignState K A} {yes : Bool} {n : Nat} {au : Option (Authority K A)} {auth : Authority K A}
  {signs : K → Prop} {approves : AccountId → Prop} {P : Member K A → Prop}

/-- The keys that sign are ready, and each account that is approved has the property. -/
structure Within (c : SignContext K A) (signs : K → Prop) (P : Member K A → Prop) (s : SignState K A) : Prop where
  ready : s.Ready c signs
  approved : ∀ x ∈ s.approvedBy, P (.account x)

theorem Within.approve {x : AccountId} (hs : s.Within c signs P) (hx : P (.account x)) : (s.approve x).Within c signs P where
  ready := hs.ready.approve
  approved y hy := by
    rcases FlatSet.mem_insert.mp hy with rfl | hy
    · exact hx
    · exact hs.approved y hy

/-- Whatever signing keys, their addresses and accounts with such members' authority have is all that a check passes. -/
theorem checkAuthority_within (hkey : ∀ k, signs k → P (.key k)) (haddress : ∀ k a, signs k → a ∈ encodings k → P (.address a))
    (hclosed : n ≠ 0 → ∀ x auth, c.getActive x = some auth → auth.Reached P → P (.account x)) (hs : s.Within c signs P)
    (h : checkAuthority c n au s = .ok (yes, s')) : s'.Within c signs P ∧ (yes = true → ∃ auth ∈ au, auth.Reached P) := by
  refine checkAuthority_rule (W := fun _ => True) (fun _ _ k _ s hs => ?_) (fun _ _ a _ s yes s' hs h => ?_) (fun x s hs => hs.approved x)
    (fun _ _ _ _ _ _ => trivial) (fun hn x auth s hx hreached hs => ?_) (fun _ _ => trivial) hs h
  · rcases hs.ready.signedByKey (k := k) with ⟨hk, heq⟩ | ⟨-, heq⟩
    · rw [heq]
      exact ⟨⟨hs.ready.mark hk, hs.approved⟩, fun _ => hkey k hk⟩
    · rw [heq]
      exact ⟨hs, fun h => absurd h Bool.false_ne_true⟩
  · rcases hs.ready.signedByAddress (a := a) with ⟨k, hk, ha, heq⟩ | ⟨-, heq⟩
    · obtain ⟨rfl, rfl⟩ := Prod.mk.inj (Except.ok.inj (heq.symm.trans h))
      refine ⟨⟨hs.ready.fill.mark hk, fun x hx => hs.approved x ?_⟩, fun _ => haddress k a hk ha⟩
      rwa [mark_approvedBy, fillAddressSigs_approvedBy] at hx
    · rw [heq] at h
      cases h
  · have hx := hclosed hn x auth hx hreached
    exact ⟨hs.approve hx, hx⟩

theorem Ready.check (hs : s.Ready c signs) (h : checkAuthority c n au s = .ok (yes, s')) : s'.Ready c signs :=
  (checkAuthority_within (P := fun _ => True) (fun _ _ => trivial) (fun _ _ _ _ => trivial) (fun _ _ _ _ _ => trivial)
    ⟨hs, fun _ _ => trivial⟩ h).1.ready

/-- The keys that sign are ready, and the accounts that approve are approved. -/
structure Holds (c : SignContext K A) (signs : K → Prop) (approves : AccountId → Prop) (s : SignState K A) : Prop where
  ready : s.Ready c signs
  approved : ∀ x, approves x → x ∈ s.approvedBy

/-- A check passes what is derivable within its levels. -/
theorem checkAuthority_finds (hactive : ∀ x auth, c.getActive x = some auth → auth.Plain ∧ auth.Steady)
    (htemp : approves grapheneTempAccount) (hplain : auth.Plain) (hsteady : auth.Steady) (hs : s.Holds c signs approves) :
    ∃ yes s', checkAuthority c n (some auth) s = .ok (yes, s') ∧ s'.Holds c signs approves ∧
      ((c.consent signs approves).DerivableWithin n auth → yes = true) := by
  refine checkAuthority_complete (P := (c.consent signs approves).granted) hactive (fun n => Consent.granted_of_approves htemp)
    (fun n k s hs => ?_) (fun x s hs => ?_) (fun x s hs hx => hs.approved x hx) (fun n x s hs hx => ?_) hplain hsteady hs
  · rcases hs.ready.signedByKey (k := k) with ⟨hk, heq⟩ | ⟨hk, heq⟩
    · rw [heq]
      exact ⟨⟨hs.ready.mark hk, hs.approved⟩, fun _ => rfl⟩
    · rw [heq]
      exact ⟨hs, fun h => absurd (Consent.granted_key.mp h) hk⟩
  · exact ⟨hs.ready.approve, fun y hy => FlatSet.mem_insert.mpr (.inr (hs.approved y hy))⟩
  · exact hx.imp_left (hs.approved x)

end SignState

end Khc.Auth
