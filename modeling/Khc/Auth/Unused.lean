import Khc.Auth.Proposal
import Khc.Auth.Required

/-! Keys that have signed and are not found: no authority that comes up lists them, and the check rejects them. -/

namespace Khc.Auth

open Lib SignState Authority

variable {K A : Type} [LinearOrder K] [LinearOrder A]

namespace SignState

/-- The key has signed and was looked for. -/
def Marked (s : SignState K A) (k : K) : Prop := s.providedSignatures.find? k = some true

variable {s : SignState K A} {k u : K}

theorem marked_mark : (s.mark k).Marked k := FlatMap.find?_set_self

theorem Marked.mark (h : s.Marked u) : (s.mark k).Marked u := by
  by_cases hk : u = k
  · exact hk ▸ marked_mark
  · exact (FlatMap.find?_set_of_ne hk).trans h

theorem not_marked_mark (h : ¬s.Marked u) (hk : u ≠ k) : ¬(s.mark k).Marked u := fun hmarked =>
  h ((FlatMap.find?_set_of_ne hk).symm.trans hmarked)

end SignState

namespace Verification
variable [AddressHash K A] {v : Verification K A} {s s' : SignState K A} {u : K} {id : AccountId}

/-- The key has signed and was not looked for; whoever approved at the start is approved. -/
structure Unused (v : Verification K A) (u : K) (s : SignState K A) : Prop where
  provided : u ∈ s.providedSignatures.keys
  unmarked : ¬s.Marked u
  approved : ∀ x, v.Approved x → x ∈ s.approvedBy

/-- An authority that does not list the key, or an address -/
def NotListed (u : K) (auth : Authority K A) : Prop := u ∉ auth.keyAuths.keys ∧ auth.Plain

theorem Unused.check {n : Nat} {au : Option (Authority K A)} {yes : Bool}
    (hactive : ∀ x auth, ¬v.Approved x → v.getActive x = some auth → NotListed u auth) (hau : ∀ auth ∈ au, NotListed u auth)
    (hs : v.Unused u s) (h : checkAuthority v.context n au s = .ok (yes, s')) : v.Unused u s' := by
  refine (checkAuthority_rule (P := fun _ => True) (fun auth hauth k hk s hs => ⟨?_, fun _ => trivial⟩)
    (fun auth hauth a ha s _ _ _ _ => ?_) (fun _ _ _ _ => trivial) (fun x auth s hs hx hauth => ?_)
    (fun _ x auth s _ _ hs => ⟨⟨hs.provided, hs.unmarked, fun y hy => FlatSet.mem_insert.mpr (.inr (hs.approved y hy))⟩, trivial⟩)
    hau hs h).1
  · have hne : u ≠ k := fun h => hauth.1 (h ▸ hk)
    rw [signedByKey_eq]
    split
    · exact ⟨FlatMap.mem_keys_set.mpr (.inr hs.provided), not_marked_mark hs.unmarked hne, hs.approved⟩
    · exact hs
  · rw [FlatMap.keys, show auth.addressAuths.entries = [] from hauth.2] at ha
    exact absurd ha List.not_mem_nil
  · exact hactive x auth (fun hx' => hx (hs.approved x hx')) hauth

end Verification

end Khc.Auth
