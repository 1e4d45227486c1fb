import Mathlib.Data.List.Nodup
import Mathlib.Logic.Function.Basic

/-! Changes of a value that may be there or not, as an undo log keeps them: how one leads from the value before it to
    the value after it, how it is taken back, and how two of them make one. -/

namespace Khc.Lib

/-- What an undo log keeps of a value. -/
inductive Change (V : Type)
  | nop
  | new
  | upd (was : V)
  | del (was : V)

namespace Change
variable {V : Type}

/-- The change of a value from the first to the second. -/
inductive Leads : Change V → Option V → Option V → Prop
  | nop (v : Option V) : Leads nop v v
  | new (v : V) : Leads new none (some v)
  | upd (w v : V) : Leads (upd w) (some w) (some v)
  | del (w : V) : Leads (del w) (some w) none

/-- The value before the change, given the one after it. -/
def revert : Change V → Option V → Option V
  | nop, v => v
  | new, _ => none
  | upd was, _ => some was
  | del was, _ => some was

/-- Two changes in a row as one; `none` where the second cannot follow the first. -/
def comp : Change V → Change V → Option (Change V)
  | nop, b => some b
  | a, nop => some a
  | new, upd _ => some new
  | new, del _ => some nop
  | upd x, upd _ => some (upd x)
  | upd x, del _ => some (del x)
  | _, _ => none

section
variable {a b : Change V} {x y z : Option V}

theorem Leads.revert (h : a.Leads x y) : a.revert y = x := by
  cases h <;> rfl

@[simp] theorem comp_nop : a.comp nop = some a := by
  cases a <;> rfl

/-- Where a value is not made anew after it was deleted, changes in a row are one change. -/
theorem Leads.comp (ha : a.Leads x y) (hb : b.Leads y z) (hnew : b = .new → x = none) :
    ∃ c, a.comp b = some c ∧ c.Leads x z := by
  cases hb with
  | nop v => exact ⟨a, comp_nop, ha⟩
  | new v =>
    cases ha with
    | nop v => exact ⟨_, rfl, .new _⟩
    | del w => exact absurd (hnew rfl) (by simp)
  | upd w v =>
    cases ha with
    | nop v => exact ⟨_, rfl, .upd _ _⟩
    | new v => exact ⟨_, rfl, .new _⟩
    | upd u v => exact ⟨_, rfl, .upd _ _⟩
  | del w =>
    cases ha with
    | nop v => exact ⟨_, rfl, .del _⟩
    | new v => exact ⟨_, rfl, .nop _⟩
    | upd u v => exact ⟨_, rfl, .del _⟩

end

end Change

end Khc.Lib
