import Khc.Lib.Except
import Khc.Lib.Flat

/-! Smallest sets with a property: elements are taken out in turn, and put back if the property is lost. -/

namespace Khc.Lib

namespace FlatSet
variable {α : Type} [LinearOrder α]

/-- `erase` of an element -/
def erase (s : FlatSet α) (x : α) : FlatSet α := s.diff (ofList [x])

@[simp] theorem mem_erase {s : FlatSet α} {x y : α} : y ∈ s.erase x ↔ y ∈ s ∧ y ≠ x := by
  rw [erase, mem_diff, mem_ofList, List.mem_singleton]

/-- All elements are in the second set. -/
def Within (s t : FlatSet α) : Prop := ∀ x ∈ s, x ∈ t

end FlatSet

open FlatSet

variable {α ε : Type} [LinearOrder α] {g : FlatSet α → α → Except ε (FlatSet α)} {Ok : FlatSet α → Prop} {s r : FlatSet α} {l : List α}

end Khc.Lib
