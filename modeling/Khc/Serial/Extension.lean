import Khc.Lib.Codec

/-! `extension`: a struct of optional members, of which only those that are set are written, each after its index. -/

namespace Khc.Serial

open Lib

inductive Error
  | /-- `_max_depth > 0` -/
    recursionDepth
  | /-- `vtor.count_left == 0` -/
    unrecognizedExtension
  | /-- Thrown by the stream -/
    stream
  deriving DecidableEq, Repr

abbrev Eval := Except Error

/-- A reflected member, an `optional< Value >` -/
structure Member where
  Value : Type
  codec : Codec Error Value

/-- The values of the members -/
def Values : List Member → Type
  | [] => Unit
  | m :: members => Option m.Value × Values members

/-- A struct: its members in the order in which the reflector visits them, which a `uint32_t` counts. -/
structure Reflected where
  members : List Member
  length_lt : members.length < 2 ^ 32

section
variable (varint : Varint Error) (maxDepth : Nat)

/-! ### pack -/

/-- `graphene_extension_pack_count_visitor` -/
def countSet : (members : List Member) → Values members → Nat
  | [], _ => 0
  | _ :: members, (value, values) => (if value.isSome then 1 else 0) + countSet members values

/-- One member of `graphene_extension_pack_read_visitor` -/
def packMember (m : Member) (which : Nat) : Option m.Value → Eval Bytes
  | some x => do
    let bytes ← m.codec.pack maxDepth x
    return varint.pack which ++ bytes
  | none => return []

/-- `graphene_extension_pack_read_visitor` -/
def packMembers : (members : List Member) → (which : Nat) → Values members → Eval Bytes
  | [], _, _ => return []
  | m :: members, which, (value, values) => do
    let bytes ← packMember varint maxDepth m which value
    let rest ← packMembers members (which + 1) values
    return bytes ++ rest

/-- `fc::raw::pack` of an extension -/
def pack (T : Reflected) (depth : Nat) (value : Values T.members) : Eval Bytes := do
  ensure (depth > 0) .recursionDepth
  let count := varint.pack (countSet T.members value)
  ensure (depth - 1 > 0) .recursionDepth
  let fields ← packMembers varint (depth - 1 - 1) T.members 0 value
  return count ++ fields

/-! ### unpack -/

/-- What `graphene_extension_unpack_visitor` has read -/
structure UnpackVisitor where
  nextWhich : Nat := 0
  countLeft : Nat
  stream : Bytes

def maybeReadNextWhich (v : UnpackVisitor) : Eval UnpackVisitor :=
  if v.countLeft > 0 then do
    let (w, stream) ← varint.unpack v.stream
    return { v with nextWhich := w, stream }
  else return v

/-- One member of `graphene_extension_unpack_visitor` -/
def unpackMember (m : Member) (which : Nat) (v : UnpackVisitor) : Eval (Option m.Value × UnpackVisitor) :=
  if v.countLeft > 0 ∧ which = v.nextWhich then do
    let (temp, stream) ← m.codec.unpack maxDepth v.stream
    let v ← maybeReadNextWhich varint { v with countLeft := v.countLeft - 1, stream }
    return (some temp, v)
  else return (none, v)

/-- `graphene_extension_unpack_visitor` -/
def unpackMembers : (members : List Member) → (which : Nat) → UnpackVisitor → Eval (Values members × UnpackVisitor)
  | [], _, v => return ((), v)
  | m :: members, which, v => do
    let (value, v) ← unpackMember varint maxDepth m which v
    let (values, v) ← unpackMembers members (which + 1) v
    return ((value, values), v)

/-- `fc::raw::unpack` of an extension -/
def unpack (T : Reflected) (depth : Nat) (s : Bytes) : Eval (Values T.members × Bytes) := do
  ensure (depth > 0) .recursionDepth
  ensure (depth - 1 > 0) .recursionDepth
  let (c, stream) ← varint.unpack s
  let v ← maybeReadNextWhich varint { countLeft := c, stream }
  let (value, v) ← unpackMembers varint (depth - 1 - 1) T.members 0 v
  ensure (v.countLeft = 0) .unrecognizedExtension
  return (value, v.stream)

end

end Khc.Serial
