import Khc.Serial.Extension
import Mathlib.Algebra.Order.Group.Nat

/-! Extensions are read as they were written, and nothing is read that would not be written so. -/

namespace Khc.Serial

open Lib

variable {varint : Varint Error} {maxDepth depth which next : Nat} {m : Member} {members : List Member} {T : Reflected}
  {bytes rest s : Bytes} {v v' : UnpackVisitor}

/-- Every value that is set can be written at the depth. -/
def Packs (maxDepth : Nat) : (members : List Member) → Values members → Prop
  | [], _ => True
  | m :: members, (value, values) => (∀ x ∈ value, ∃ bytes, m.codec.pack maxDepth x = .ok bytes) ∧ Packs maxDepth members values

/-- An index and what follows it -/
structure Field where
  which : Nat
  value : Bytes

/-- The number of the fields, and the fields: their indexes grow and are those of members, whose codecs have written the values. -/
structure Layout (varint : Varint Error) (maxDepth : Nat) (members : List Member) (bytes : Bytes) (fields : List Field) : Prop where
  bytes : bytes = varint.pack fields.length ++ fields.flatMap fun f => varint.pack f.which ++ f.value
  increasing : fields.Pairwise (·.which < ·.which)
  known : ∀ f ∈ fields, ∃ m, members[f.which]? = some m ∧ ∃ x, m.codec.pack maxDepth x = .ok f.value

/-! ### What is written -/

theorem packMembers_total (which : Nat) {values : Values members} (h : Packs maxDepth members values) :
    ∃ bytes, packMembers varint maxDepth members which values = .ok bytes := by
  induction members generalizing which with
  | nil => exact ⟨[], rfl⟩
  | cons m members ih =>
    obtain ⟨value, values⟩ := values
    obtain ⟨hvalue, hvalues⟩ := h
    obtain ⟨rest, hrest⟩ := ih (which + 1) hvalues
    have hmember : ∃ bytes, packMember varint maxDepth m which value = .ok bytes := by
      cases value with
      | none => exact ⟨[], rfl⟩
      | some x =>
        obtain ⟨bytes, hx⟩ := hvalue x rfl
        exact ⟨_, bind_eq_ok.mpr ⟨bytes, hx, rfl⟩⟩
    obtain ⟨bytes, hbytes⟩ := hmember
    exact ⟨_, bind_eq_ok.mpr ⟨bytes, hbytes, bind_eq_ok.mpr ⟨rest, hrest, rfl⟩⟩⟩

theorem countSet_le (values : Values members) : countSet members values ≤ members.length := by
  induction members with
  | nil => exact le_refl _
  | cons m members ih =>
    obtain ⟨value, values⟩ := values
    have hle := ih values
    rw [countSet, List.length_cons]
    split <;> omega

/-- The fields of the members from an index on -/
theorem packMembers_fields {values : Values members} (h : packMembers varint maxDepth members which values = .ok bytes) :
    ∃ fields : List Field, bytes = (fields.flatMap fun f => varint.pack f.which ++ f.value) ∧ fields.length = countSet members values ∧
      fields.Pairwise (·.which < ·.which) ∧ ∀ f ∈ fields, which ≤ f.which ∧
        ∃ m, members[f.which - which]? = some m ∧ ∃ x, m.codec.pack maxDepth x = .ok f.value := by
  induction members generalizing which bytes with
  | nil =>
    obtain rfl := Except.ok.inj h
    exact ⟨[], rfl, rfl, .nil, fun f hf => absurd hf List.not_mem_nil⟩
  | cons m members ih =>
    obtain ⟨value, values⟩ := values
    simp only [packMembers, bind_eq_ok, pure_eq_ok] at h
    obtain ⟨field, hfield, rest, hrest, rfl⟩ := h
    obtain ⟨fields, rfl, hlength, hincreasing, hknown⟩ := ih hrest
    have hknown' : ∀ f ∈ fields, which < f.which ∧
        ∃ n, (m :: members)[f.which - which]? = some n ∧ ∃ x, n.codec.pack maxDepth x = .ok f.value := by
      intro f hf
      obtain ⟨hle, n, hn, hx⟩ := hknown f hf
      refine ⟨hle, n, ?_, hx⟩
      have hsub : f.which - which = f.which - (which + 1) + 1 := by omega
      rw [hsub, List.getElem?_cons_succ]
      exact hn
    cases value with
    | none =>
      obtain rfl := Except.ok.inj hfield
      refine ⟨fields, rfl, ?_, hincreasing, fun f hf => ⟨(hknown' f hf).1.le, (hknown' f hf).2⟩⟩
      rw [hlength, countSet, Option.isSome_none, if_neg Bool.false_ne_true, zero_add]
    | some x =>
      simp only [packMember, bind_eq_ok, pure_eq_ok] at hfield
      obtain ⟨bytes, hx, rfl⟩ := hfield
      refine ⟨⟨which, bytes⟩ :: fields, rfl, ?_, ?_, ?_⟩
      · rw [List.length_cons, hlength, countSet, Option.isSome_some, if_pos rfl, add_comm]
      · exact List.pairwise_cons.mpr ⟨fun f hf => (hknown' f hf).1, hincreasing⟩
      · intro f hf
        rcases List.mem_cons.mp hf with rfl | hf
        · exact ⟨le_refl _, m, by rw [Nat.sub_self]; rfl, x, hx⟩
        · exact ⟨(hknown' f hf).1.le, (hknown' f hf).2⟩

/-! ### Reading what was written -/

theorem maybeReadNextWhich_written {count : Nat} (hpos : 0 < count) (hwhich : which < 2 ^ 32) :
    maybeReadNextWhich varint ⟨next, count, varint.pack which ++ rest⟩ = .ok ⟨which, count, rest⟩ := by
  rw [maybeReadNextWhich, if_pos hpos, varint.unpack_pack hwhich]
  rfl

/-- The visitor stands before the next index, or has passed it where a field is left. It does not pass a member that is not set. -/
theorem unpackMembers_written (next : Nat) (rest : Bytes) {values : Values members} (h : packMembers varint maxDepth members which values = .ok bytes)
    (hlength : which + members.length < 2 ^ 32) : ∃ v v', maybeReadNextWhich varint ⟨next, countSet members values, bytes ++ rest⟩ = .ok v ∧
      (0 < v.countLeft → which ≤ v.nextWhich) ∧ unpackMembers varint maxDepth members which v = .ok (values, v') ∧
        v'.countLeft = 0 ∧ v'.stream = rest := by
  induction members generalizing which next bytes with
  | nil =>
    obtain rfl := Except.ok.inj h
    exact ⟨_, _, rfl, fun hpos => absurd hpos (lt_irrefl 0), rfl, rfl, rfl⟩
  | cons m members ih =>
    obtain ⟨value, values⟩ := values
    simp only [packMembers, bind_eq_ok, pure_eq_ok] at h
    obtain ⟨field, hfield, fields, hfields, rfl⟩ := h
    rw [List.length_cons] at hlength
    cases value with
    | none =>
      obtain rfl := Except.ok.inj hfield
      obtain ⟨v, v', hread, hnext, hunpack, hleft, hstream⟩ := ih next hfields (by omega)
      refine ⟨v, v', ?_, fun hpos => (Nat.lt_of_succ_le (hnext hpos)).le, ?_, hleft, hstream⟩
      · rw [countSet, Option.isSome_none, if_neg Bool.false_ne_true, zero_add]
        exact hread
      · have hskip : unpackMember varint maxDepth m which v = .ok (none, v) := by
          refine if_neg fun hwhich => ?_
          obtain ⟨hpos, rfl⟩ := hwhich
          exact absurd (hnext hpos) (Nat.not_succ_le_self _)
        exact bind_eq_ok.mpr ⟨_, hskip, bind_eq_ok.mpr ⟨_, hunpack, rfl⟩⟩
    | some x =>
      simp only [packMember, bind_eq_ok, pure_eq_ok] at hfield
      obtain ⟨bytes, hx, rfl⟩ := hfield
      obtain ⟨v, v', hread, -, hunpack, hleft, hstream⟩ := ih which hfields (by omega)
      refine ⟨⟨which, 1 + countSet members values, bytes ++ (fields ++ rest)⟩, v', ?_, fun _ => le_refl _, ?_, hleft, hstream⟩
      · rw [countSet, Option.isSome_some, if_pos rfl, List.append_assoc, List.append_assoc]
        exact maybeReadNextWhich_written (Nat.add_pos_left Nat.one_pos _) (by omega)
      · have htake : unpackMember varint maxDepth m which ⟨which, 1 + countSet members values, bytes ++ (fields ++ rest)⟩ =
            .ok (some x, v) := by
          rw [unpackMember, if_pos ⟨Nat.add_pos_left Nat.one_pos _, rfl⟩, m.codec.unpack_pack hx, ok_bind]
          dsimp only
          rw [Nat.add_sub_cancel_left, hread]
          rfl
        exact bind_eq_ok.mpr ⟨_, htake, bind_eq_ok.mpr ⟨_, hunpack, rfl⟩⟩

/-! ### Writing what was read -/

/-- What is left to read, with the index that was read ahead -/
def unread (varint : Varint Error) (v : UnpackVisitor) : Bytes :=
  if v.countLeft > 0 then varint.pack v.nextWhich ++ v.stream else v.stream

theorem unread_maybeReadNextWhich (h : maybeReadNextWhich varint v = .ok v') : unread varint v' = v.stream ∧ v'.countLeft = v.countLeft := by
  unfold maybeReadNextWhich at h
  split at h
  · rename_i hpos
    simp only [bind_eq_ok, pure_eq_ok] at h
    obtain ⟨⟨w, stream⟩, hw, rfl⟩ := h
    exact ⟨by rw [unread, if_pos hpos, (varint.pack_unpack hw).2], rfl⟩
  · rename_i hzero
    obtain rfl := pure_eq_ok.mp h
    exact ⟨if_neg hzero, rfl⟩

theorem packMember_read {value : Option m.Value} (h : unpackMember varint maxDepth m which v = .ok (value, v')) :
    ∃ bytes, packMember varint maxDepth m which value = .ok bytes ∧ unread varint v = bytes ++ unread varint v' ∧
      v.countLeft = (if value.isSome then 1 else 0) + v'.countLeft := by
  unfold unpackMember at h
  split at h
  · rename_i hfield
    obtain ⟨hpos, rfl⟩ := hfield
    simp only [bind_eq_ok, pure_eq_ok, Prod.mk.injEq] at h
    obtain ⟨⟨x, stream⟩, hx, v₁, hread, rfl, rfl⟩ := h
    obtain ⟨bytes, hpack, hstream⟩ := m.codec.pack_unpack hx
    obtain ⟨hunread, hleft⟩ := unread_maybeReadNextWhich hread
    dsimp only at hleft hunread
    refine ⟨_, bind_eq_ok.mpr ⟨bytes, hpack, rfl⟩, ?_, ?_⟩
    · rw [unread, if_pos hpos, hunread, hstream, List.append_assoc]
    · rw [hleft, Option.isSome_some, if_pos rfl]
      omega
  · obtain ⟨rfl, rfl⟩ := Prod.mk.inj (Except.ok.inj h)
    exact ⟨[], rfl, rfl, by rw [Option.isSome_none, if_neg Bool.false_ne_true, zero_add]⟩

theorem packMembers_read {values : Values members} (h : unpackMembers varint maxDepth members which v = .ok (values, v'))
    (hleft : v'.countLeft = 0) : ∃ bytes, packMembers varint maxDepth members which values = .ok bytes ∧
      unread varint v = bytes ++ v'.stream ∧ v.countLeft = countSet members values := by
  induction members generalizing which v with
  | nil =>
    obtain ⟨-, rfl⟩ := Prod.mk.inj (Except.ok.inj h)
    exact ⟨[], rfl, if_neg (by omega), hleft⟩
  | cons m members ih =>
    simp only [unpackMembers, bind_eq_ok, pure_eq_ok] at h
    obtain ⟨⟨value, v₁⟩, hvalue, ⟨values, v₂⟩, hvalues, hpair⟩ := h
    obtain ⟨rfl, rfl⟩ := Prod.mk.inj hpair
    obtain ⟨field, hfield, hunread, hcount⟩ := packMember_read hvalue
    obtain ⟨fields, hfields, hunread', hcount'⟩ := ih hvalues
    refine ⟨field ++ fields, bind_eq_ok.mpr ⟨field, hfield, bind_eq_ok.mpr ⟨fields, hfields, rfl⟩⟩, ?_, ?_⟩
    · rw [hunread, hunread', List.append_assoc]
    · rw [hcount, hcount', countSet]

/-! ### Extensions -/

/-- A struct is written wherever its values can be and the depth suffices. It is read as it was written; and what is read is the number of
    its fields and the fields, with growing indexes of members, and is written again as it was. -/
theorem extension_codec (varint : Varint Error) (T : Reflected) (depth : Nat) :
    (∀ value, 2 ≤ depth → Packs (depth - 2) T.members value → ∃ bytes, pack varint T depth value = .ok bytes) ∧
    (∀ value bytes, pack varint T depth value = .ok bytes → ∀ rest, unpack varint T depth (bytes ++ rest) = .ok (value, rest)) ∧
    ∀ s value rest, unpack varint T depth s = .ok (value, rest) → ∃ bytes fields, s = bytes ++ rest ∧
      pack varint T depth value = .ok bytes ∧ Layout varint (depth - 2) T.members bytes fields := by
  refine ⟨fun value hdepth hpacks => ?_, fun value bytes h rest => ?_, fun s value rest h => ?_⟩
  · obtain ⟨fields, hfields⟩ := packMembers_total 0 hpacks
    exact ⟨_, bind_eq_ok.mpr ⟨(), ensure_eq_ok.mpr (by omega), bind_eq_ok.mpr ⟨(), ensure_eq_ok.mpr (by omega),
      bind_eq_ok.mpr ⟨fields, hfields, rfl⟩⟩⟩⟩
  · simp only [pack, bind_eq_ok, ensure_eq_ok, pure_eq_ok] at h
    obtain ⟨_, hdepth, _, hdepth', fields, hfields, rfl⟩ := h
    obtain ⟨v, v', hread, -, hunpack, hleft, rfl⟩ := unpackMembers_written 0 rest hfields (by simpa using T.length_lt)
    have hcount : countSet T.members value < 2 ^ 32 := (countSet_le value).trans_lt T.length_lt
    rw [List.append_assoc]
    exact bind_eq_ok.mpr ⟨(), ensure_eq_ok.mpr hdepth, bind_eq_ok.mpr ⟨(), ensure_eq_ok.mpr hdepth', bind_eq_ok.mpr ⟨_,
      varint.unpack_pack hcount _, bind_eq_ok.mpr ⟨v, hread, bind_eq_ok.mpr ⟨_, hunpack, bind_eq_ok.mpr ⟨(), ensure_eq_ok.mpr hleft, rfl⟩⟩⟩⟩⟩⟩
  · simp only [unpack, bind_eq_ok, ensure_eq_ok, pure_eq_ok] at h
    obtain ⟨_, hdepth, _, hdepth', ⟨c, stream⟩, hc, v, hread, ⟨values, v'⟩, hunpack, _, hleft, hpair⟩ := h
    obtain ⟨rfl, rfl⟩ := Prod.mk.inj hpair
    obtain ⟨written, hwritten, hunread, hcount⟩ := packMembers_read hunpack hleft
    obtain ⟨hstream, hcount'⟩ := unread_maybeReadNextWhich hread
    obtain ⟨fields, hfields, hlength, hincreasing, hknown⟩ := packMembers_fields hwritten
    obtain ⟨-, hs⟩ := varint.pack_unpack hc
    have hnumber : c = countSet T.members values := hcount'.symm.trans hcount
    refine ⟨varint.pack c ++ written, fields, ?_, ?_, ?_, hincreasing, fun f hf => (hknown f hf).2⟩
    · rw [hs, List.append_assoc, ← hunread, hstream]
    · rw [hnumber]
      exact bind_eq_ok.mpr ⟨(), ensure_eq_ok.mpr hdepth, bind_eq_ok.mpr ⟨(), ensure_eq_ok.mpr hdepth',
        bind_eq_ok.mpr ⟨written, hwritten, rfl⟩⟩⟩
    · rw [hlength, hnumber, hfields]

section

/-- A `uint16_t`, its low byte first -/
def uint16 : Codec Error UInt16 where
  pack _ x := .ok [UInt8.ofNat x.toNat, UInt8.ofNat (x.toNat / 256)]
  unpack
    | _, low :: high :: s => .ok (UInt16.ofNat (low.toNat + 256 * high.toNat), s)
    | _, _ => .error .stream
  unpack_pack := by
    intro depth x bytes h rest
    obtain rfl := Except.ok.inj h
    have hlt := x.toNat_lt
    have hvalue : (UInt8.ofNat x.toNat).toNat + 256 * (UInt8.ofNat (x.toNat / 256)).toNat = x.toNat := by
      rw [UInt8.toNat_ofNat', UInt8.toNat_ofNat']
      omega
    simp only [List.cons_append, List.nil_append, hvalue, UInt16.ofNat_toNat]
  pack_unpack := by
    intro depth s x rest h
    rcases s with _ | ⟨low, _ | ⟨high, s⟩⟩
    · cases h
    · cases h
    · obtain ⟨rfl, rfl⟩ := Prod.mk.inj (Except.ok.inj h)
      have hlow := low.toNat_lt
      have hhigh := high.toNat_lt
      have hvalue : (UInt16.ofNat (low.toNat + 256 * high.toNat)).toNat = low.toNat + 256 * high.toNat := by
        rw [UInt16.toNat_ofNat']
        omega
      refine ⟨_, rfl, ?_⟩
      have hlow' : UInt8.ofNat (low.toNat + 256 * high.toNat) = low := by
        rw [← UInt8.toNat_inj, UInt8.toNat_ofNat']
        omega
      have hhigh' : UInt8.ofNat ((low.toNat + 256 * high.toNat) / 256) = high := by
        rw [← UInt8.toNat_inj, UInt8.toNat_ofNat']
        omega
      rw [hvalue, hlow', hhigh']
      rfl

/-- `call_order_update_operation::options_type` -/
def optionsType : Reflected := ⟨[⟨UInt16, uint16⟩], by decide⟩

/-- A target of 3000, read back -/
theorem extension_codec_options : unpack (.groups .stream) optionsType 3 [1, 0, 184, 11] = .ok ((some 3000, ()), []) := by
  obtain ⟨-, hread, -⟩ := extension_codec (.groups .stream) optionsType 3
  exact hread (some 3000, ()) [1, 0, 184, 11] (by decide) []

end

end Khc.Serial
