import Khc.Block.BlockDatabase

/-! The store of blocks answers as a map from numbers to blocks, unless the id of a removed block is still in the index or a
    block was stored under another id than its own. -/

namespace Khc.Block

open Lib
open Fork (Blocks)

variable {Block Id : Type} [DecidableEq Id]

/-- The last stored and not removed block of each number, with the id that it was stored under -/
abbrev Stored (Block Id : Type) : Type := Nat → Option (Id × Block)

/-- What an operation does to the map -/
def Stored.apply (B : Blocks Block Id) (m : Stored Block Id) : StoreOperation Block Id → Stored Block Id
  | .store id b =>
    let id := if id = B.zero then B.id b else id
    Function.update m (B.numFromId id) (some (id, b))
  | .remove id => if (m (B.numFromId id)).map (·.1) = some id then Function.update m (B.numFromId id) none else m
  | .reopen => m

namespace BlockDatabase
variable (B : Blocks Block Id) (C : Codec Block) (d : BlockDatabase Id) (m : Stored Block Id)

/-- The queries of single blocks agree with the map and with each other. -/
structure Answers : Prop where
  contains : ∀ id, d.contains B id = true ↔ ∃ b, m (B.numFromId id) = some (id, b)
  fetchOptional : ∀ id b, d.fetchOptional B C id = some b ↔ m (B.numFromId id) = some (id, b)
  fetchByNumber : ∀ n b, d.fetchByNumber B C n = some b ↔ ∃ id, m n = some (id, b)
  fetchBlockId : ∀ n ≠ 0, ∀ id, d.fetchBlockId B n = .ok id ↔ ∃ b, m n = some (id, b)
  contains_iff : ∀ id, d.contains B id = true ↔ ∃ b, d.fetchOptional B C id = some b ∧ B.id b = id
  byNumber_iff : ∀ n ≠ 0, ∀ b, d.fetchByNumber B C n = some b ↔ d.fetchBlockId B n = .ok (B.id b)

/-- All queries agree with the map, also after those that cut the index off. -/
structure Agrees : Prop where
  answers : d.Answers B C m
  last : ∀ b, (d.last B C).1 = some b ↔ ∃ n id, m n = some (id, b) ∧ ∀ k > n, m k = none
  lastId : ∀ id, (d.lastId B C).1 = some id ↔ ∃ n b, m n = some (id, b) ∧ ∀ k > n, m k = none
  after : (d.last B C).2.Answers B C m

/-- Each block in the index stands there under its own id, and a number without a block is empty. -/
structure Clean : Prop where
  own : ∀ e ∈ d.blockNumToPos, 0 < e.blockSize → ∀ b ∈ d.readBlock C e, B.id b = e.blockId
  removed : ∀ n ≠ 0, ∀ e ∈ d.blockNumToPos[n]?, e.blockSize = 0 → e.blockId = B.zero

/-- The index holds the entries of the map. -/
structure Holds : Prop where
  stored : ∀ n, ∀ e ∈ d.blockNumToPos[n]?, 0 < e.blockSize →
    B.numFromId e.blockId = n ∧ e.blockId ≠ B.zero ∧ ∃ b, m n = some (e.blockId, b) ∧ d.readBlock C e = some b
  empty : ∀ n, ∀ e ∈ d.blockNumToPos[n]?, e.blockSize = 0 → m n = none
  beyond : ∀ n, d.blockNumToPos.length ≤ n → m n = none

section
omit [DecidableEq Id]
variable {B : Blocks Block Id} {C : Codec Block} {d : BlockDatabase Id} {m : Stored Block Id} {n num : Nat} {id : Id} {b : Block}
  {e : IndexEntry Id}

/-! ### Files -/

theorem getElem?_writeEntry : (d.writeEntry B num e).blockNumToPos[n]? =
    if n = num then some e else if n < d.blockNumToPos.length then d.blockNumToPos[n]?
    else if n < num then some (emptyEntry B) else none := by
  rw [writeEntry, List.getElem?_set, List.length_append, List.length_replicate]
  by_cases hnum : n = num
  · rw [if_pos hnum.symm, if_pos hnum, if_pos (by omega)]
  · rw [if_neg (Ne.symm hnum), if_neg hnum]
    split
    · rename_i hlt
      exact List.getElem?_append_left hlt
    · rename_i hge
      rw [List.getElem?_append_right (by omega), List.getElem?_replicate]
      exact if_congr (by omega) rfl rfl

theorem length_writeEntry_le (h : (d.writeEntry B num e).blockNumToPos.length ≤ n) : d.blockNumToPos.length ≤ n ∧ n ≠ num := by
  simp only [writeEntry, List.length_set, List.length_append, List.length_replicate] at h
  omega

/-- No block is read from an entry that is empty. -/
theorem readBlock_of_size_zero (h : e.blockSize = 0) : d.readBlock C e = none := by
  unfold readBlock
  split
  · rw [h, List.take_zero, C.unpack_nil]
  · rfl

/-- What is appended to the blocks leaves those before it as they are. -/
theorem readBlock_append {data : List UInt8} (h : d.readBlock C e = some b) :
    readBlock C { d with blocks := d.blocks ++ data } e = some b := by
  unfold readBlock at h ⊢
  split at h
  · rename_i hle
    rw [if_pos (by rw [List.length_append]; omega), List.drop_append_of_le_length (by omega),
      List.take_append_of_le_length (by rw [List.length_drop]; omega)]
    exact h
  · cases h

theorem readBlock_appended : readBlock C { d with blocks := d.blocks ++ C.pack b } ⟨d.blocks.length, (C.pack b).length, id⟩ =
    some b := by
  unfold readBlock
  rw [if_pos (by simp)]
  simp [C.unpack_pack]

theorem length_pack_pos (C : Codec Block) (b : Block) : 0 < (C.pack b).length := by
  refine List.length_pos_iff.mpr fun hnil => ?_
  have hpack := C.unpack_pack b
  rw [hnil, C.unpack_nil] at hpack
  cases hpack

theorem id_ne_zero (B : Blocks Block Id) (b : Block) : B.id b ≠ B.zero := by
  intro hzero
  have hnum := B.numFromId_id b
  rw [hzero, B.numFromId_zero] at hnum
  omega

/-! ### The map -/

/-- The map has what the index holds of a block. -/
theorem Holds.mem_iff (h : d.Holds B C m) {x : Id × Block} : m n = some x ↔
    ∃ e ∈ d.blockNumToPos[n]?, 0 < e.blockSize ∧ e.blockId = x.1 ∧ d.readBlock C e = some x.2 := by
  constructor
  · intro hx
    cases he : d.blockNumToPos[n]? with
    | none =>
      rw [h.beyond n (List.getElem?_eq_none_iff.mp he)] at hx
      cases hx
    | some e =>
      rcases e.blockSize.eq_zero_or_pos with hzero | hpos
      · rw [h.empty n e he hzero] at hx
        cases hx
      · obtain ⟨-, -, b, hb, hread⟩ := h.stored n e he hpos
        obtain rfl := Option.some.inj (hx.symm.trans hb)
        exact ⟨e, rfl, hpos, rfl, hread⟩
  · rintro ⟨e, he, hpos, hid, hread⟩
    obtain ⟨-, -, b, hb, hread'⟩ := h.stored n e he hpos
    obtain rfl := Option.some.inj (hread.symm.trans hread')
    rw [hb, hid]

/-- An entry of a block that is stored -/
theorem Holds.write (h : d.Holds B C m) (hid : id ≠ B.zero) :
    (writeEntry B { d with blocks := d.blocks ++ C.pack b } (B.numFromId id) ⟨d.blocks.length, (C.pack b).length, id⟩).Holds B C
      (Function.update m (B.numFromId id) (some (id, b))) where
  stored n e he hpos := by
    rw [Option.mem_def, getElem?_writeEntry] at he
    split at he
    · rename_i hn
      obtain rfl := Option.some.inj he
      exact ⟨hn.symm, hid, b, by rw [hn, Function.update_self], readBlock_appended⟩
    · rename_i hn
      split at he
      · obtain ⟨hnum, hne, b', hb', hread⟩ := h.stored n e he hpos
        exact ⟨hnum, hne, b', by rwa [Function.update_of_ne hn], readBlock_append hread⟩
      · split at he
        · obtain rfl := Option.some.inj he
          exact absurd hpos (lt_irrefl 0)
        · cases he
  empty n e he hzero := by
    rw [Option.mem_def, getElem?_writeEntry] at he
    split at he
    · obtain rfl := Option.some.inj he
      exact absurd hzero (length_pack_pos C b).ne'
    · rename_i hn
      rw [Function.update_of_ne hn]
      split at he
      · exact h.empty n e he hzero
      · rename_i hge
        exact h.beyond n (not_lt.mp hge)
  beyond n hn := by
    obtain ⟨hle, hne⟩ := length_writeEntry_le hn
    rw [Function.update_of_ne hne]
    exact h.beyond n hle

/-- An entry whose block is removed -/
theorem Holds.clear {m' : Stored Block Id} (h : d.Holds B C m) (hm : ∀ n ≠ num, m' n = m n) (hnone : m' num = none) :
    (d.writeEntry B num { e with blockSize := 0 }).Holds B C m' where
  stored n e' he hpos := by
    rw [Option.mem_def, getElem?_writeEntry] at he
    split at he
    · obtain rfl := Option.some.inj he
      exact absurd hpos (lt_irrefl 0)
    · rename_i hn
      split at he
      · obtain ⟨hnum, hne, b', hb', hread⟩ := h.stored n e' he hpos
        exact ⟨hnum, hne, b', by rw [hm n hn, hb'], hread⟩
      · split at he
        · obtain rfl := Option.some.inj he
          exact absurd hpos (lt_irrefl 0)
        · cases he
  empty n e' he hzero := by
    rw [Option.mem_def, getElem?_writeEntry] at he
    split at he
    · rename_i hn
      rw [hn, hnone]
    · rename_i hn
      rw [hm n hn]
      split at he
      · exact h.empty n e' he hzero
      · rename_i hge
        exact h.beyond n (not_lt.mp hge)
  beyond n hn := by
    obtain ⟨hle, hne⟩ := length_writeEntry_le hn
    rw [hm n hne]
    exact h.beyond n hle

end

/-! ### Runs -/

section
variable {B : Blocks Block Id} {C : Codec Block} {d : BlockDatabase Id} {m : Stored Block Id} {n num : Nat} {id : Id} {b : Block}
  {e : IndexEntry Id}

theorem Holds.remove (h : d.Holds B C m) (id : Id) : (d.apply B C (.remove id)).Holds B C (m.apply B (.remove id)) := by
  have hsame : (m (B.numFromId id)).map (·.1) ≠ some id → m.apply B (.remove id) = m := fun hne => if_neg hne
  show ((d.remove B id).toOption.getD d).Holds B C _
  unfold BlockDatabase.remove
  split
  · rename_i hnone
    rw [hsame fun hsome => by simp [h.beyond _ (List.getElem?_eq_none_iff.mp hnone)] at hsome]
    exact h
  · rename_i e he
    show (if e.blockId = id then _ else d).Holds B C _
    split
    · rename_i hid
      by_cases hstored : (m (B.numFromId id)).map (·.1) = some id
      · rw [Stored.apply, if_pos hstored]
        exact h.clear (fun n hn => Function.update_of_ne hn _ _) (Function.update_self _ _ _)
      · rw [hsame hstored]
        refine h.clear (fun _ _ => rfl) ?_
        rcases e.blockSize.eq_zero_or_pos with hzero | hpos
        · exact h.empty _ e he hzero
        · obtain ⟨-, -, b, hb, -⟩ := h.stored _ e he hpos
          exact absurd (by rw [hb, ← hid]; rfl) hstored
    · rename_i hid
      rw [hsame fun hstored => ?_]
      · exact h
      · obtain ⟨x, hx, rfl⟩ := Option.map_eq_some_iff.mp hstored
        obtain ⟨e', he', -, hid', -⟩ := h.mem_iff.mp hx
        obtain rfl := Option.some.inj (he.symm.trans he')
        exact hid hid'

theorem Holds.apply (h : d.Holds B C m) (op : StoreOperation Block Id) : (d.apply B C op).Holds B C (m.apply B op) := by
  cases op with
  | store id b =>
    have hid : (if id = B.zero then B.id b else id) ≠ B.zero := by
      split
      · exact id_ne_zero B b
      · assumption
    simp only [BlockDatabase.apply, store, Stored.apply, Nat.mod_eq_of_lt (C.length_pack b)]
    exact h.write hid
  | remove id => exact h.remove id
  | reopen => exact h

/-! ### Queries -/

theorem contains_eq_true : d.contains B id = true ↔
    id ≠ B.zero ∧ ∃ e ∈ d.blockNumToPos[B.numFromId id]?, e.blockId = id ∧ 0 < e.blockSize := by
  unfold contains
  split
  · rename_i hzero
    simp [hzero]
  · rename_i hid
    split
    · rename_i hnone
      simp [hnone]
    · rename_i e he
      simp [hid, he]

theorem fetchBlockId_eq_ok (hn : n ≠ 0) :
    d.fetchBlockId B n = .ok id ↔ ∃ e ∈ d.blockNumToPos[n]?, e.blockId ≠ B.zero ∧ e.blockId = id := by
  simp only [fetchBlockId, bind_eq_ok, ensure_eq_ok]
  cases d.blockNumToPos[n]? with
  | none => simp [throw_ne_ok]
  | some e => simp [hn, bind_eq_ok, pure_eq_ok, -bind_pure_comp]

theorem fetchByNumber_eq_some : d.fetchByNumber B C n = some b ↔
    ∃ e ∈ d.blockNumToPos[n]?, d.readBlock C e = some b ∧ B.id b = e.blockId := by
  unfold fetchByNumber
  cases d.blockNumToPos[n]? with
  | none => simp
  | some e =>
    simp only [Option.bind_eq_bind, Option.bind_some, Option.bind_eq_some_iff, Option.mem_def, Option.some.injEq, exists_eq_left']
    constructor
    · rintro ⟨b', hread, hid⟩
      split at hid
      · obtain rfl := Option.some.inj hid
        exact ⟨hread, ‹_›⟩
      · cases hid
    · rintro ⟨hread, hid⟩
      exact ⟨b, hread, if_pos hid⟩

theorem fetchOptional_eq_some : d.fetchOptional B C id = some b ↔
    ∃ e ∈ d.blockNumToPos[B.numFromId id]?, e.blockId = id ∧ d.readBlock C e = some b ∧ B.id b = id := by
  unfold fetchOptional
  cases d.blockNumToPos[B.numFromId id]? with
  | none => simp
  | some e =>
    simp only [Option.bind_eq_bind, Option.bind_some, Option.mem_def, Option.some.injEq, exists_eq_left']
    by_cases hid : e.blockId = id
    · simp only [hid, ne_eq, not_true_eq_false, if_false, Option.bind_eq_some_iff, true_and]
      constructor
      · rintro ⟨b', hread, hid'⟩
        split at hid'
        · obtain rfl := Option.some.inj hid'
          exact ⟨hread, ‹_›⟩
        · cases hid'
      · rintro ⟨hread, hid'⟩
        exact ⟨b, hread, if_pos hid'⟩
    · simp [hid]

/-- A store whose index is clean answers as its map. -/
theorem Holds.answers (h : d.Holds B C m) (hclean : d.Clean B C) : d.Answers B C m := by
  have hown : ∀ {n : Nat} {e : IndexEntry Id} {b : Block}, e ∈ d.blockNumToPos[n]? → d.readBlock C e = some b → 0 < e.blockSize ∧ B.id b = e.blockId := by
    intro n e b he hread
    have hpos : 0 < e.blockSize := by
      refine Nat.pos_of_ne_zero fun hzero => ?_
      rw [readBlock_of_size_zero hzero] at hread
      cases hread
    exact ⟨hpos, hclean.own e (List.mem_of_getElem? he) hpos b hread⟩
  have hcontains : ∀ id, d.contains B id = true ↔ ∃ b, m (B.numFromId id) = some (id, b) := by
    intro id
    rw [contains_eq_true]
    constructor
    · rintro ⟨-, e, he, rfl, hpos⟩
      obtain ⟨-, -, b, hb, -⟩ := h.stored _ e he hpos
      exact ⟨b, hb⟩
    · rintro ⟨b, hb⟩
      obtain ⟨e, he, hpos, rfl, -⟩ := h.mem_iff.mp hb
      exact ⟨(h.stored _ e he hpos).2.1, e, he, rfl, hpos⟩
  have hoptional : ∀ id b, d.fetchOptional B C id = some b ↔ m (B.numFromId id) = some (id, b) := by
    intro id b
    rw [fetchOptional_eq_some, h.mem_iff]
    constructor
    · rintro ⟨e, he, hid, hread, -⟩
      exact ⟨e, he, (hown he hread).1, hid, hread⟩
    · rintro ⟨e, he, -, hid, hread⟩
      exact ⟨e, he, hid, hread, (hown he hread).2.trans hid⟩
  have hnumber : ∀ n b, d.fetchByNumber B C n = some b ↔ ∃ id, m n = some (id, b) := by
    intro n b
    rw [fetchByNumber_eq_some]
    constructor
    · rintro ⟨e, he, hread, -⟩
      exact ⟨e.blockId, h.mem_iff.mpr ⟨e, he, (hown he hread).1, rfl, hread⟩⟩
    · rintro ⟨id, hb⟩
      obtain ⟨e, he, -, -, hread⟩ := h.mem_iff.mp hb
      exact ⟨e, he, hread, (hown he hread).2⟩
  have hblockId : ∀ n ≠ 0, ∀ id, d.fetchBlockId B n = .ok id ↔ ∃ b, m n = some (id, b) := by
    intro n hn id
    rw [fetchBlockId_eq_ok hn]
    constructor
    · rintro ⟨e, he, hid, rfl⟩
      rcases e.blockSize.eq_zero_or_pos with hzero | hpos
      · exact absurd (hclean.removed n hn e he hzero) hid
      · obtain ⟨-, -, b, hb, -⟩ := h.stored n e he hpos
        exact ⟨b, hb⟩
    · rintro ⟨b, hb⟩
      obtain ⟨e, he, hpos, hid, -⟩ := h.mem_iff.mp hb
      exact ⟨e, he, (h.stored n e he hpos).2.1, hid⟩
  have hid : ∀ {n id b}, m n = some (id, b) → B.id b = id := by
    intro n id b hb
    obtain ⟨e, he, -, hid, hread⟩ := h.mem_iff.mp hb
    exact (hown he hread).2.trans hid
  refine ⟨hcontains, hoptional, hnumber, hblockId, fun id => ?_, fun n hn b => ?_⟩
  · rw [hcontains]
    exact exists_congr fun b => ⟨fun hb => ⟨(hoptional id b).mpr hb, hid hb⟩, fun hb => (hoptional id b).mp hb.1⟩
  · rw [hnumber, hblockId n hn]
    constructor
    · rintro ⟨id, hb⟩
      exact ⟨b, hid hb ▸ hb⟩
    · rintro ⟨b', hb⟩
      exact ⟨B.id b, B.id_injective _ _ (hid hb) ▸ hb⟩

/-! ### The last block -/

/-- The entries that are left when the index has been cut off -/
theorem lastIndexEntry_snd : ((d.lastIndexEntry B C).2).blockNumToPos <+: d.blockNumToPos := List.rdropWhile_prefix _ _

theorem good_of_clean (h : d.Holds B C m) (hclean : d.Clean B C) (he : e ∈ d.blockNumToPos) :
    d.good B C e = true ↔ 0 < e.blockSize := by
  unfold good
  rw [decide_eq_true_iff]
  refine ⟨And.left, fun hpos => ⟨hpos, ?_⟩⟩
  obtain ⟨n, hn⟩ := List.mem_iff_getElem?.mp he
  obtain ⟨-, -, b, -, hread⟩ := h.stored n e hn hpos
  exact ⟨b, hread, hclean.own e he hpos b hread⟩

theorem mem_of_lastIndexEntry (he : e ∈ ((d.lastIndexEntry B C).2).blockNumToPos[n]?) : e ∈ d.blockNumToPos[n]? := by
  obtain ⟨rest, hrest⟩ := lastIndexEntry_snd (B := B) (C := C) (d := d)
  rw [← hrest, Option.mem_def, List.getElem?_append_left (List.getElem?_eq_some_iff.mp he).1]
  exact he

/-- Only entries without a block are cut off. -/
theorem Holds.cut (h : d.Holds B C m) (hclean : d.Clean B C) :
    ((d.lastIndexEntry B C).2).Holds B C m ∧ ((d.lastIndexEntry B C).2).Clean B C := by
  refine ⟨⟨fun n e he => h.stored n e (mem_of_lastIndexEntry he), fun n e he => h.empty n e (mem_of_lastIndexEntry he),
    fun n hn => ?_⟩, fun e he => hclean.own e (lastIndexEntry_snd.subset he),
    fun n hn e he => hclean.removed n hn e (mem_of_lastIndexEntry he)⟩
  cases he : d.blockNumToPos[n]? with
  | none => exact h.beyond n (List.getElem?_eq_none_iff.mp he)
  | some e =>
    have hcut : e ∈ d.blockNumToPos.rtakeWhile fun e => !d.good B C e := by
      have hrest := he
      rw [← List.rdropWhile_append_rtakeWhile (p := fun e => !d.good B C e) (l := d.blockNumToPos),
        List.getElem?_append_right (by exact hn)] at hrest
      exact List.mem_of_getElem? hrest
    have hbad := List.mem_rtakeWhile_imp hcut
    rw [Bool.not_eq_true', ← Bool.not_eq_true, good_of_clean h hclean (List.mem_of_getElem? he)] at hbad
    exact h.empty n e he (by omega)

/-- The last entry is that of the greatest number. -/
theorem Holds.lastIndexEntry (h : d.Holds B C m) (hclean : d.Clean B C) :
    (d.lastIndexEntry B C).1 = some e ↔ ∃ n, e ∈ d.blockNumToPos[n]? ∧ 0 < e.blockSize ∧ ∀ k > n, m k = none := by
  obtain ⟨hkept, -⟩ := h.cut hclean
  have hlast : ∀ {e : IndexEntry Id}, (d.lastIndexEntry B C).1 = some e →
      e ∈ ((d.lastIndexEntry B C).2).blockNumToPos[((d.lastIndexEntry B C).2).blockNumToPos.length - 1]? ∧ 0 < e.blockSize := by
    intro e he
    obtain ⟨es, hes⟩ := List.getLast?_eq_some_iff.mp he
    have hne : d.blockNumToPos.rdropWhile (fun e => !d.good B C e) ≠ [] := by simp [hes]
    have hgood := List.rdropWhile_last_not _ _ hne
    have hlast : (d.blockNumToPos.rdropWhile fun e => !d.good B C e).getLast hne = e := by simp [hes]
    have hmem : e ∈ d.blockNumToPos := lastIndexEntry_snd.subset (List.mem_of_getLast? he)
    rw [hlast, Bool.not_eq_true', Bool.not_eq_false, good_of_clean h hclean hmem] at hgood
    exact ⟨List.getLast?_eq_getElem? ▸ he, hgood⟩
  constructor
  · intro he
    obtain ⟨hmem, hpos⟩ := hlast he
    exact ⟨_, mem_of_lastIndexEntry hmem, hpos, fun k hk => hkept.beyond k (by omega)⟩
  · rintro ⟨n, he, hpos, hnone⟩
    obtain ⟨-, -, b, hb, -⟩ := h.stored n e he hpos
    have hn : n < ((d.lastIndexEntry B C).2).blockNumToPos.length := by
      by_contra hge
      rw [hkept.beyond n (not_lt.mp hge)] at hb
      cases hb
    have hne : (d.lastIndexEntry B C).1 ≠ none := mt List.getLast?_eq_none_iff.mp (List.ne_nil_of_length_pos (Nat.zero_lt_of_lt hn))
    obtain ⟨e', he'⟩ := Option.ne_none_iff_exists'.mp hne
    obtain ⟨hmem, hpos'⟩ := hlast he'
    obtain ⟨-, -, b', hb', -⟩ := h.stored _ e' (mem_of_lastIndexEntry hmem) hpos'
    rcases (Nat.le_sub_one_of_lt hn).eq_or_lt with heq | hlt
    · rw [← heq] at hmem
      obtain rfl := Option.some.inj ((mem_of_lastIndexEntry hmem).symm.trans he)
      exact he'
    · rw [hnone _ hlt] at hb'
      cases hb'

/-- A store whose index is clean agrees with its map. -/
theorem Holds.agrees (h : d.Holds B C m) (hclean : d.Clean B C) : d.Agrees B C m := by
  obtain ⟨hkept, hclean'⟩ := h.cut hclean
  have hafter := hkept.answers hclean'
  refine ⟨h.answers hclean, fun b => ?_, fun id => ?_, hafter⟩
  · show (d.lastIndexEntry B C).1.bind _ = some b ↔ _
    rw [Option.bind_eq_some_iff]
    constructor
    · rintro ⟨e, he, hb⟩
      obtain ⟨n, hmem, hpos, hnone⟩ := (h.lastIndexEntry hclean).mp he
      obtain ⟨id, hid⟩ := (hafter.fetchByNumber _ _).mp hb
      rw [(h.stored n e hmem hpos).1] at hid
      exact ⟨n, id, hid, hnone⟩
    · rintro ⟨n, id, hb, hnone⟩
      obtain ⟨e, he, hpos, rfl, -⟩ := h.mem_iff.mp hb
      refine ⟨e, (h.lastIndexEntry hclean).mpr ⟨n, he, hpos, hnone⟩, (hafter.fetchByNumber _ _).mpr ⟨e.blockId, ?_⟩⟩
      rw [(h.stored n e he hpos).1]
      exact hb
  · show (d.lastIndexEntry B C).1.map _ = some id ↔ _
    rw [Option.map_eq_some_iff]
    constructor
    · rintro ⟨e, he, rfl⟩
      obtain ⟨n, hmem, hpos, hnone⟩ := (h.lastIndexEntry hclean).mp he
      obtain ⟨-, -, b, hb, -⟩ := h.stored n e hmem hpos
      exact ⟨n, b, hb, hnone⟩
    · rintro ⟨n, b, hb, hnone⟩
      obtain ⟨e, he, hpos, hid, -⟩ := h.mem_iff.mp hb
      exact ⟨e, (h.lastIndexEntry hclean).mpr ⟨n, he, hpos, hnone⟩, hid⟩

end

end BlockDatabase

section

/-- Blocks of one byte, each of which has the next one as its number -/
def Sample.blocks : Blocks UInt8 Nat where
  id b := b.toNat + 1
  previous b := b.toNat
  zero := 0
  numFromId := id
  numFromId_zero := rfl
  numFromId_id _ := rfl
  id_injective _ _ h := UInt8.toNat_inj.mp (Nat.succ.inj h)

def Sample.codec : Codec UInt8 where
  pack b := [b]
  unpack
    | [b] => some b
    | _ => none
  unpack_pack _ := rfl
  unpack_nil := rfl
  length_pack _ := by simp

end

end Khc.Block
