import Khc.History.AccountHistory
import Mathlib.Data.List.Nodup
import Mathlib.Data.List.Range

/-! What the plugin has stored after the operations of a run: of each account the last entries, linked and numbered, and the operations that
    they refer to. -/

namespace Khc.History

open Lib

variable {Op : Type} {o : Options} {d : Database Op} {rec : Nat → List (Nat × Op)} {a b s id : Nat} {op : Op} {e f g : Entry}
  {key : Entry → Nat} {l m : List Entry} {cur : Option Nat}

/-! ### The indexes by account and number -/

theorem Entry.le_iff : e.le key f ↔ e.account < f.account ∨ e.account = f.account ∧ key e ≤ key f := decide_eq_true_iff

theorem Entry.before_iff : e.before key a s ↔ e.account < a ∨ e.account = a ∧ key e < s := decide_eq_true_iff

theorem Entry.before_of_le (h : e.le key f) (hf : f.before key a s) : e.before key a s := by
  rw [Entry.le_iff] at h
  rw [Entry.before_iff] at hf ⊢
  omega

theorem Entry.le_trans (key : Entry → Nat) (e f g : Entry) (hef : e.le key f) (hfg : f.le key g) : e.le key g := by
  rw [Entry.le_iff] at *
  omega

theorem Entry.le_total (key : Entry → Nat) (e f : Entry) : (e.le key f || f.le key e) = true := by
  rw [Bool.or_eq_true, Entry.le_iff, Entry.le_iff]
  omega

namespace Database

/-- The entries of an account -/
def entriesOf (d : Database Op) (account : Nat) : List Entry := d.entries.filter (·.account = account)

theorem mem_entriesOf : e ∈ d.entriesOf a ↔ e ∈ d.entries ∧ e.account = a := by
  rw [entriesOf, List.mem_filter, decide_eq_true_eq]

theorem orderedBy_pairwise (d : Database Op) (key : Entry → Nat) : (d.orderedBy key).Pairwise fun e f => e.le key f :=
  List.pairwise_mergeSort (Entry.le_trans key) (Entry.le_total key) d.entries

theorem filter_orderedBy (h : (d.entriesOf a).Pairwise fun e f => key e < key f) : (d.orderedBy key).filter (·.account = a) = d.entriesOf a := by
  refine filter_mergeSort (Entry.le_trans key) (Entry.le_total key) ?_
  refine List.Pairwise.imp_of_mem (fun {e f} he hf hlt => ?_) h
  exact Entry.le_iff.mpr (.inr ⟨(mem_entriesOf.mp he).2.trans (mem_entriesOf.mp hf).2.symm, hlt.le⟩)

/-- From a place in an index on there are the later entries of the account, and then those of other accounts. -/
theorem dropWhile_orderedBy (h : (d.entriesOf a).Pairwise fun e f => key e < key f) :
    ∃ later, (d.orderedBy key).dropWhile (Entry.before key a s) = (d.entriesOf a).filter (s ≤ key ·) ++ later ∧ ∀ e ∈ later, e.account ≠ a := by
  have hdrop := dropWhile_eq_filter (p := Entry.before key a s) ((d.orderedBy_pairwise key).imp fun hle => Entry.before_of_le hle)
  have hsplit := filter_append_filter_not (p := fun e : Entry => decide (e.account ≤ a)) (l := (d.orderedBy key).filter fun e => !e.before key a s)
    (((d.orderedBy_pairwise key).imp fun {e f} hle hf => by
      rw [Entry.le_iff] at hle
      simp only [decide_eq_true_eq] at hf ⊢
      omega).filter _)
  refine ⟨_, hdrop.trans (hsplit.symm.trans (congrArg (· ++ _) ?_)), fun e he => ?_⟩
  · rw [← filter_orderedBy h, List.filter_filter, List.filter_filter]
    refine List.filter_congr fun e _ => ?_
    rw [Bool.eq_iff_iff]
    simp only [Bool.and_eq_true, decide_eq_true_eq, Bool.not_eq_true', ← Bool.not_eq_true, Entry.before_iff]
    omega
  · have hgt := (List.mem_filter.mp he).2
    simp only [Bool.not_eq_true', decide_eq_false_iff_not] at hgt
    omega

/-- Before it there are those of the accounts before it, and then the earlier ones of the account. -/
theorem takeWhile_orderedBy (h : (d.entriesOf a).Pairwise fun e f => key e < key f) :
    (d.orderedBy key).takeWhile (Entry.before key a s) =
      (d.orderedBy key).filter (·.account < a) ++ (d.entriesOf a).filter (key · < s) := by
  have htake := takeWhile_eq_filter (p := Entry.before key a s) ((d.orderedBy_pairwise key).imp fun hle => Entry.before_of_le hle)
  have hsplit := filter_append_filter_not (p := fun e : Entry => decide (e.account < a)) (l := (d.orderedBy key).filter (Entry.before key a s))
    (((d.orderedBy_pairwise key).imp fun {e f} hle hf => by
      rw [Entry.le_iff] at hle
      simp only [decide_eq_true_eq] at hf ⊢
      omega).filter _)
  refine htake.trans (hsplit.symm.trans ?_)
  rw [← filter_orderedBy h, List.filter_filter, List.filter_filter, List.filter_filter]
  congr 1
  · refine List.filter_congr fun e _ => ?_
    rw [Bool.eq_iff_iff]
    simp only [Bool.and_eq_true, decide_eq_true_eq, Entry.before_iff]
    omega
  · refine List.filter_congr fun e _ => ?_
    rw [Bool.eq_iff_iff]
    simp only [Bool.and_eq_true, decide_eq_true_eq, Bool.not_eq_true', decide_eq_false_iff_not, Entry.before_iff]
    omega

end Database

/-! ### The invariant -/

/-- The database of a plugin that has recorded these operations of each account and has removed the entries of so many of them. The current
    operation may be stored before it has any entry. -/
structure Holds (partly : Bool) (rec : Nat → List (Nat × Op)) (removed : Nat → Nat) (cur : Option Nat) (d : Database Op) : Prop where
  sequences : ∀ a, (d.entriesOf a).map (·.sequence) = (List.range' 1 (rec a).length).drop (removed a)
  operationIds : ∀ a, (d.entriesOf a).map (·.operationId) = ((rec a).drop (removed a)).map (·.1)
  /-- Each entry is linked to the one before it that is still there. -/
  links : ∀ a, (d.entriesOf a).map (·.next) = (0 :: (d.entriesOf a).map (·.id)).take (d.entriesOf a).length
  statistics : ∀ a, d.statistics a = ⟨((d.entriesOf a).map (·.id)).getLast?.getD 0, (rec a).length, removed a⟩
  removed_le : ∀ a, removed a ≤ (rec a).length
  increasing : ∀ a, (rec a).Pairwise fun x y => x.1 < y.1
  recorded_lt : ∀ a, ∀ x ∈ rec a, x.1 < d.nextOperation
  ids : d.entries.Pairwise fun e f => e.id < f.id
  ids_lt : ∀ e ∈ d.entries, e.id < d.nextEntry
  operations : d.operations.Pairwise fun x y => x.1 < y.1
  operations_lt : ∀ x ∈ d.operations, x.1 < d.nextOperation
  /-- What an entry refers to is there, and if only some operations are kept then nothing else. -/
  stored : ∀ a, ∀ x ∈ (rec a).drop (removed a), x ∈ d.operations
  referenced : partly → ∀ x ∈ d.operations, some x.1 = cur ∨ ∃ e ∈ d.entries, e.operationId = x.1

namespace Holds
variable {partly : Bool} {removed : Nat → Nat}

theorem sequences_pairwise (h : Holds partly rec removed cur d) (a : Nat) : (d.entriesOf a).Pairwise fun e f => e.sequence < f.sequence := by
  have hrange : ((d.entriesOf a).map (·.sequence)).Pairwise (· < ·) := by
    rw [h.sequences]
    exact (List.pairwise_lt_range' ..).drop
  exact List.pairwise_map.mp hrange

theorem length_entriesOf (h : Holds partly rec removed cur d) (a : Nat) : (d.entriesOf a).length = (rec a).length - removed a := by
  have hlength := congrArg List.length (h.sequences a)
  rwa [List.length_map, List.length_drop, List.length_range'] at hlength

end Holds

namespace Database
variable {partly : Bool} {removed : Nat → Nat}

theorem entriesOf_addEntry (d : Database Op) (a opId b : Nat) : (d.addEntry a opId).entriesOf b =
    d.entriesOf b ++ if a = b then [⟨d.nextEntry, a, opId, (d.statistics a).totalOps + 1, (d.statistics a).mostRecentOp⟩] else [] := by
  unfold entriesOf addEntry
  rw [List.filter_append]
  split
  · next h => rw [List.filter_cons_of_pos (by simpa using h), List.filter_nil]
  · next h => rw [List.filter_cons_of_neg (by simpa using h), List.filter_nil]

end Database

namespace Holds
variable {partly : Bool} {removed : Nat → Nat}

/-- Links to the ones before, with the last one of them -/
theorem take_links (l : List Nat) (i : Nat) : (0 :: (l ++ [i])).take (l.length + 1) = (0 :: l).take l.length ++ [l.getLast?.getD 0] := by
  rcases List.eq_nil_or_concat l with rfl | ⟨l, j, rfl⟩
  · rfl
  · rw [List.concat_eq_append, List.getLast?_concat, Option.getD_some, ← List.cons_append, ← List.cons_append, List.length_append,
      List.take_left' (by simp), List.take_left' (by simp), List.cons_append]

theorem addEntry (h : Holds partly rec removed (some id) d) (hop : (id, op) ∈ d.operations) (hlt : ∀ x ∈ rec a, x.1 < id) :
    Holds partly (Function.update rec a (rec a ++ [(id, op)])) removed (some id) (d.addEntry a id) := by
  have hlength := h.length_entriesOf a
  have hremoved := h.removed_le a
  have hstatistics := h.statistics a
  have hother : ∀ b, b ≠ a → (d.addEntry a id).entriesOf b = d.entriesOf b := fun b hb => by
    rw [Database.entriesOf_addEntry, if_neg hb.symm, List.append_nil]
  have hown : (d.addEntry a id).entriesOf a = d.entriesOf a ++ [⟨d.nextEntry, a, id, (rec a).length + 1, (d.statistics a).mostRecentOp⟩] := by
    rw [Database.entriesOf_addEntry, if_pos rfl, hstatistics]
  refine ⟨fun b => ?_, fun b => ?_, fun b => ?_, fun b => ?_, fun b => ?_, fun b => ?_, fun b x hx => ?_, ?_, fun e he => ?_, h.operations,
    h.operations_lt, fun b x hx => ?_, fun hpartly x hx => ?_⟩
  · rcases eq_or_ne b a with rfl | hb
    · rw [hown, Function.update_self, List.map_append, h.sequences, List.length_append, List.length_singleton, List.range'_1_concat,
        List.drop_append_of_le_length (by rwa [List.length_range']), List.map_singleton, Nat.add_comm 1]
    · rw [hother b hb, Function.update_of_ne hb, h.sequences]
  · rcases eq_or_ne b a with rfl | hb
    · rw [hown, Function.update_self, List.map_append, h.operationIds, List.drop_append_of_le_length hremoved, List.map_append]
      rfl
    · rw [hother b hb, Function.update_of_ne hb, h.operationIds]
  · rcases eq_or_ne b a with rfl | hb
    · have hids := take_links ((d.entriesOf b).map (·.id)) d.nextEntry
      rw [List.length_map] at hids
      rw [hown, List.map_append, h.links, List.map_append, List.length_append, List.length_singleton, hstatistics]
      exact hids.symm
    · rw [hother b hb, h.links]
  · rcases eq_or_ne b a with rfl | hb
    · rw [hown, Function.update_self, List.map_append, List.map_singleton, List.getLast?_concat, List.length_append]
      have hnew : (d.addEntry b id).statistics b = { d.statistics b with mostRecentOp := d.nextEntry, totalOps := (d.statistics b).totalOps + 1 } :=
        Function.update_self _ _ _
      rw [hnew, hstatistics]
      rfl
    · rw [hother b hb, Function.update_of_ne hb, ← h.statistics]
      exact Function.update_of_ne hb _ _
  · rcases eq_or_ne b a with rfl | hb
    · rw [Function.update_self, List.length_append]
      exact hremoved.trans (Nat.le_add_right _ _)
    · rw [Function.update_of_ne hb]
      exact h.removed_le b
  · rcases eq_or_ne b a with rfl | hb
    · rw [Function.update_self, List.pairwise_append]
      refine ⟨h.increasing b, List.pairwise_singleton _ _, fun x hx y hy => ?_⟩
      rw [List.mem_singleton.mp hy]
      exact hlt x hx
    · rw [Function.update_of_ne hb]
      exact h.increasing b
  · rcases eq_or_ne b a with rfl | hb
    · rw [Function.update_self] at hx
      rcases List.mem_append.mp hx with hx | hx
      · exact h.recorded_lt b x hx
      · rw [List.mem_singleton.mp hx]
        exact h.operations_lt _ hop
    · rw [Function.update_of_ne hb] at hx
      exact h.recorded_lt b x hx
  · refine List.pairwise_append.mpr ⟨h.ids, List.pairwise_singleton _ _, fun e he f hf => ?_⟩
    rw [List.mem_singleton.mp hf]
    exact h.ids_lt e he
  · rcases List.mem_append.mp he with he | he
    · exact (h.ids_lt e he).trans (Nat.lt_succ_self _)
    · rw [List.mem_singleton.mp he]
      exact Nat.lt_succ_self _
  · rcases eq_or_ne b a with rfl | hb
    · rw [Function.update_self, List.drop_append_of_le_length hremoved] at hx
      rcases List.mem_append.mp hx with hx | hx
      · exact h.stored b x hx
      · rw [List.mem_singleton.mp hx]
        exact hop
    · rw [Function.update_of_ne hb] at hx
      exact h.stored b x hx
  · rcases h.referenced hpartly x hx with hcur | ⟨e, he, hid⟩
    · exact .inl hcur
    · exact .inr ⟨e, List.mem_append_left _ he, hid⟩

/-- The entry before is removed from the list of the account, and nothing else changes. -/
theorem entriesOf_removeEntry (h : Holds partly rec removed cur d) {itr t : Entry} {ts later : List Entry} (hentries : d.entriesOf a = itr :: t :: ts)
    (b : Nat) : (d.removeEntry a itr (t :: later)).entriesOf b = if b = a then { t with next := 0 } :: ts else d.entriesOf b := by
  have hitr : itr ∈ d.entries ∧ itr.account = a := Database.mem_entriesOf.mp (hentries ▸ List.mem_cons_self)
  have ht : t ∈ d.entries ∧ t.account = a := Database.mem_entriesOf.mp (hentries ▸ List.mem_cons_of_mem _ List.mem_cons_self)
  have hids : ∀ e ∈ d.entries, ∀ f ∈ d.entries, e.id = f.id → e = f := fun e he f hf heq =>
    List.inj_on_of_nodup_map (List.pairwise_map.mpr (h.ids.imp fun hlt => hlt.ne)) he hf heq
  have hcomm : (d.removeEntry a itr (t :: later)).entriesOf b =
      ((d.entriesOf b).filter (·.id ≠ itr.id)).map fun f => if f.id = t.id then { f with next := 0 } else f := by
    unfold Database.entriesOf Database.removeEntry
    dsimp only
    rw [if_pos ht.2, List.filter_map, List.filter_filter, List.filter_filter]
    refine congrArg (List.map _) (List.filter_congr fun e _ => ?_)
    have haccount : (if e.id = t.id then { e with next := 0 } else e).account = e.account := by split <;> rfl
    rw [Function.comp_apply, haccount, Bool.and_comm]
  rw [hcomm]
  split
  · next hb =>
    subst hb
    have hpair := h.ids.filter (·.account = b)
    change (d.entriesOf b).Pairwise _ at hpair
    rw [hentries] at hpair ⊢
    obtain ⟨hfirst, hpair⟩ := List.pairwise_cons.mp hpair
    obtain ⟨hsecond, -⟩ := List.pairwise_cons.mp hpair
    have hkept : (t :: ts).filter (fun e => decide (e.id ≠ itr.id)) = t :: ts :=
      List.filter_eq_self.mpr fun e he => decide_eq_true (hfirst e he).ne'
    rw [List.filter_cons_of_neg (by simp), hkept, List.map_cons, if_pos rfl]
    refine congrArg (_ :: ·) ((List.map_congr_left fun e he => if_neg (hsecond e he).ne').trans (List.map_id' ts))
  · next hb =>
    have hkept : (d.entriesOf b).filter (fun e => decide (e.id ≠ itr.id)) = d.entriesOf b := by
      refine List.filter_eq_self.mpr fun e he => decide_eq_true fun heq => hb ?_
      obtain ⟨hmem, haccount⟩ := Database.mem_entriesOf.mp he
      rw [← haccount, hids e hmem itr hitr.1 heq, hitr.2]
    rw [hkept]
    refine (List.map_congr_left fun e he => if_neg fun heq => hb ?_).trans (List.map_id' _)
    obtain ⟨hmem, haccount⟩ := Database.mem_entriesOf.mp he
    rw [← haccount, hids e hmem t ht.1 heq, ht.2]

theorem removeEntry (h : Holds partly rec removed cur d) {itr t : Entry} {ts : List Entry} (later : List Entry)
    (hentries : d.entriesOf a = itr :: t :: ts) :
    Holds false rec (Function.update removed a (removed a + 1)) cur (d.removeEntry a itr (t :: later)) ∧
      ∀ e ∈ d.entries, e.operationId = itr.operationId ∨
        ∃ f ∈ (d.removeEntry a itr (t :: later)).entries, f.operationId = e.operationId := by
  have hafter : ∀ b, (d.removeEntry a itr (t :: later)).entriesOf b = if b = a then { t with next := 0 } :: ts else d.entriesOf b :=
    h.entriesOf_removeEntry hentries
  have hitr : itr ∈ d.entries := (Database.mem_entriesOf.mp (hentries ▸ List.mem_cons_self)).1
  have ht : t.account = a := (Database.mem_entriesOf.mp (hentries ▸ List.mem_cons_of_mem _ List.mem_cons_self)).2
  have hmapped : (d.removeEntry a itr (t :: later)).entries =
      (d.entries.filter (·.id ≠ itr.id)).map fun f => if f.id = t.id then { f with next := 0 } else f := if_pos ht
  have hid : ∀ f : Entry, (if f.id = t.id then { f with next := 0 } else f).id = f.id := fun f => by split <;> rfl
  have hoperation : ∀ f : Entry, (if f.id = t.id then { f with next := 0 } else f).operationId = f.operationId := fun f => by split <;> rfl
  have hsequences := h.sequences a
  have hoperationIds := h.operationIds a
  have hlinks := h.links a
  have hlength := h.length_entriesOf a
  rw [hentries] at hsequences hoperationIds hlinks hlength
  refine ⟨⟨fun b => ?_, fun b => ?_, fun b => ?_, fun b => ?_, fun b => ?_, h.increasing, h.recorded_lt, ?_, fun e he => ?_, h.operations,
    h.operations_lt, fun b x hx => ?_, fun hfalse => absurd hfalse Bool.false_ne_true⟩, fun e he => ?_⟩
  · rw [hafter]
    split
    · next hb =>
      rw [hb, Function.update_self, ← List.tail_drop, ← hsequences]
      rfl
    · next hb => rw [Function.update_of_ne hb, h.sequences]
  · rw [hafter]
    split
    · next hb =>
      rw [hb, Function.update_self, ← List.tail_drop, List.map_tail, ← hoperationIds]
      rfl
    · next hb => rw [Function.update_of_ne hb, h.operationIds]
  · rw [hafter]
    split
    · simp only [List.map_cons, List.length_cons, List.take_succ_cons, List.cons.injEq] at hlinks ⊢
      exact ⟨trivial, hlinks.2.2⟩
    · exact h.links b
  · rw [hafter]
    have hstatistics := h.statistics b
    split
    · next hb =>
      subst hb
      have hnew : (d.removeEntry b itr (t :: later)).statistics b = { d.statistics b with removedOps := (d.statistics b).removedOps + 1 } :=
        Function.update_self _ _ _
      rw [hnew, Function.update_self, hstatistics, hentries]
      rfl
    · next hb =>
      rw [Function.update_of_ne hb, ← hstatistics]
      exact Function.update_of_ne hb _ _
  · rcases eq_or_ne b a with rfl | hb
    · rw [Function.update_self]
      simp only [List.length_cons] at hlength
      omega
    · rw [Function.update_of_ne hb]
      exact h.removed_le b
  · rw [hmapped, List.pairwise_map]
    exact (h.ids.filter _).imp fun {e f} hlt => by rwa [hid, hid]
  · rw [hmapped] at he
    obtain ⟨f, hf, rfl⟩ := List.mem_map.mp he
    rw [hid]
    exact h.ids_lt f (List.mem_filter.mp hf).1
  · rcases eq_or_ne b a with rfl | hb
    · rw [Function.update_self, ← List.tail_drop] at hx
      exact h.stored b x (List.mem_of_mem_tail hx)
    · rw [Function.update_of_ne hb] at hx
      exact h.stored b x hx
  · by_cases heq : e.id = itr.id
    · rw [List.inj_on_of_nodup_map (List.pairwise_map.mpr (h.ids.imp fun hlt => hlt.ne)) he hitr heq]
      exact .inl rfl
    · refine .inr ⟨_, ?_, hoperation e⟩
      rw [hmapped]
      exact List.mem_map_of_mem (List.mem_filter.mpr ⟨he, decide_eq_true heq⟩)

/-- An operation without an entry is no one's. -/
theorem removeOperation (h : Holds false rec removed cur d) {i : Nat}
    (href : ∀ x ∈ d.operations, x.1 = i ∨ some x.1 = cur ∨ ∃ e ∈ d.entries, e.operationId = x.1) :
    Holds true rec removed cur (d.removeOperation i) := by
  unfold Database.removeOperation
  split
  · next hany =>
    obtain ⟨e, he, hid⟩ := List.any_eq_true.mp hany
    refine { h with referenced := fun _ x hx => ?_ }
    rcases href x hx with rfl | hx
    · exact .inr ⟨e, he, of_decide_eq_true hid⟩
    · exact hx
  · next hany =>
    refine { h with
      operations := h.operations.filter _
      operations_lt := fun x hx => h.operations_lt x (List.mem_filter.mp hx).1
      stored := fun a x hx => List.mem_filter.mpr ⟨h.stored a x hx, decide_eq_true ?_⟩
      referenced := fun _ x hx => ?_ }
    · rintro rfl
      have hmem : x.1 ∈ ((rec a).drop (removed a)).map (·.1) := List.mem_map_of_mem hx
      rw [← h.operationIds] at hmem
      obtain ⟨e, he, hid⟩ := List.mem_map.mp hmem
      exact hany (List.any_eq_true.mpr ⟨e, (Database.mem_entriesOf.mp he).1, decide_eq_true hid⟩)
    · obtain ⟨hx, hne⟩ := List.mem_filter.mp hx
      exact (href x hx).resolve_left (of_decide_eq_true hne)

/-- What is recorded when an operation is linked to an account -/
theorem addAccountHistory (h : Holds o.partialOperations rec (fun a => (rec a).length - o.maxOpsPerAccount) (some id) d)
    (hmax : 0 < o.maxOpsPerAccount) (hop : (id, op) ∈ d.operations) (hlt : ∀ x ∈ rec a, x.1 < id) :
    Holds o.partialOperations (Function.update rec a (rec a ++ [(id, op)]))
      (fun b => (Function.update rec a (rec a ++ [(id, op)]) b).length - o.maxOpsPerAccount) (some id) (d.addAccountHistory o a id) := by
  have hadded := h.addEntry hop hlt
  have hstatistics := hadded.statistics a
  have hlength := hadded.length_entriesOf a
  rw [Function.update_self, List.length_append, List.length_singleton] at hstatistics hlength
  unfold Database.addAccountHistory
  dsimp only
  rw [hstatistics]
  dsimp only
  split
  · next hmany =>
    have hfull : (fun b => (Function.update rec a (rec a ++ [(id, op)]) b).length - o.maxOpsPerAccount) =
        Function.update (fun a => (rec a).length - o.maxOpsPerAccount) a ((rec a).length - o.maxOpsPerAccount + 1) := by
      funext b
      rcases eq_or_ne b a with rfl | hb
      · rw [Function.update_self, Function.update_self, List.length_append, List.length_singleton]
        omega
      · rw [Function.update_of_ne hb, Function.update_of_ne hb]
    rw [hfull]
    obtain ⟨itr, t, ts, hentries⟩ : ∃ itr t ts, (d.addEntry a id).entriesOf a = itr :: t :: ts := by
      rcases hlist : (d.addEntry a id).entriesOf a with _ | ⟨itr, _ | ⟨t, ts⟩⟩
      · rw [hlist, List.length_nil] at hlength
        omega
      · rw [hlist, List.length_singleton] at hlength
        omega
      · exact ⟨itr, t, ts, rfl⟩
    obtain ⟨later, hlater, -⟩ := Database.dropWhile_orderedBy (s := 0) (hadded.sequences_pairwise a)
    have hall : ((d.addEntry a id).entriesOf a).filter (fun e => decide (0 ≤ e.sequence)) = itr :: t :: ts := by
      rw [hentries]
      exact List.filter_eq_self.mpr fun e _ => decide_eq_true (Nat.zero_le _)
    rw [Database.bySeq, hlater, hall]
    obtain ⟨hitr, haccount⟩ := Database.mem_entriesOf.mp (hentries ▸ List.mem_cons_self : itr ∈ (d.addEntry a id).entriesOf a)
    -- The one that is removed is not the one that has just been added.
    have hne : itr.id ≠ d.nextEntry := by
      have hpair := hadded.ids.filter (·.account = a)
      change ((d.addEntry a id).entriesOf a).Pairwise _ at hpair
      rw [hentries] at hpair
      have hbefore := (List.pairwise_cons.mp hpair).1 t List.mem_cons_self
      have hlast := hadded.ids_lt t (Database.mem_entriesOf.mp (hentries ▸ List.mem_cons_of_mem _ List.mem_cons_self)).1
      exact (hbefore.trans_le (Nat.lt_succ_iff.mp hlast)).ne
    dsimp only [List.cons_append]
    rw [if_pos ⟨haccount, hne⟩]
    obtain ⟨hremoved, href⟩ := hadded.removeEntry (ts ++ later) hentries
    split
    · next hpartly =>
      rw [hpartly]
      refine hremoved.removeOperation fun x hx => ?_
      rcases hadded.referenced hpartly x hx with hcur | ⟨e, he, hid⟩
      · exact .inr (.inl hcur)
      · rcases href e he with heq | ⟨f, hf, heq⟩
        · exact .inl (hid.symm.trans heq)
        · exact .inr (.inr ⟨f, hf, heq.trans hid⟩)
    · next hpartly =>
      rw [Bool.not_eq_true] at hpartly
      rw [hpartly]
      exact hremoved
  · next hfew =>
    have hsame : (fun b => (Function.update rec a (rec a ++ [(id, op)]) b).length - o.maxOpsPerAccount) =
        fun a => (rec a).length - o.maxOpsPerAccount := by
      funext b
      rcases eq_or_ne b a with rfl | hb
      · rw [Function.update_self, List.length_append, List.length_singleton]
        omega
      · rw [Function.update_of_ne hb]
    rw [hsame]
    exact hadded

/-! ### An operation -/

/-- The operation is recorded for these accounts. -/
def push (accounts : List Nat) (id : Nat) (op : Op) (rec : Nat → List (Nat × Op)) (a : Nat) : List (Nat × Op) :=
  if a ∈ accounts then rec a ++ [(id, op)] else rec a

theorem addAll {accounts : List Nat} (h : Holds o.partialOperations rec (fun a => (rec a).length - o.maxOpsPerAccount) (some id) d)
    (hmax : 0 < o.maxOpsPerAccount) (hop : (id, op) ∈ d.operations) (hnodup : accounts.Nodup) (hlt : ∀ a ∈ accounts, ∀ x ∈ rec a, x.1 < id) :
    (d.addAll o op (some id) accounts).1 = some id ∧ Holds o.partialOperations (push accounts id op rec)
      (fun a => (push accounts id op rec a).length - o.maxOpsPerAccount) (some id) (d.addAll o op (some id) accounts).2 := by
  induction accounts generalizing d rec with
  | nil => exact ⟨rfl, h⟩
  | cons a accounts ih =>
    obtain ⟨ha, hnodup⟩ := List.nodup_cons.mp hnodup
    obtain ⟨hfirst, hrest⟩ := List.forall_mem_cons.mp hlt
    have hpush : push accounts id op (Function.update rec a (rec a ++ [(id, op)])) = push (a :: accounts) id op rec := by
      funext b
      unfold push
      rcases eq_or_ne b a with rfl | hb
      · rw [if_neg ha, Function.update_self, if_pos List.mem_cons_self]
      · rw [Function.update_of_ne hb]
        simp [hb]
    have hadded := h.addAccountHistory hmax hop hfirst
    have hstill : (id, op) ∈ (d.addAccountHistory o a id).operations := by
      refine hadded.stored a (id, op) ?_
      rw [Function.update_self, List.length_append, List.length_singleton, List.drop_append_of_le_length (by omega)]
      exact List.mem_append_right _ List.mem_cons_self
    rw [← hpush, Database.addAll]
    refine ih hadded hstill hnodup fun b hb x hx => hrest b hb x ?_
    rwa [Function.update_of_ne (ne_of_mem_of_not_mem hb ha)] at hx

theorem skipOperation (h : Holds partly rec removed none d) : Holds partly rec removed none d.skipOperation :=
  { h with
    recorded_lt := fun a x hx => (h.recorded_lt a x hx).trans (Nat.lt_succ_self _)
    operations_lt := fun x hx => (h.operations_lt x hx).trans (Nat.lt_succ_self _) }

theorem createOperation (h : Holds partly rec removed none d) (op : Op) :
    Holds partly rec removed (some d.nextOperation) (d.createOperation op) := by
  refine { h with
    recorded_lt := fun a x hx => (h.recorded_lt a x hx).trans (Nat.lt_succ_self _)
    operations := List.pairwise_append.mpr ⟨h.operations, List.pairwise_singleton _ _, fun x hx y hy => ?_⟩
    operations_lt := fun x hx => ?_
    stored := fun a x hx => List.mem_append_left _ (h.stored a x hx)
    referenced := fun hpartly x hx => ?_ }
  · rw [List.mem_singleton.mp hy]
    exact h.operations_lt x hx
  · rcases List.mem_append.mp hx with hx | hx
    · exact (h.operations_lt x hx).trans (Nat.lt_succ_self _)
    · rw [List.mem_singleton.mp hx]
      exact Nat.lt_succ_self _
  · rcases List.mem_append.mp hx with hx | hx
    · exact .inr ((h.referenced hpartly x hx).resolve_left (Option.some_ne_none _))
    · rw [List.mem_singleton.mp hx]
      exact .inl rfl

/-- An operation that some account has as its last one has an entry. -/
theorem finish (h : Holds o.partialOperations rec (fun a => (rec a).length - o.maxOpsPerAccount) (some id) d)
    (hlast : o.partialOperations → ∃ a x, (rec a).getLast? = some x ∧ x.1 = id ∧ 0 < o.maxOpsPerAccount) :
    Holds o.partialOperations rec (fun a => (rec a).length - o.maxOpsPerAccount) none d := by
  refine { h with referenced := fun hpartly x hx => .inr ?_ }
  rcases h.referenced hpartly x hx with hcur | hentry
  · obtain ⟨a, y, hend, rfl, hmax⟩ := hlast hpartly
    obtain ⟨front, hfront⟩ := List.getLast?_eq_some_iff.mp hend
    have hmem : y.1 ∈ (d.entriesOf a).map (·.operationId) := by
      rw [h.operationIds, hfront, List.length_append, List.length_singleton, List.drop_append_of_le_length (by omega), List.map_append]
      exact List.mem_append_right _ List.mem_cons_self
    obtain ⟨e, he, hid⟩ := List.mem_map.mp hmem
    exact ⟨e, (Database.mem_entriesOf.mp he).1, hid.trans (Option.some.inj hcur).symm⟩
  · exact hentry

end Holds

/-- The accounts to which an operation is linked -/
def targets (o : Options) (impacted : List Nat) : List Nat :=
  if o.maxOpsPerAccount = 0 then []
  else if o.trackedAccounts = [] then impacted
  else o.trackedAccounts.filter (· ∈ impacted)

theorem nodup_targets (a : Applied Op) : (targets o a.impacted).Nodup := by
  unfold targets
  split
  · exact .nil
  · split
    · exact a.nodup
    · exact o.nodup.filter _

theorem addAll_some (op : Op) (id : Nat) (accounts : List Nat) (d : Database Op) : (d.addAll o op (some id) accounts).1 = some id := by
  induction accounts generalizing d with
  | nil => rfl
  | cons a accounts ih => exact ih _

theorem addAll_none (op : Op) {accounts : List Nat} (h : accounts ≠ []) (d : Database Op) :
    d.addAll o op none accounts = (d.createOperation op).addAll o op (some d.nextOperation) accounts := by
  cases accounts with
  | nil => exact absurd rfl h
  | cons a accounts => rfl

/-- An operation is stored once, before its first entry; if only some are kept, then only with an entry. -/
theorem applyOperation_eq (x : Applied Op) : d.applyOperation o (some x) =
    if o.partialOperations ∧ targets o x.impacted = [] then d.skipOperation
    else ((d.createOperation x.op).addAll o x.op (some d.nextOperation) (targets o x.impacted)).2 := by
  unfold Database.applyOperation targets
  dsimp only
  rcases Nat.eq_zero_or_pos o.maxOpsPerAccount with hmax | hmax
  · rw [if_pos hmax]
    cases hpartly : o.partialOperations with
    | true => simp [hmax]
    | false => simp [hmax, Database.addAll]
  · rw [if_neg hmax.ne', if_neg fun h => hmax.ne' h.1]
    cases hpartly : o.partialOperations with
    | true =>
      by_cases htracked : o.trackedAccounts = []
      · by_cases himpacted : x.impacted = []
        · simp [htracked, himpacted, hmax, Database.addAll]
        · simp [htracked, himpacted, hmax, addAll_some]
      · by_cases hfilter : o.trackedAccounts.filter (· ∈ x.impacted) = []
        · simp only [htracked, hfilter, hmax, Database.addAll]
          simp
        · simp only [htracked, hmax, hfilter, if_true, if_false, and_false, addAll_none x.op hfilter, addAll_some]
          simp
    | false =>
      by_cases htracked : o.trackedAccounts = []
      · simp [htracked, hmax]
      · simp [htracked, hmax]

/-! ### Runs -/

/-- The operations that are linked to an account, with their places among all operations -/
def recorded (o : Options) (a : Nat) (hist : List (Option (Applied Op))) : List (Nat × Op) :=
  hist.zipIdx.filterMap fun x => x.1.bind fun y => if a ∈ targets o y.impacted then some (x.2, y.op) else none

theorem recorded_none (o : Options) (a : Nat) (hist : List (Option (Applied Op))) : recorded o a (hist ++ [none]) = recorded o a hist := by
  unfold recorded
  rw [List.zipIdx_append, List.filterMap_append]
  exact List.append_nil _

theorem recorded_some (o : Options) (hist : List (Option (Applied Op))) (y : Applied Op) :
    (fun a => recorded o a (hist ++ [some y])) = Holds.push (targets o y.impacted) hist.length y.op fun a => recorded o a hist := by
  funext a
  unfold recorded Holds.push
  rw [List.zipIdx_append, List.filterMap_append]
  by_cases ha : a ∈ targets o y.impacted <;> simp [ha]

/-- The database after these operations -/
structure Records (o : Options) (hist : List (Option (Applied Op))) (d : Database Op) : Prop where
  holds : Holds o.partialOperations (fun a => recorded o a hist) (fun a => (recorded o a hist).length - o.maxOpsPerAccount) none d
  /-- Whether it is stored or not, each operation has its place as its id. -/
  next : d.nextOperation = hist.length
  origin : ∀ x ∈ d.operations, ∃ y, hist[x.1]? = some (some y) ∧ y.op = x.2
  complete : ¬o.partialOperations → ∀ i y, hist[i]? = some (some y) → (i, y.op) ∈ d.operations

theorem operations_addAccountHistory (o : Options) (a id : Nat) (d : Database Op) :
    (d.addAccountHistory o a id).nextOperation = d.nextOperation ∧ (d.addAccountHistory o a id).operations ⊆ d.operations ∧
      (¬o.partialOperations → (d.addAccountHistory o a id).operations = d.operations) := by
  have hremove : ∀ (d : Database Op) (i : Nat), (d.removeOperation i).nextOperation = d.nextOperation ∧
      (d.removeOperation i).operations ⊆ d.operations := by
    intro d i
    unfold Database.removeOperation
    split
    · exact ⟨rfl, fun _ h => h⟩
    · exact ⟨rfl, fun _ h => (List.mem_filter.mp h).1⟩
  unfold Database.addAccountHistory
  dsimp only
  split
  · split
    · exact ⟨rfl, fun _ h => h, fun _ => rfl⟩
    · split
      · split
        · next hpartly => exact ⟨(hremove _ _).1, (hremove _ _).2, fun h => absurd hpartly h⟩
        · exact ⟨rfl, fun _ h => h, fun _ => rfl⟩
      · exact ⟨rfl, fun _ h => h, fun _ => rfl⟩
  · exact ⟨rfl, fun _ h => h, fun _ => rfl⟩

theorem operations_addAll (o : Options) (op : Op) (id : Nat) (accounts : List Nat) (d : Database Op) :
    (d.addAll o op (some id) accounts).2.nextOperation = d.nextOperation ∧
      (d.addAll o op (some id) accounts).2.operations ⊆ d.operations ∧
      (¬o.partialOperations → (d.addAll o op (some id) accounts).2.operations = d.operations) := by
  induction accounts generalizing d with
  | nil => exact ⟨rfl, fun _ h => h, fun _ => rfl⟩
  | cons a accounts ih =>
    obtain ⟨hnext, hsubset, hsame⟩ := ih (d.addAccountHistory o a id)
    obtain ⟨hnext', hsubset', hsame'⟩ := operations_addAccountHistory o a id d
    exact ⟨hnext.trans hnext', fun _ h => hsubset' (hsubset h), fun h => (hsame h).trans (hsame' h)⟩

theorem Records.apply {hist : List (Option (Applied Op))} (h : Records o hist d) (x : Option (Applied Op)) :
    Records o (hist ++ [x]) (d.applyOperation o x) := by
  have hbefore : ∀ {i : Nat} {y : Option (Applied Op)}, hist[i]? = some y → (hist ++ [x])[i]? = some y := fun {i y} hy => by
    rw [List.getElem?_append_left (List.getElem?_eq_some_iff.mp hy).1, hy]
  have hskip : (∀ a, recorded o a (hist ++ [x]) = recorded o a hist) → (∀ y, x = some y → o.partialOperations) →
      Records o (hist ++ [x]) d.skipOperation := by
    intro hsame hpartly
    refine ⟨?_, ?_, fun z hz => ?_, fun hnot i y hy => ?_⟩
    · simp only [hsame]
      exact h.holds.skipOperation
    · rw [List.length_append, List.length_singleton, ← h.next]
      rfl
    · obtain ⟨y, hy, heq⟩ := h.origin z hz
      exact ⟨y, hbefore hy, heq⟩
    · rcases Nat.lt_or_ge i hist.length with hlt | hge
      · rw [List.getElem?_append_left hlt] at hy
        exact h.complete hnot i y hy
      · rw [List.getElem?_append_right hge, List.getElem?_singleton] at hy
        split at hy
        · exact absurd (hpartly y (Option.some.inj hy)) hnot
        · cases hy
  cases x with
  | none =>
    exact hskip (fun a => recorded_none o a hist) fun y hy => absurd hy (Option.some_ne_none y).symm
  | some y =>
    rw [applyOperation_eq]
    split
    · next hnone =>
      refine hskip (fun a => ?_) fun _ _ => hnone.1
      rw [congrFun (recorded_some o hist y) a, hnone.2]
      rfl
    · next hsome =>
      have hcreated := h.holds.createOperation y.op
      have hop : (d.nextOperation, y.op) ∈ (d.createOperation y.op).operations := List.mem_append_right _ List.mem_cons_self
      obtain ⟨hnext, hsubset, hsame⟩ := operations_addAll o y.op d.nextOperation (targets o y.impacted) (d.createOperation y.op)
      have hholds : Holds o.partialOperations (fun a => recorded o a (hist ++ [some y]))
          (fun a => (recorded o a (hist ++ [some y])).length - o.maxOpsPerAccount) none
          ((d.createOperation y.op).addAll o y.op (some d.nextOperation) (targets o y.impacted)).2 := by
        have hrecorded := fun a => congrFun (recorded_some o hist y) a
        simp only [hrecorded, ← h.next]
        rcases htargets : targets o y.impacted with _ | ⟨a, rest⟩
        · exact hcreated.finish fun hpartly => absurd ⟨hpartly, htargets⟩ hsome
        · have hmax : 0 < o.maxOpsPerAccount := by
            by_contra hzero
            rw [targets, if_pos (Nat.eq_zero_of_not_pos hzero)] at htargets
            cases htargets
          have hnodup : (a :: rest).Nodup := htargets ▸ nodup_targets y
          obtain ⟨-, hadded⟩ := hcreated.addAll hmax hop hnodup fun b _ x hx => h.holds.recorded_lt b x hx
          refine hadded.finish fun _ => ⟨a, (d.nextOperation, y.op), ?_, rfl, hmax⟩
          rw [Holds.push, if_pos List.mem_cons_self, List.getLast?_concat]
      refine ⟨hholds, ?_, fun z hz => ?_, fun hnot i z hz => ?_⟩
      · rw [hnext, List.length_append, List.length_singleton, ← h.next]
        rfl
      · rcases List.mem_append.mp (hsubset hz) with hz | hz
        · obtain ⟨w, hw, heq⟩ := h.origin z hz
          exact ⟨w, hbefore hw, heq⟩
        · rw [List.mem_singleton.mp hz]
          refine ⟨y, ?_, rfl⟩
          rw [h.next, List.getElem?_concat_length]
      · rw [hsame hnot]
        rcases Nat.lt_or_ge i hist.length with hlt | hge
        · rw [List.getElem?_append_left hlt] at hz
          exact List.mem_append_left _ (h.complete hnot i z hz)
        · rw [List.getElem?_append_right hge, List.getElem?_singleton] at hz
          split at hz
          · next hi =>
            obtain rfl := Option.some.inj (Option.some.inj hz)
            rw [show i = d.nextOperation by rw [h.next]; omega]
            exact hop
          · cases hz

theorem holds_empty (partly : Bool) (removed : Nat → Nat) (h : ∀ a, removed a ≤ 0) :
    Holds partly (fun _ => []) removed none (Database.empty : Database Op) where
  sequences a := List.drop_nil.symm
  operationIds a := by rw [List.drop_nil]; rfl
  links a := rfl
  statistics a := by rw [Nat.le_zero.mp (h a)]; rfl
  removed_le := h
  increasing a := .nil
  recorded_lt a x hx := absurd hx List.not_mem_nil
  ids := .nil
  ids_lt e he := absurd he List.not_mem_nil
  operations := .nil
  operations_lt x hx := absurd hx List.not_mem_nil
  stored a x hx := by
    rw [List.drop_nil] at hx
    cases hx
  referenced _ x hx := absurd hx List.not_mem_nil

theorem records_run (o : Options) (hist : List (Option (Applied Op))) : Records o hist (Database.empty.updateAccountHistories o hist) := by
  induction hist using List.reverseRecOn with
  | nil =>
    refine ⟨holds_empty _ _ fun a => Nat.sub_le _ _, rfl, fun x hx => absurd hx List.not_mem_nil, fun _ i y hy => ?_⟩
    cases hy
  | append_singleton hist x ih =>
    have hrun : Database.empty.updateAccountHistories o (hist ++ [x]) =
        (Database.empty.updateAccountHistories o hist).applyOperation o x := List.foldl_concat ..
    rw [hrun]
    exact ih.apply x

end Khc.History
