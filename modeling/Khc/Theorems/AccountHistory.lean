import Khc.History.Records
import Mathlib.Algebra.Order.BigOperators.Group.List
import Mathlib.Algebra.Order.Ring.Nat

/-! Each account has its last operations, and the API returns exactly those that it is asked for. -/

namespace Khc.History

open Lib

variable {Op : Type} {o : Options} {d : Database Op} {rec : Nat → List (Nat × Op)} {a : Nat} {e g : Entry} {l : List Entry} {cur : Option Nat}

theorem walkBack_eq {limit : Nat} {front rest : List Entry} (h : e ∉ front) (hlimit : 0 < limit) :
    Database.walkBack (some e) limit (front ++ e :: rest) = some ((front ++ [e]).take limit) := by
  induction front generalizing limit with
  | nil =>
    obtain ⟨n, rfl⟩ := Nat.exists_eq_succ_of_ne_zero hlimit.ne'
    simp [Database.walkBack]
  | cons f front ih =>
    obtain ⟨hf, hfront⟩ := not_or.mp fun h' => h (List.mem_cons.mpr h')
    obtain ⟨n, rfl⟩ := Nat.exists_eq_succ_of_ne_zero hlimit.ne'
    rw [List.cons_append, Database.walkBack]
    rcases Nat.eq_zero_or_pos n with rfl | hn
    · simp
    · rw [if_pos ⟨fun heq => hf (Option.some.inj heq).symm, by omega⟩, Nat.succ_sub_one, ih hfront hn]
      rfl

theorem filter_lt_of_map {r n k : Nat} (h : l.map (·.sequence) = List.range' r n) : l.filter (·.sequence < k) = l.take (k - r) := by
  induction l generalizing r n with
  | nil => rw [List.take_nil]; rfl
  | cons e l ih =>
    obtain ⟨n, rfl⟩ : ∃ m, n = m + 1 := ⟨l.length, by simpa using (congrArg List.length h).symm⟩
    rw [List.map_cons, List.range'_succ, List.cons.injEq] at h
    have hrest := ih h.2
    rcases Nat.lt_or_ge r k with hlt | hge
    · rw [List.filter_cons_of_pos (by simpa [h.1] using hlt), hrest, show k - r = k - (r + 1) + 1 by omega, List.take_succ_cons]
    · rw [List.filter_cons_of_neg (by simpa [h.1] using hge), hrest, Nat.sub_eq_zero_of_le hge, Nat.sub_eq_zero_of_le (by omega)]
      rfl

theorem filter_le_of_map {r n k : Nat} (h : l.map (·.sequence) = List.range' r n) : l.filter (k ≤ ·.sequence) = l.drop (k - r) := by
  induction l generalizing r n with
  | nil => rw [List.drop_nil]; rfl
  | cons e l ih =>
    obtain ⟨n, rfl⟩ : ∃ m, n = m + 1 := ⟨l.length, by simpa using (congrArg List.length h).symm⟩
    rw [List.map_cons, List.range'_succ, List.cons.injEq] at h
    have hrest := ih h.2
    rcases Nat.lt_or_ge r k with hlt | hge
    · rw [List.filter_cons_of_neg (by simpa [h.1] using hlt), hrest, show k - r = k - (r + 1) + 1 by omega, List.drop_succ_cons]
    · rw [List.filter_cons_of_pos (by simpa [h.1] using hge), hrest, Nat.sub_eq_zero_of_le hge, Nat.sub_eq_zero_of_le (by omega)]
      rfl

theorem mapM_eq_some {α β : Type} {f : α → Option β} {g : α → β} {l : List α} (h : ∀ x ∈ l, f x = some (g x)) : l.mapM f = some (l.map g) := by
  induction l with
  | nil => rfl
  | cons x l ih =>
    obtain ⟨hx, hl⟩ := List.forall_mem_cons.mp h
    rw [List.mapM_cons, hx, ih hl]
    rfl

theorem find?_id {l : List Entry} (h : l.Pairwise fun e f => e.id < f.id) (he : e ∈ l) : l.find? (fun f => f.id = e.id) = some e := by
  obtain ⟨front, rest, rfl⟩ := List.append_of_mem he
  refine List.find?_eq_some_iff_append.mpr ⟨decide_eq_true rfl, front, rest, rfl, fun f hf => ?_⟩
  have hlt := (List.pairwise_append.mp h).2.2 f hf e List.mem_cons_self
  simpa using hlt.ne

/-- A stored operation is found by its id. -/
theorem Holds.operation {partly : Bool} {removed : Nat → Nat} (h : Holds partly rec removed cur d) {x : Nat × Op} (hx : x ∈ d.operations) :
    d.operation x.1 = some x.2 := by
  unfold Database.operation
  have hfound : d.operations.find? (fun y => y.1 = x.1) = some x := by
    obtain ⟨a, b, hsplit⟩ := List.append_of_mem hx
    have hpair := h.operations
    rw [hsplit] at hpair ⊢
    refine List.find?_eq_some_iff_append.mpr ⟨decide_eq_true rfl, a, b, rfl, fun y hy => ?_⟩
    have hlt := (List.pairwise_append.mp hpair).2.2 y hy x List.mem_cons_self
    simpa using hlt.ne
  rw [hfound]
  rfl

/-- What the entries refer to -/
theorem Holds.mapM_operation {partly : Bool} {removed : Nat → Nat} (h : Holds partly rec removed cur d) {ops : List (Nat × Op)}
    (hids : l.map (·.operationId) = ops.map (·.1)) (hops : ∀ x ∈ ops, x ∈ d.operations) :
    (l.mapM fun e => d.operation e.operationId) = some (ops.map (·.2)) := by
  refine Eq.trans (List.mapM_map (f := fun e : Entry => e.operationId) (g := d.operation)).symm ?_
  rw [hids, List.mapM_map]
  exact mapM_eq_some fun x hx => h.operation (hops x hx)

theorem Records.getRelativeAccountHistory {hist : List (Option (Applied Op))} (hrecords : Records o hist d) (a stop limit start : Nat) :
    d.getRelativeAccountHistory a stop limit start =
      if 100 < limit then none
      else some (((((recorded o a hist).map (·.2)).take
        (if start = 0 then (recorded o a hist).length else min (recorded o a hist).length start)).drop
          (max (stop - 1) ((recorded o a hist).length - o.maxOpsPerAccount))).reverse.take limit) := by
  have h := hrecords.holds
  have hpair := h.sequences_pairwise a
  have hstatistics := h.statistics a
  have hsequences := h.sequences a
  have hoperationIds := h.operationIds a
  have hstored := h.stored a
  generalize recorded o a hist = ops at hstatistics hsequences hoperationIds hstored ⊢
  generalize hr : ops.length - o.maxOpsPerAccount = r at hstatistics hsequences hoperationIds hstored ⊢
  rw [List.drop_range', Nat.mul_one] at hsequences
  unfold Database.getRelativeAccountHistory
  rw [hstatistics]
  dsimp only
  generalize hst : (if start = 0 then ops.length else min ops.length start) = st
  have hle : st ≤ ops.length := by
    rw [← hst]
    split
    · exact le_rfl
    · exact min_le_left _ _
  split
  · rfl
  · split
    · next hasked =>
      obtain ⟨hstop, hremoved, hlimit⟩ := hasked
      have hupTo := Database.takeWhile_orderedBy (s := st + 1) hpair
      obtain ⟨later, hfrom, -⟩ := Database.dropWhile_orderedBy (s := stop) hpair
      have hlength := congrArg List.length hsequences
      rw [List.length_map, List.length_range'] at hlength
      rw [filter_lt_of_map hsequences, show st + 1 - (1 + r) = st - r by omega] at hupTo
      rw [filter_le_of_map hsequences, show stop - (1 + r) = max (stop - 1) r - r by omega] at hfrom
      rw [Database.bySeq, hupTo, hfrom]
      generalize (d.orderedBy (·.sequence)).filter (·.account < a) = earlier
      generalize hk : max (stop - 1) r - r = k
      generalize d.entriesOf a = es at *
      have hek : k < es.length := by omega
      have hwalked : (es.take (st - r)).drop k = es[k] :: (es.take (st - r)).drop (k + 1) := by
        rw [List.drop_eq_getElem_cons (by rw [List.length_take]; omega), List.getElem_take]
      have hback : (earlier ++ es.take (st - r)).reverse =
          ((es.take (st - r)).drop (k + 1)).reverse ++ es[k] :: ((es.take (st - r)).take k).reverse ++ earlier.reverse := by
        have hsplit : es.take (st - r) = (es.take (st - r)).take k ++ es[k] :: (es.take (st - r)).drop (k + 1) := by
          rw [← hwalked, List.take_append_drop]
        rw [List.reverse_append]
        conv_lhs => rw [hsplit, List.reverse_append, List.reverse_cons]
        rw [List.append_assoc, List.append_assoc, List.append_assoc, List.singleton_append, List.cons_append]
      have hnot : es[k] ∉ ((es.take (st - r)).drop (k + 1)).reverse := by
        have hless := (hpair.take (i := st - r)).drop (i := k)
        rw [hwalked] at hless
        intro hmem
        exact absurd ((List.pairwise_cons.mp hless).1 es[k] (List.mem_reverse.mp hmem)) (lt_irrefl _)
      have hhead : (es.drop k ++ later).head? = some es[k] := by
        rw [List.drop_eq_getElem_cons hek]
        rfl
      rw [hback, hhead, List.append_assoc, List.cons_append, walkBack_eq hnot hlimit, Option.bind_eq_bind, Option.bind_some,
        ← List.reverse_cons, ← hwalked]
      have hslice : ((ops.map (·.2)).take st).drop (max (stop - 1) r) = (((ops.drop r).take (st - r)).drop k).map (·.2) := by
        rw [show max (stop - 1) r = r + k by omega, ← List.drop_drop, ← List.map_take, ← List.map_drop, List.drop_take, ← List.map_drop]
      have hids : ((((es.take (st - r)).drop k).reverse).take limit).map (·.operationId) =
          (((((ops.drop r).take (st - r)).drop k).reverse).take limit).map (·.1) := by
        rw [List.map_take, List.map_reverse, List.map_drop, List.map_take, hoperationIds, ← List.map_take, ← List.map_drop,
          ← List.map_reverse, ← List.map_take]
      rw [hslice, ← List.map_reverse, ← List.map_take]
      refine h.mapM_operation hids fun x hx => hstored x ?_
      exact List.mem_of_mem_take (List.mem_of_mem_drop (List.mem_reverse.mp (List.mem_of_mem_take hx)))
    · next hnot =>
      have hnone : (((ops.map (·.2)).take st).drop (max (stop - 1) r)).reverse.take limit = [] := by
        rcases Nat.eq_zero_or_pos limit with rfl | hlimit
        · exact List.take_zero
        · rw [List.drop_eq_nil_of_le, List.reverse_nil, List.take_nil]
          rw [List.length_take, List.length_map]
          omega
      rw [hnone]

/-- The operations of an account, from the one at `start` back to the one at `stop`, as far as they are still there and as many as may be -/
theorem relative_account_history (o : Options) (hist : List (Option (Applied Op))) (a stop limit start : Nat) :
    (Database.empty.updateAccountHistories o hist).getRelativeAccountHistory a stop limit start =
      if 100 < limit then none
      else some (((((recorded o a hist).map (·.2)).take
        (if start = 0 then (recorded o a hist).length else min (recorded o a hist).length start)).drop
          (max (stop - 1) ((recorded o a hist).length - o.maxOpsPerAccount))).reverse.take limit) :=
  (records_run o hist).getRelativeAccountHistory a stop limit start

/-- The operations of an account that are still there -/
def kept (o : Options) (a : Nat) (hist : List (Option (Applied Op))) : List (Nat × Op) :=
  (recorded o a hist).drop ((recorded o a hist).length - o.maxOpsPerAccount)

/-- Every operation has its place among those that were applied as its id, and if only some of them are kept then these are the ones that
    some account still has in its history. -/
theorem operation_stored_iff (o : Options) (hist : List (Option (Applied Op))) (id : Nat) (op : Op) :
    (Database.empty.updateAccountHistories o hist).operation id = some op ↔
      (∃ y, hist[id]? = some (some y) ∧ y.op = op) ∧ (o.partialOperations → ∃ a, (id, op) ∈ kept o a hist) := by
  have h := records_run o hist
  generalize Database.empty.updateAccountHistories o hist = d at h ⊢
  have hfound : d.operation id = some op ↔ (id, op) ∈ d.operations := by
    refine ⟨fun hop => ?_, fun hmem => h.holds.operation hmem⟩
    obtain ⟨x, hx, rfl⟩ := Option.map_eq_some_iff.mp hop
    have hid := List.find?_some hx
    obtain rfl := of_decide_eq_true hid
    exact List.mem_of_find?_eq_some hx
  rw [hfound]
  constructor
  · intro hmem
    refine ⟨h.origin _ hmem, fun hpartly => ?_⟩
    obtain ⟨e, he, hid⟩ := (h.holds.referenced hpartly _ hmem).resolve_left (Option.some_ne_none _)
    have hentry : e.operationId ∈ (d.entriesOf e.account).map (·.operationId) :=
      List.mem_map_of_mem (Database.mem_entriesOf.mpr ⟨he, rfl⟩)
    rw [h.holds.operationIds] at hentry
    obtain ⟨x, hx, heq⟩ := List.mem_map.mp hentry
    -- The entry belongs to an operation of that id, of which there is only one.
    have hsame := h.holds.operation (h.holds.stored _ x hx)
    rw [heq, hid, h.holds.operation hmem] at hsame
    have hpair : (id, op) = x := Prod.ext (hid.symm.trans heq.symm) (Option.some.inj hsame)
    exact ⟨e.account, hpair ▸ hx⟩
  · rintro ⟨⟨y, hy, rfl⟩, hpartly⟩
    by_cases hp : o.partialOperations
    · obtain ⟨a, ha⟩ := hpartly hp
      exact h.holds.stored a _ ha
    · exact h.complete hp id y hy

/-- Whether an operation is newer than the one to stop at and not newer than the one to start from -/
def asked (stop start id : Nat) : Bool := (stop = 0 ∨ stop < id) ∧ id ≤ start

theorem walkBackOps_other {stop start limit : Nat} (h : e.account ≠ a) : Database.walkBackOps a stop start limit e l = [] := by
  cases l <;> simp [Database.walkBackOps, h]

/-- Once an operation is as old as the one to stop at, no other one is asked for. -/
theorem filter_asked_eq_nil {stop start : Nat} (hstop : e.operationId ≤ stop) (h : ∀ f ∈ l, f.operationId < e.operationId) :
    l.filter (asked stop start ·.operationId) = [] := by
  refine List.filter_eq_nil_iff.mpr fun f hf => ?_
  have hlt := h f hf
  simp only [asked, decide_eq_true_eq]
  omega

theorem walkBackOps_eq {stop start limit : Nat} {rest : List Entry} (haccount : ∀ f ∈ e :: l, f.account = a)
    (hpair : (e :: l).Pairwise fun e f => f.operationId < e.operationId) (hg : g.account ≠ a) :
    Database.walkBackOps a stop start limit e (l ++ g :: rest) = ((e :: l).filter (asked stop start ·.operationId)).take limit := by
  induction l generalizing e limit with
  | nil =>
    have he : e.account = a := haccount e List.mem_cons_self
    rcases Nat.eq_zero_or_pos limit with rfl | hlimit
    · simp [Database.walkBackOps]
    · obtain ⟨n, rfl⟩ := Nat.exists_eq_succ_of_ne_zero hlimit.ne'
      rw [List.nil_append, Database.walkBackOps, walkBackOps_other hg, walkBackOps_other hg, List.filter_singleton]
      simp only [asked]
      grind
  | cons f l ih =>
    obtain ⟨he, hl⟩ := List.forall_mem_cons.mp haccount
    obtain ⟨hlt, hpair⟩ := List.pairwise_cons.mp hpair
    rw [List.cons_append, Database.walkBackOps]
    split
    · next hnewer =>
      obtain ⟨n, rfl⟩ := Nat.exists_eq_succ_of_ne_zero hnewer.2.2.ne'
      split
      · next hle =>
        rw [List.filter_cons_of_pos (by simpa [asked] using ⟨.inr hnewer.2.1, hle⟩), List.take_succ_cons, Nat.succ_sub_one, ih hl hpair]
      · next hgt => rw [List.filter_cons_of_neg (by simp [asked, hgt]), ih hl hpair]
    · next hold =>
      have hf := hlt f List.mem_cons_self
      rcases Nat.eq_zero_or_pos limit with rfl | hlimit
      · simp
      · have hstop : e.operationId ≤ stop := by
          by_contra hgt
          exact hold ⟨he, Nat.lt_of_not_le hgt, hlimit⟩
        rw [if_neg (by omega), List.filter_cons_of_neg (by simp only [asked, decide_eq_true_eq]; omega), filter_asked_eq_nil hstop hlt,
          List.take_nil]

/-- Before the first entry of the index one cannot go, so it is only looked at once the loop has ended. -/
theorem walkBackOps_first {stop start limit : Nat} {front : List Entry} (hfront : e :: l = front ++ [g]) (haccount : ∀ f ∈ e :: l, f.account = a)
    (hpair : (e :: l).Pairwise fun e f => f.operationId < e.operationId) :
    Database.walkBackOps a stop start limit e l =
      (front.filter (asked stop start ·.operationId) ++ if stop = 0 then [g] else []).take limit := by
  induction front generalizing e l limit with
  | nil =>
    obtain ⟨rfl, rfl⟩ := List.cons.inj hfront
    have he : e.account = a := haccount e List.mem_cons_self
    rcases Nat.eq_zero_or_pos limit with rfl | hlimit
    · simp [Database.walkBackOps]
    · obtain ⟨n, rfl⟩ := Nat.exists_eq_succ_of_ne_zero hlimit.ne'
      by_cases hstop : stop = 0 <;> simp [Database.walkBackOps, hstop, he]
  | cons f front ih =>
    rw [List.cons_append] at hfront
    obtain ⟨rfl, rfl⟩ := List.cons.inj hfront
    obtain ⟨he, hl⟩ := List.forall_mem_cons.mp haccount
    obtain ⟨hlt, hpair⟩ := List.pairwise_cons.mp hpair
    obtain ⟨f, l, hrest⟩ : ∃ f l, front ++ [g] = f :: l := List.exists_cons_of_ne_nil (by simp)
    rw [hrest] at hl hpair hlt ⊢
    rw [Database.walkBackOps]
    split
    · next hnewer =>
      obtain ⟨n, rfl⟩ := Nat.exists_eq_succ_of_ne_zero hnewer.2.2.ne'
      split
      · next hle =>
        rw [List.filter_cons_of_pos (by simpa [asked] using ⟨.inr hnewer.2.1, hle⟩), List.cons_append, List.take_succ_cons, Nat.succ_sub_one,
          ih hrest.symm hl hpair]
      · next hgt => rw [List.filter_cons_of_neg (by simp [asked, hgt]), ih hrest.symm hl hpair]
    · next hold =>
      have hf := hlt f List.mem_cons_self
      rcases Nat.eq_zero_or_pos limit with rfl | hlimit
      · simp
      · have hstop : e.operationId ≤ stop := by
          by_contra hgt
          exact hold ⟨he, Nat.lt_of_not_le hgt, hlimit⟩
        have hnone : front.filter (asked stop start ·.operationId) = [] :=
          filter_asked_eq_nil hstop fun x hx => hlt x (hrest ▸ List.mem_append_left _ hx)
        rw [if_neg (by omega), List.filter_cons_of_neg (by simp only [asked, decide_eq_true_eq]; omega), hnone, if_neg (by omega), List.nil_append,
          List.take_nil]

theorem map_filter_operationId {p : Nat → Bool} {ops : List (Nat × Op)} (h : l.map (·.operationId) = ops.map (·.1)) :
    (l.filter (p ·.operationId)).map (·.operationId) = (ops.filter (p ·.1)).map (·.1) := by
  have hfilter := congrArg (List.filter p) h
  rwa [List.filter_map, List.filter_map] at hfilter

/-- From an entry on all entries of the account are walked through. Only the first of them all is asked for in another way, if no other
    account has entries before it. -/
theorem walkBackOps_entries (stop limit : Nat) {st : Nat} {entries lo hi others : List Entry} (hsplit : entries = lo ++ e :: hi)
    (hpair : entries.Pairwise fun e f => e.operationId < f.operationId) (haccount : ∀ f ∈ entries, f.account = a)
    (hfrom : st ≤ e.operationId) (hothers : ∀ g ∈ others, g.account ≠ a) :
    Database.walkBackOps a stop st limit e (lo.reverse ++ others) =
      (if others = [] then (if stop = 0 then entries.take 1 else []) ++ entries.tail.filter (asked stop st ·.operationId)
        else entries.filter (asked stop st ·.operationId)).reverse.take limit := by
  subst hsplit
  have hnewer : hi.filter (asked stop st ·.operationId) = [] := by
    have hgt := (List.pairwise_cons.mp (List.pairwise_append.mp hpair).2.1).1
    refine List.filter_eq_nil_iff.mpr fun f hf => ?_
    have hlt := hgt f hf
    simp only [asked, decide_eq_true_eq]
    omega
  rw [List.append_cons] at hpair haccount
  have hback : (e :: lo.reverse).Pairwise fun e f => f.operationId < e.operationId := by
    rw [← List.reverse_concat, List.pairwise_reverse]
    exact (List.pairwise_append.mp hpair).1
  have hback' : ∀ f ∈ e :: lo.reverse, f.account = a := fun f hf => by
    rw [← List.reverse_concat, List.mem_reverse] at hf
    exact haccount f (List.mem_append_left _ hf)
  cases others with
  | nil =>
    obtain ⟨first, m, hm⟩ : ∃ first m, lo ++ [e] = first :: m := List.exists_cons_of_ne_nil (by simp)
    have hreverse : e :: lo.reverse = m.reverse ++ [first] := by rw [← List.reverse_concat, hm, List.reverse_cons]
    rw [if_pos rfl, List.append_nil, walkBackOps_first hreverse hback' hback, List.append_cons, hm, List.cons_append, List.tail_cons,
      List.filter_append, hnewer, List.append_nil, List.reverse_append, List.filter_reverse]
    split <;> rfl
  | cons g rest =>
    rw [if_neg (List.cons_ne_nil g rest), walkBackOps_eq hback' hback (hothers g List.mem_cons_self), List.append_cons, List.filter_append, hnewer,
      List.append_nil, ← List.filter_reverse, List.reverse_concat]

/-- Where the index `by_op` is entered, and what comes before -/
theorem lowerBound_byOp {st : Nat} (hpair : (d.entriesOf a).Pairwise fun e f => e.operationId < f.operationId) (he : e ∈ d.entriesOf a)
    (hle : st ≤ e.operationId) : ∃ lo itr hi, d.entriesOf a = lo ++ itr :: hi ∧ st ≤ itr.operationId ∧
      (d.byOp.dropWhile (Entry.before (·.operationId) a st)).head? = some itr ∧
      d.byOp.takeWhile (Entry.before (·.operationId) a st) = d.byOp.filter (·.account < a) ++ lo := by
  obtain ⟨later, hdrop, -⟩ := Database.dropWhile_orderedBy (s := st) hpair
  have htake := Database.takeWhile_orderedBy (s := st) hpair
  obtain ⟨itr, hi, hfrom⟩ : ∃ itr hi, (d.entriesOf a).filter (st ≤ ·.operationId) = itr :: hi :=
    List.exists_cons_of_ne_nil (List.ne_nil_of_mem (List.mem_filter.mpr ⟨he, decide_eq_true hle⟩))
  have hitr : itr ∈ (d.entriesOf a).filter (st ≤ ·.operationId) := hfrom ▸ List.mem_cons_self
  refine ⟨(d.entriesOf a).filter (·.operationId < st), itr, hi, ?_, of_decide_eq_true (List.mem_filter.mp hitr).2, ?_, htake⟩
  · have hnot : (d.entriesOf a).filter (st ≤ ·.operationId) = (d.entriesOf a).filter (fun e => !decide (e.operationId < st)) := by
      simp only [← decide_not, Nat.not_lt]
    rw [← hfrom, hnot, filter_append_filter_not (hpair.imp fun {e f} hlt hf => decide_eq_true (hlt.trans (of_decide_eq_true hf)))]
  · rw [Database.byOp, hdrop, hfrom, List.cons_append, List.head?_cons]

/-- The account is the first one in the index. -/
theorem filter_byOp_eq_nil_iff : d.byOp.filter (·.account < a) = [] ↔ ∀ b < a, d.entriesOf b = [] := by
  rw [List.filter_eq_nil_iff]
  constructor
  · intro h b hb
    refine List.eq_nil_iff_forall_not_mem.mpr fun e he => ?_
    obtain ⟨hmem, rfl⟩ := Database.mem_entriesOf.mp he
    exact h e (List.mem_mergeSort.mpr hmem) (decide_eq_true hb)
  · intro h e he hlt
    exact List.ne_nil_of_mem (Database.mem_entriesOf.mpr ⟨List.mem_mergeSort.mp he, rfl⟩) (h e.account (of_decide_eq_true hlt))

namespace Sample

def options : Options := ⟨[], true, 2, .nil⟩

def hist : List (Option (Applied Nat)) :=
  [some ⟨10, [3], by decide⟩, none, some ⟨11, [1, 3], by decide⟩, some ⟨12, [3], by decide⟩, some ⟨13, [1, 3], by decide⟩]

end Sample

/-- For an account with a history the newest operations that are asked for, as many as may be. But the oldest one of the first account in the
    index is only given if one asks to stop at 0, and then whatever one wants to start from. -/
theorem account_history (o : Options) (hist : List (Option (Applied Op))) (a stop limit start : Nat) (h : kept o a hist ≠ []) :
    (Database.empty.updateAccountHistories o hist).getAccountHistory a stop limit start =
      if 100 < limit then none
      else
        let newest := if start = 0 then hist.length else start
        let front := if ∀ b < a, kept o b hist = [] then (if stop = 0 then (kept o a hist).take 1 else []) ++
            (kept o a hist).tail.filter (asked stop newest ·.1)
          else (kept o a hist).filter (asked stop newest ·.1)
        some ((front.reverse.take limit).map (·.2)) := by
  have hrecords := records_run o hist
  generalize Database.empty.updateAccountHistories o hist = d at hrecords ⊢
  have hholds := hrecords.holds
  have hids : ∀ b, (d.entriesOf b).map (·.operationId) = (kept o b hist).map (·.1) := hholds.operationIds
  have hnil : ∀ b, kept o b hist = [] ↔ d.entriesOf b = [] := fun b => by
    rw [← List.map_eq_nil_iff (f := fun x : Nat × Op => x.1), ← hids b, List.map_eq_nil_iff]
  have hpair : (d.entriesOf a).Pairwise fun e f => e.operationId < f.operationId := by
    have hincreasing : ((kept o a hist).map (·.1)).Pairwise (· < ·) := List.pairwise_map.mpr (hholds.increasing a).drop
    rw [← hids a] at hincreasing
    exact List.pairwise_map.mp hincreasing
  obtain ⟨es, last, hlast⟩ : ∃ es last, d.entriesOf a = es ++ [last] := by
    have hne := mt (hnil a).mpr h
    exact ⟨_, _, (List.dropLast_append_getLast hne).symm⟩
  have hmem : last ∈ d.entries ∧ last.account = a := Database.mem_entriesOf.mp (hlast ▸ List.mem_append_right _ List.mem_cons_self)
  have hnode : d.entries.find? (fun e => e.id = (d.statistics a).mostRecentOp) = some last := by
    rw [hholds.statistics a, hlast, List.map_append, List.map_singleton, List.getLast?_concat, Option.getD_some]
    exact find?_id hholds.ids hmem.1
  unfold Database.getAccountHistory
  rw [hnode]
  dsimp only
  split
  · rfl
  · generalize hst : (if start = 0 ∨ last.operationId < start then last.operationId else start) = st
    -- What is not newer than the place one looks for
    have hasked : ∀ e ∈ d.entriesOf a, asked stop st e.operationId = asked stop (if start = 0 then hist.length else start) e.operationId := by
      intro e he
      have hle : e.operationId ≤ last.operationId := by
        rw [hlast] at he hpair
        rcases List.mem_append.mp he with he | he
        · exact ((List.pairwise_append.mp hpair).2.2 e he last List.mem_cons_self).le
        · rw [List.mem_singleton.mp he]
      have hlt : last.operationId < hist.length := by
        have hid : last.operationId ∈ (kept o a hist).map (·.1) := hids a ▸ hlast ▸ List.mem_map_of_mem (by simp)
        obtain ⟨x, hx, heq⟩ := List.mem_map.mp hid
        rw [← heq, ← hrecords.next]
        exact hholds.recorded_lt a x (List.mem_of_mem_drop hx)
      rw [Bool.eq_iff_iff]
      simp only [asked, decide_eq_true_eq]
      split at hst <;> split <;> omega
    have hle : st ≤ last.operationId := by
      rw [← hst]
      split <;> omega
    obtain ⟨lo, itr, hi, hsplit, hfrom, hhead, hbefore⟩ := lowerBound_byOp hpair (hlast ▸ List.mem_append_right _ List.mem_cons_self) hle
    have hothers : ∀ g ∈ (d.byOp.filter (·.account < a)).reverse, g.account ≠ a := fun g hg =>
      (of_decide_eq_true (List.mem_filter.mp (List.mem_reverse.mp hg)).2 : g.account < a).ne
    have hfirst : (d.byOp.filter (·.account < a)).reverse = [] ↔ ∀ b < a, kept o b hist = [] := by
      rw [List.reverse_eq_nil_iff, filter_byOp_eq_nil_iff]
      exact forall₂_congr fun b _ => (hnil b).symm
    have hwalked := walkBackOps_entries stop limit hsplit hpair (fun f hf => (Database.mem_entriesOf.mp hf).2) hfrom hothers
    rw [if_congr hfirst rfl rfl] at hwalked
    rw [hhead, hbefore, List.reverse_append, Option.bind_eq_bind, Option.bind_some]
    rw [hwalked, List.filter_congr hasked, List.filter_congr fun e he => hasked e (List.mem_of_mem_tail he)]
    refine hholds.mapM_operation ?_ fun x hx => hholds.stored a x ?_
    · rw [List.map_take, List.map_take, List.map_reverse, List.map_reverse]
      split
      · have htail : (d.entriesOf a).tail.map (·.operationId) = (kept o a hist).tail.map (·.1) := by rw [List.map_tail, List.map_tail, hids]
        rw [List.map_append, List.map_append, map_filter_operationId htail]
        split
        · rw [List.map_take, List.map_take, hids]
        · rfl
      · rw [map_filter_operationId (hids a)]
    · have hx := List.mem_reverse.mp (List.mem_of_mem_take hx)
      split at hx
      · rcases List.mem_append.mp hx with hx | hx
        · split at hx
          · exact List.mem_of_mem_take hx
          · cases hx
        · exact List.mem_of_mem_tail (List.mem_filter.mp hx).1
      · exact (List.mem_filter.mp hx).1

theorem account_history_sample : (Database.empty.updateAccountHistories Sample.options Sample.hist).getAccountHistory 3 3 100 0 = some [13] :=
  (account_history Sample.options Sample.hist 3 3 100 0 (by decide +kernel)).trans (by decide +kernel)

end Khc.History
