import Khc.Net.Views

/-! What a node replies to a synopsis, and that the reply passes the checks of the node that has sent the synopsis. -/

namespace Khc.Net

open Lib Fork ChainDatabase
open Khc.Block (BlockDatabase Codec)

variable {Block Id : Type} [DecidableEq Id] {B : Blocks Block Id} {d : ChainDatabase Block Id} {S v l synopsis : List Id} {i j : Id}
  {n limit : Nat} {m : Inventory Id}

/-! ### The server -/

/-- The reply of the owner of a chain: the blocks from one of the synopsis on, as many as there may be, and how many are left -/
structure Replies (S synopsis : List Id) (limit : Nat) (m : Inventory Id) (n : Nat) : Prop where
  place : n < S.length
  start : synopsis = [] ∧ n = 0 ∨ ∃ i ∈ synopsis, S[n]? = some i
  items : m.itemHashesAvailable = (S.drop n).take limit
  remaining : m.totalRemainingItemCount = S.length - n - limit

theorem lastKnownBlock_eq_ok (hd : d.Sound B S) (h : d.lastKnownBlock B l = .ok i) : i ∈ l ∧ (i = B.zero ∨ i ∈ S) := by
  induction l with
  | nil => cases h
  | cons j l ih =>
    rw [ChainDatabase.lastKnownBlock] at h
    split at h
    · next hzero =>
      obtain rfl := pure_eq_ok.mp h
      exact ⟨List.mem_cons_self, .inl hzero⟩
    · split at h
      · obtain ⟨included, hincluded, h⟩ := bind_eq_ok.mp h
        split at h
        · next htrue =>
          obtain rfl := pure_eq_ok.mp h
          exact ⟨List.mem_cons_self, .inr (hd.mem_of_isIncludedBlock (by rw [hincluded, htrue]))⟩
        · obtain ⟨hmem, hin⟩ := ih h
          exact ⟨List.mem_cons_of_mem _ hmem, hin⟩
      · obtain ⟨hmem, hin⟩ := ih h
        exact ⟨List.mem_cons_of_mem _ hmem, hin⟩

/-- Of blocks that are known to the server but none above its head, the first one on its chain is found. -/
theorem lastKnownBlock_of_mem (hd : d.Sound B S) (hzero : ∀ j ∈ l, j ≠ B.zero)
    (hbelow : ∀ j ∈ l, d.isKnownBlock B j → 0 < B.numFromId j ∧ B.numFromId j ≤ S.length) (hi : i ∈ l) (hS : i ∈ S) :
    ∃ a j b, l = a ++ j :: b ∧ j ∈ S ∧ (∀ u ∈ a, u ∉ S) ∧ d.lastKnownBlock B l = .ok j := by
  induction l with
  | nil => cases hi
  | cons x l ih =>
    rw [ChainDatabase.lastKnownBlock, if_neg (hzero x List.mem_cons_self)]
    by_cases hx : x ∈ S
    · refine ⟨[], x, l, rfl, hx, fun u hu => absurd hu List.not_mem_nil, ?_⟩
      rw [if_pos (hd.known hx), hd.isIncludedBlock hx]
      rfl
    · have hmem : i ∈ l := (List.mem_cons.mp hi).resolve_left fun heq => hx (heq ▸ hS)
      obtain ⟨a, j, b, rfl, hj, ha, hok⟩ := ih (fun j hj => hzero j (List.mem_cons_of_mem _ hj))
        (fun j hj => hbelow j (List.mem_cons_of_mem _ hj)) hmem
      refine ⟨x :: a, j, b, rfl, hj, List.forall_mem_cons.mpr ⟨hx, ha⟩, ?_⟩
      split
      · next hknown =>
        obtain ⟨hpos, hle⟩ := hbelow x List.mem_cons_self hknown
        have hget : S[B.numFromId x - 1]? = some S[B.numFromId x - 1] := List.getElem?_eq_getElem (by omega)
        have hid := hd.getBlockIdForNum hget
        rw [Nat.sub_add_cancel hpos] at hid
        have hne : x ≠ S[B.numFromId x - 1] := fun heq => hx (heq ▸ List.getElem_mem _)
        rw [ChainDatabase.isIncludedBlock, hid, ok_bind, decide_eq_false hne]
        exact hok
      · exact hok

/-- The ids from a block of the chain on, or from the first one on -/
theorem getBlockIds_eq (hd : d.Sound B S) (hlimit : 0 < limit) (hn : n < S.length)
    (hlast : (if synopsis = [] ∨ synopsis = [B.zero] then .ok B.zero else d.lastKnownBlock B synopsis.reverse) = .ok i)
    (hi : S[n]? = some i ∨ i = B.zero ∧ n = 0) :
    d.getBlockIds B synopsis limit = .ok ((S.drop n).take limit, S.length - n - limit) := by
  have hpos : 0 < S.length := Nat.zero_lt_of_lt hn
  have hfirst : max (B.numFromId i) 1 = n + 1 := by
    rcases hi with hget | ⟨rfl, rfl⟩
    · rw [hd.linked.num hget]
      exact max_eq_left (Nat.succ_pos n)
    · rw [B.numFromId_zero]
      rfl
  have hrange : (List.range' (n + 1) (S.length + 1 - (n + 1))).take limit = List.range' (n + 1) (min limit (S.length - n)) := by
    rw [show S.length + 1 - (n + 1) = S.length - n by omega]
    rcases le_total limit (S.length - n) with hle | hle
    · rw [List.take_range'_of_length_ge hle, min_eq_left hle]
    · rw [List.take_range'_of_length_le hle, min_eq_right hle]
  have hall : ∀ k ∈ List.range' (n + 1) (min limit (S.length - n)), ∃ j, d.getBlockIdForNum B k = .ok j ∧ S[k - 1]? = some j := by
    intro k hk
    obtain ⟨hk, hk'⟩ := List.mem_range'_1.mp hk
    have hget : S[k - 1]? = some S[k - 1] := List.getElem?_eq_getElem (by omega)
    have hok := hd.getBlockIdForNum hget
    rw [Nat.sub_add_cancel (by omega)] at hok
    exact ⟨_, hok, hget⟩
  have hitems : (List.range' (n + 1) (min limit (S.length - n))).filterMap (fun k => S[k - 1]?) = (S.drop n).take limit := by
    have hpick := pick_range' (v := S) (k := n) (m := min limit (S.length - n)) (by omega)
    have htake : (S.drop n).take (min limit (S.length - n)) = (S.drop n).take limit :=
      List.take_eq_take_iff.mpr (by rw [List.length_drop]; omega)
    exact hpick.trans htake
  have hend : ((S.drop n).take limit).getLast? = S[n + min limit (S.length - n) - 1]? := by
    rw [List.getLast?_eq_getElem?, List.length_take, List.length_drop, List.getElem?_take_of_lt (by omega), List.getElem?_drop]
    congr 1
    omega
  have hget : S[n + min limit (S.length - n) - 1]? = some S[n + min limit (S.length - n) - 1] := List.getElem?_eq_getElem (by omega)
  unfold ChainDatabase.getBlockIds
  rw [hd.headBlockNum, if_neg hpos.ne']
  refine bind_eq_ok.mpr ⟨i, hlast, ?_⟩
  dsimp only
  rw [hfirst, hrange, mapM_eq_filterMap hall, ok_bind, hitems, hend, hget]
  dsimp only
  rw [hd.linked.num hget]
  refine congrArg (fun r => Except.ok ((S.drop n).take limit, r)) ?_
  omega

/-- The reply starts with the block of the synopsis that is found. -/
theorem replies_of_lastKnownBlock (hd : d.Sound B S) (hlimit : 0 < limit) (hfound : d.lastKnownBlock B synopsis.reverse = .ok i)
    (hi : S[n]? = some i) (hmem : i ∈ synopsis) :
    ∃ m, d.onFetchBlockchainItemIds B limit synopsis = .ok m ∧ Replies S synopsis limit m n := by
  have hn := (List.getElem?_eq_some_iff.mp hi).1
  have hsingle : ¬(synopsis = [] ∨ synopsis = [B.zero]) := by
    rintro (rfl | rfl)
    · cases hmem
    · exact hd.linked.ne_zero (List.mem_of_getElem? hi) (List.mem_singleton.mp hmem)
  have hids := getBlockIds_eq hd hlimit hn ((if_neg hsingle).trans hfound) (.inl hi)
  refine ⟨⟨S.length - n - limit, (S.drop n).take limit⟩, ?_, hn, .inr ⟨i, hmem, hi⟩, rfl, rfl⟩
  rw [ChainDatabase.onFetchBlockchainItemIds, hids]

/-- Every reply to a synopsis without the null id is empty, or it lists the chain from one of its blocks on. -/
theorem replies_of_onFetch (hd : d.Sound B S) (hlimit : 0 < limit) (hzero : ∀ j ∈ synopsis, j ≠ B.zero)
    (h : d.onFetchBlockchainItemIds B limit synopsis = .ok m) : m = ⟨0, []⟩ ∨ ∃ n, Replies S synopsis limit m n := by
  unfold ChainDatabase.onFetchBlockchainItemIds at h
  split at h
  · next ids remaining hids =>
    obtain rfl := Except.ok.inj h
    rcases Nat.eq_zero_or_pos S.length with hnil | hpos
    · rw [ChainDatabase.getBlockIds, hd.headBlockNum, if_pos hnil] at hids
      obtain ⟨rfl, rfl⟩ := Prod.mk.inj (pure_eq_ok.mp hids)
      exact .inl rfl
    · have hsplit := hids
      unfold ChainDatabase.getBlockIds at hsplit
      rw [hd.headBlockNum, if_neg hpos.ne'] at hsplit
      obtain ⟨last, hlast, -⟩ := bind_eq_ok.mp hsplit
      have hsingle : synopsis ≠ [B.zero] := fun heq => hzero B.zero (heq ▸ List.mem_cons_self) rfl
      have hstart : ∃ n, n < S.length ∧ (S[n]? = some last ∨ last = B.zero ∧ n = 0) ∧
          (synopsis = [] ∧ n = 0 ∨ ∃ i ∈ synopsis, S[n]? = some i) := by
        by_cases hempty : synopsis = []
        · rw [if_pos (.inl hempty)] at hlast
          exact ⟨0, hpos, .inr ⟨(pure_eq_ok.mp hlast).symm, rfl⟩, .inl ⟨hempty, rfl⟩⟩
        · rw [if_neg (not_or.mpr ⟨hempty, hsingle⟩)] at hlast
          obtain ⟨hmem, hin⟩ := lastKnownBlock_eq_ok hd hlast
          have hmem := List.mem_reverse.mp hmem
          obtain ⟨n, hn⟩ := List.mem_iff_getElem?.mp (hin.resolve_left (hzero _ hmem))
          exact ⟨n, (List.getElem?_eq_some_iff.mp hn).1, .inl hn, .inr ⟨_, hmem, hn⟩⟩
      obtain ⟨n, hn, hi, hstart⟩ := hstart
      have hids' := getBlockIds_eq hd hlimit hn hlast hi
      rw [hids] at hids'
      obtain ⟨rfl, rfl⟩ := Prod.mk.inj (Except.ok.inj hids')
      exact .inr ⟨n, hn, hstart, rfl, rfl⟩
  · obtain rfl := Except.ok.inj h
    exact .inl rfl
  · cases h

/-! ### The checks of a reply -/

omit [DecidableEq Id] in
theorem sequential_of_linked (h : B.Linked S) (n k : Nat) : Sequential B ((S.drop n).take k) := by
  have hnums : ∀ (l front : List Id), B.Linked (front ++ l) → l.map B.numFromId = List.range' (front.length + 1) l.length := by
    intro l
    induction l with
    | nil => exact fun _ _ => rfl
    | cons x l ih =>
      intro front hfront
      have hx : B.numFromId x = front.length + 1 := hfront.num (by simp)
      have hrest := ih (front ++ [x]) (by rwa [List.append_assoc])
      rw [List.length_append, List.length_singleton] at hrest
      rw [List.map_cons, hrest, List.length_cons, List.range'_succ, hx]
  rw [ChainDatabase.Sequential]
  cases hl : (S.drop n).take k with
  | nil => rfl
  | cons x l =>
    have hn : n ≤ S.length := by
      by_contra hlt
      rw [List.drop_eq_nil_of_le (by omega), List.take_nil] at hl
      cases hl
    have hlinked : B.Linked (S.take n ++ x :: l) := by
      rw [← hl, ← List.take_add]
      exact h.take _
    have hx : B.numFromId x = (S.take n).length + 1 := hlinked.num (List.getElem?_append_right le_rfl |>.trans (by simp))
    rw [List.headD_cons, hx, hnums _ _ hlinked]

omit [DecidableEq Id] in
theorem Replies.head? (h : Replies S synopsis limit m n) (hlimit : 0 < limit) : m.itemHashesAvailable.head? = S[n]? := by
  rw [h.items, List.head?_take, if_neg hlimit.ne', List.head?_drop]

theorem Replies.check (h : Replies S synopsis limit m n) (hS : B.Linked S) (hlimit : 0 < limit) :
    checkInventory B synopsis m.itemHashesAvailable = .ok () := by
  have hplace := h.place
  have hget : S[n]? = some S[n] := List.getElem?_eq_getElem hplace
  have hhead := h.head? hlimit
  obtain ⟨rest, hitems⟩ := List.head?_eq_some_iff.mp (hhead.trans hget)
  have hsequential := sequential_of_linked hS n limit
  rw [← h.items, hitems] at hsequential
  rw [hitems]
  refine bind_eq_ok.mpr ⟨(), ensure_eq_ok.mpr hsequential, ?_⟩
  rcases h.start with ⟨rfl, rfl⟩ | ⟨i, hi, hin⟩
  · rw [if_pos rfl, ensure_eq_ok]
    exact hS.num hget
  · rw [hin] at hget
    rw [if_neg (List.ne_nil_of_mem hi), ensure_eq_ok]
    exact Option.some.inj hget ▸ hi

end Khc.Net
