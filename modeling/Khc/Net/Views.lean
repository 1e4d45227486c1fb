import Khc.Net.Sync
import Khc.Theorems.BlockStore
import Khc.Theorems.BranchFetch

/-! The chain that a node has in view for a peer, and the synopsis of it. -/

namespace Khc.Fork

open Relation

variable {Block Id : Type} {B : Blocks Block Id} {i j : Id} {l m : List Id} {k : Nat}

/-- The ids of blocks from the first one of a chain on, each made on the one before it -/
def Blocks.Linked (B : Blocks Block Id) (l : List Id) : Prop := (B.zero :: l).IsChain fun i j => B.Parent j i

theorem Blocks.Parent.num (h : B.Parent i j) : B.numFromId i = B.numFromId j + 1 := by
  obtain ⟨b, rfl, rfl⟩ := h
  exact B.numFromId_id b

theorem Blocks.Parent.ne_zero (h : B.Parent i j) : i ≠ B.zero := by
  rintro rfl
  have hnum := h.num
  rw [B.numFromId_zero] at hnum
  omega

theorem Blocks.linked_nil : B.Linked [] := List.isChain_singleton _

theorem Blocks.linked_append : B.Linked (l ++ m) ↔ B.Linked l ∧ (l.getLast?.getD B.zero :: m).IsChain fun i j => B.Parent j i := by
  have hlast : (B.zero :: l).getLast? = some (l.getLast?.getD B.zero) := List.getLast?_cons
  unfold Blocks.Linked
  rw [← List.cons_append, List.isChain_append, List.isChain_cons (l := m), hlast]
  simp only [Option.mem_def, Option.some.injEq, forall_eq']
  tauto

namespace Blocks.Linked

theorem take (h : B.Linked l) (n : Nat) : B.Linked (l.take n) := (linked_append.mp ((List.take_append_drop n l).symm ▸ h)).1

theorem parent (h : B.Linked l) (hj : l[k]? = some j) : B.Parent j ((l.take k).getLast?.getD B.zero) := by
  obtain ⟨hlt, rfl⟩ := List.getElem?_eq_some_iff.mp hj
  have hdrop := (linked_append.mp ((List.take_append_drop k l).symm ▸ h)).2
  rw [List.drop_eq_getElem_cons hlt] at hdrop
  exact (List.isChain_cons_cons.mp hdrop).1

/-- The number of a block is its place. -/
theorem num (h : B.Linked l) (hj : l[k]? = some j) : B.numFromId j = k + 1 := by
  induction k generalizing j with
  | zero =>
    have hparent := (h.parent hj).num
    rwa [List.take_zero, List.getLast?_nil, Option.getD_none, B.numFromId_zero] at hparent
  | succ k ih =>
    obtain ⟨hlt, -⟩ := List.getElem?_eq_some_iff.mp hj
    have hprev : l[k]? = some l[k] := List.getElem?_eq_getElem (by omega)
    have hparent := (h.parent hj).num
    rw [List.take_add_one, hprev, Option.toList_some, List.getLast?_concat, Option.getD_some, ih hprev] at hparent
    exact hparent

theorem getElem?_num (h : B.Linked l) (hj : j ∈ l) : 0 < B.numFromId j ∧ l[B.numFromId j - 1]? = some j := by
  obtain ⟨k, hk⟩ := List.mem_iff_getElem?.mp hj
  rw [h.num hk]
  exact ⟨k.succ_pos, hk⟩

theorem num_le (h : B.Linked l) (hj : j ∈ l) : B.numFromId j ≤ l.length := by
  obtain ⟨hpos, hget⟩ := h.getElem?_num hj
  obtain ⟨hlt, -⟩ := List.getElem?_eq_some_iff.mp hget
  omega

theorem ne_zero (h : B.Linked l) (hj : j ∈ l) : j ≠ B.zero := by
  rintro rfl
  have hpos := (h.getElem?_num hj).1
  rw [B.numFromId_zero] at hpos
  exact absurd hpos (lt_irrefl 0)

theorem num_last (h : B.Linked l) : B.numFromId (l.getLast?.getD B.zero) = l.length := by
  rcases List.eq_nil_or_concat l with rfl | ⟨l, j, rfl⟩
  · exact B.numFromId_zero
  · rw [List.concat_eq_append, List.getLast?_concat, List.length_append]
    exact h.num (by simp)

/-- Chains with a common block are the same up to this block. -/
theorem take_eq (h : B.Linked l) (h' : B.Linked m) (hj : l[k]? = some j) (hj' : m[k]? = some j) : l.take (k + 1) = m.take (k + 1) := by
  induction k generalizing j with
  | zero => rw [List.take_add_one, List.take_add_one, hj, hj', List.take_zero, List.take_zero]
  | succ k ih =>
    obtain ⟨hlt, -⟩ := List.getElem?_eq_some_iff.mp hj
    obtain ⟨hlt', -⟩ := List.getElem?_eq_some_iff.mp hj'
    have hl : l[k]? = some l[k] := List.getElem?_eq_getElem (by omega)
    have hm : m[k]? = some m[k] := List.getElem?_eq_getElem (by omega)
    have hparent := h.parent hj
    have hparent' := h'.parent hj'
    rw [List.take_add_one, hl, Option.toList_some, List.getLast?_concat, Option.getD_some] at hparent
    rw [List.take_add_one, hm, Option.toList_some, List.getLast?_concat, Option.getD_some] at hparent'
    rw [List.take_add_one, hj, ih hl (parent_unique hparent' hparent ▸ hm), ← hj', ← List.take_add_one]

theorem take_eq_of_mem (h : B.Linked l) (h' : B.Linked m) (hj : j ∈ l) (hj' : j ∈ m) :
    l.take (B.numFromId j) = m.take (B.numFromId j) := by
  obtain ⟨hpos, hget⟩ := h.getElem?_num hj
  have heq := h.take_eq h' hget (h'.getElem?_num hj').2
  rwa [Nat.sub_add_cancel hpos] at heq

/-- The ancestors of the blocks are among them. -/
theorem mem_of_ancestor (h : B.Linked l) (hi : i ∈ l) (hij : ReflTransGen B.Parent i j) : j = B.zero ∨ j ∈ l := by
  induction hij with
  | refl => exact .inr hi
  | tail _ hparent ih =>
    rcases ih with rfl | hmem
    · exact absurd rfl hparent.ne_zero
    · obtain ⟨-, hget⟩ := h.getElem?_num hmem
      rw [← Blocks.parent_unique (h.parent hget) hparent]
      cases hlast : (l.take (B.numFromId _ - 1)).getLast? with
      | none => exact .inl rfl
      | some x => exact .inr (List.mem_of_mem_take (List.mem_of_getLast? hlast))

theorem getLast?_take_num (h : B.Linked l) (hj : j ∈ l) : (l.take (B.numFromId j)).getLast? = some j := by
  obtain ⟨hpos, hget⟩ := h.getElem?_num hj
  obtain ⟨n, hn⟩ := Nat.exists_eq_succ_of_ne_zero hpos.ne'
  rw [hn, Nat.succ_sub_one] at hget
  rw [hn, List.take_add_one, hget, Option.toList_some, List.getLast?_concat]

end Blocks.Linked

end Khc.Fork

namespace Khc.Net

open Lib Fork Relation ForkItem ForkDatabase
open Khc.Block (BlockDatabase)

variable {Block Id : Type} {B : Blocks Block Id}

/-! ### What is on the way between items of the fork database -/

theorem own_of_heldTo {own : ForkItem Block → Bool} {x a u : ForkItem Block} {l : List (ForkItem Block)} (h : HeldTo own x a)
    (ht : x.trail = l ++ a.trail) (hu : u ∈ l ++ [a]) : u = x ∨ own u := by
  induction h generalizing l with
  | here x =>
    have hnil : l = [] := by simpa using congrArg List.length ht
    rw [hnil] at hu
    exact .inl (List.mem_singleton.mp hu)
  | @back b s p a hp h ih =>
    cases l with
    | nil => exact .inl (by rw [List.mem_singleton.mp hu]; exact (eq_of_trail_eq ht).symm)
    | cons w l =>
      rw [trail, List.cons_append, List.cons.injEq] at ht
      rcases List.mem_cons.mp hu with rfl | hu
      · exact .inl ht.1.symm
      · rcases ih ht.2 hu with rfl | hown
        · exact .inr hp
        · exact .inr hown

variable [DecidableEq Id]

/-- The database of a node with the chain of these ids: both stores agree with it, and what the fork database still holds is found by
    its id. -/
structure ChainDatabase.Sound (B : Blocks Block Id) (d : ChainDatabase Block Id) (chain : List Id) : Prop where
  linked : B.Linked chain
  small : chain.length < 2 ^ 32
  head : d.headBlockId = chain.getLast?.getD B.zero
  stored : ∀ n j, chain[n]? = some j → ∃ e, d.blockIdToBlock.blockNumToPos[n + 1]? = some e ∧ e.blockId = j ∧ 0 < e.blockSize
  above : ∀ n, chain.length < n → d.blockIdToBlock.blockNumToPos[n]? = none
  undo : d.undoSize ≤ chain.length
  items : ∀ x ∈ d.forkDb.index, x.Chained B
  addressed : Addressed [] d.forkDb
  indexed : ∀ x ∈ d.forkDb.head, x ∈ d.forkDb.index

/-- The ids of a chain at some numbers -/
def pick {Id : Type} (v : List Id) (nums : List Nat) : List Id := nums.filterMap fun n => v[n - 1]?

/-- The synopsis of the blocks of a view from a number on, with a place for more blocks after it -/
structure Summarizes (B : Blocks Block Id) (d : ChainDatabase Block Id) (v : List Id) (low after : Nat) (synopsis : List Id) : Prop where
  linked : B.Linked v
  known : ∀ i ∈ v, d.isKnownBlock B i
  pos : 0 < low
  low_le : low ≤ v.length
  synopsis : synopsis = pick v ((approach (v.length + after) low).filter (· ≤ v.length))

namespace ChainDatabase.Sound
variable {d : ChainDatabase Block Id} {chain l : List Id} {i j : Id} {n : Nat}

omit [DecidableEq Id] in
theorem headBlockNum (hd : d.Sound B chain) : d.headBlockNum B = chain.length := by
  rw [ChainDatabase.headBlockNum, hd.head, hd.linked.num_last]

omit [DecidableEq Id] in
theorem lastNonUndoable (hd : d.Sound B chain) : d.lastNonUndoableBlockNum B = chain.length - d.undoSize := by
  have hundo := hd.undo
  have hsmall := hd.small
  rw [lastNonUndoableBlockNum, hd.headBlockNum]
  omega

theorem known (hd : d.Sound B chain) (hj : j ∈ chain) : d.isKnownBlock B j := by
  obtain ⟨hpos, hget⟩ := hd.linked.getElem?_num hj
  obtain ⟨e, he, hid, hsize⟩ := hd.stored _ _ hget
  rw [Nat.sub_add_cancel hpos] at he
  have hcontains : d.blockIdToBlock.contains B j = true := by
    rw [BlockDatabase.contains, if_neg (hd.linked.ne_zero hj), he]
    exact decide_eq_true ⟨hid, hsize⟩
  rw [isKnownBlock, hcontains, Bool.or_true]

theorem getBlockIdForNum (hd : d.Sound B chain) (hj : chain[n]? = some j) : d.getBlockIdForNum B (n + 1) = .ok j := by
  obtain ⟨e, he, rfl, -⟩ := hd.stored n j hj
  have hfetch : d.blockIdToBlock.fetchBlockId B (n + 1) = .ok e.blockId := by
    rw [BlockDatabase.fetchBlockId, he]
    refine bind_eq_ok.mpr ⟨(), ensure_eq_ok.mpr n.succ_ne_zero, ?_⟩
    exact bind_eq_ok.mpr ⟨(), ensure_eq_ok.mpr (hd.linked.ne_zero (List.mem_of_getElem? hj)), rfl⟩
  rw [ChainDatabase.getBlockIdForNum, hfetch]
  rfl

theorem getBlockIdForNum_eq_ok (hd : d.Sound B chain) (h : d.getBlockIdForNum B n = .ok j) : 0 < n ∧ chain[n - 1]? = some j := by
  rcases Nat.eq_zero_or_pos n with rfl | hpos
  · cases h
  · refine ⟨hpos, ?_⟩
    rcases Nat.lt_or_ge chain.length n with hlt | hle
    · rw [ChainDatabase.getBlockIdForNum, BlockDatabase.fetchBlockId, hd.above n hlt, ensure, if_pos hpos.ne'] at h
      cases h
    · have hget : chain[n - 1]? = some chain[n - 1] := List.getElem?_eq_getElem (by omega)
      have hok := hd.getBlockIdForNum hget
      rw [Nat.sub_add_cancel hpos, h] at hok
      rw [hget, Except.ok.inj hok]

theorem isIncludedBlock (hd : d.Sound B chain) (hj : j ∈ chain) : d.isIncludedBlock B j = .ok true := by
  obtain ⟨hpos, hget⟩ := hd.linked.getElem?_num hj
  have hok := hd.getBlockIdForNum hget
  rw [Nat.sub_add_cancel hpos] at hok
  rw [ChainDatabase.isIncludedBlock, hok, ok_bind, decide_eq_true rfl]
  rfl

theorem mem_of_isIncludedBlock (hd : d.Sound B chain) (h : d.isIncludedBlock B j = .ok true) : j ∈ chain := by
  obtain ⟨i, hi, hij⟩ := bind_eq_ok.mp h
  obtain rfl := of_decide_eq_true (pure_eq_ok.mp hij)
  exact List.mem_of_getElem? (hd.getBlockIdForNum_eq_ok hi).2

omit [DecidableEq Id] in
/-- What the fork database still holds is in its index. -/
theorem mem_index (hd : d.Sound B chain) {x u : ForkItem Block} (hx : x ∈ d.forkDb.index) (hu : u ∈ x.trail)
    (hown : d.forkDb.owned [] u) : u ∈ d.forkDb.index := by
  obtain ⟨y, hy, hserial⟩ := List.any_eq_true.mp hown
  have hyi : y ∈ d.forkDb.index := by
    rw [List.nil_append, List.mem_append] at hy
    rcases hy with hy | hy
    · exact hy
    · exact hd.indexed y (Option.mem_toList.mp hy)
  obtain rfl := hd.addressed.distinct y u (leads_index hyi) ((leads_index hx).trail hu) (of_decide_eq_true hserial)
  exact hyi

theorem known_of_index (x : ForkItem Block) (hx : x ∈ d.forkDb.index) : d.isKnownBlock B (B.id x.block) := by
  have hfind : (d.forkDb.find B (B.id x.block)).isSome := by
    rw [ForkDatabase.find, List.find?_isSome]
    exact ⟨x, hx, decide_eq_true rfl⟩
  rw [isKnownBlock, hfind, Bool.true_or]

/-- The fork of a block: the blocks of it, which are known, and the block of the chain that it starts after. -/
theorem getBlockIdsOnFork (hd : d.Sound B chain) (h : d.getBlockIdsOnFork B j = .ok l) :
    ∃ k m, k ≤ chain.length ∧ B.Linked (chain.take k ++ m) ∧ m.getLast? = some j ∧ (∀ i ∈ m, d.isKnownBlock B i) ∧
      l = m.reverse ++ [(chain.take k).getLast?.getD B.zero] := by
  obtain ⟨⟨first, second⟩, hbranches, h⟩ := bind_eq_ok.mp h
  have hfetch : d.forkDb.fetchBranchFrom B d.headBlockId j = .ok (first, second) := by
    cases hres : d.forkDb.fetchBranchFrom B d.headBlockId j with
    | error e => rw [hres] at hbranches; cases hbranches
    | ok r => rw [hres] at hbranches; rw [Except.ok.inj hbranches]
  obtain ⟨x, y, hx, hy, -⟩ := fetchBranchFrom_eq_ok hfetch
  obtain ⟨hxi, hxid⟩ := find_eq_some hx
  obtain ⟨hyi, hyid⟩ := find_eq_some hy
  have hxc := hd.items x hxi
  have hyc := hd.items y hyi
  obtain ⟨a, c, l', m', rfl, rfl, hs⟩ := siblings_of_fetch hx hy hxc hyc hfetch
  simp only [List.getLast?_concat] at h
  obtain rfl := pure_eq_ok.mp h
  obtain ⟨hhead, hchain⟩ := isChain_of_path hyc hs.second
  have hheadmem : d.headBlockId ∈ chain := by
    rcases List.eq_nil_or_concat chain with hnil | ⟨rest, z, hrest⟩
    · rw [hd.head, hnil] at hxid
      have hparent : B.Parent (B.id x.block) (B.previous x.block) := ⟨x.block, rfl, rfl⟩
      exact absurd hxid hparent.ne_zero
    · rw [hd.head, hrest, List.concat_eq_append, List.getLast?_concat]
      simp
  -- The common ancestor is an ancestor of the head.
  have hancestor := previous_of_path hxc hs.first
  rw [hxid] at hancestor
  have hcommon : ∃ k ≤ chain.length, B.previous a.block = (chain.take k).getLast?.getD B.zero := by
    rcases hd.linked.mem_of_ancestor hheadmem hancestor with hzero | hmem
    · exact ⟨0, Nat.zero_le _, by rw [hzero, List.take_zero]; rfl⟩
    · exact ⟨_, hd.linked.num_le hmem, by rw [hd.linked.getLast?_take_num hmem]; rfl⟩
  obtain ⟨k, hk, hcommon⟩ := hcommon
  refine ⟨k, ((m' ++ [c]).map fun u => B.id u.block).reverse, hk, ?_, ?_, ?_, ?_⟩
  · refine Blocks.linked_append.mpr ⟨hd.linked.take k, ?_⟩
    rw [← hcommon, hs.previous, ← List.reverse_concat, List.isChain_reverse]
    have hids : ((m' ++ [c]).map fun u => B.id u.block).IsChain B.Parent := by
      refine List.isChain_map_of_isChain _ (fun u v huv => ?_) hchain
      exact ⟨u.block, rfl, huv⟩
    rw [List.map_append, List.map_singleton] at hids ⊢
    refine List.IsChain.append_overlap hids ?_ (List.cons_ne_nil _ _)
    exact List.isChain_pair.mpr ⟨c.block, rfl, rfl⟩
  · rw [List.getLast?_reverse, List.head?_map, hhead, Option.map_some, hyid]
  · intro i hi
    obtain ⟨u, hu, rfl⟩ := List.mem_map.mp (List.mem_reverse.mp hi)
    refine known_of_index u ?_
    rcases own_of_heldTo hs.secondHeld hs.second hu with rfl | hown
    · exact hyi
    · exact hd.mem_index hyi (mem_trail_of_path hs.second hu) hown
  · rw [List.reverse_reverse, hcommon]

/-! ### The synopsis -/

theorem idAt_eq (hd : d.Sound B chain) {k : Nat} (hk : k ≤ chain.length) {m : List Id} (hn : 0 < n)
    (hle : n ≤ (chain.take k ++ m).length) : ∃ i, d.idAt B k m n = .ok i ∧ (chain.take k ++ m)[n - 1]? = some i := by
  have hlength : (chain.take k).length = k := by rw [List.length_take, min_eq_left hk]
  rw [List.length_append, hlength] at hle
  unfold ChainDatabase.idAt
  by_cases hkn : n ≤ k
  · have hget : chain[n - 1]? = some chain[n - 1] := List.getElem?_eq_getElem (by omega)
    have hok := hd.getBlockIdForNum hget
    rw [Nat.sub_add_cancel hn] at hok
    refine ⟨_, by rw [if_pos hkn, hok], ?_⟩
    rw [List.getElem?_append_left (by omega), List.getElem?_take_of_lt (by omega), hget]
  · have hget : m[n - k - 1]? = some m[n - k - 1] := List.getElem?_eq_getElem (by omega)
    refine ⟨_, by rw [if_neg hkn, hget], ?_⟩
    rw [List.getElem?_append_right (by omega), hlength, show n - 1 - k = n - k - 1 by omega, hget]

theorem summarize_eq (hd : d.Sound B chain) (low after : Nat) {k : Nat} (hk : k ≤ chain.length) {m : List Id}
    (hv : 0 < (chain.take k ++ m).length) (hlow : low ≤ (chain.take k ++ m).length) (hlinked : B.Linked (chain.take k ++ m))
    (hknown : ∀ i ∈ m, d.isKnownBlock B i) :
    ∃ synopsis, d.summarize B low k (chain.take k ++ m).length after m = .ok synopsis ∧
      Summarizes B d (chain.take k ++ m) (max low 1) after synopsis := by
  have hmax : (if low = 0 then 1 else low) = max low 1 := by
    split
    · next h => rw [h, max_eq_right (Nat.zero_le 1)]
    · next h => rw [max_eq_left (Nat.one_le_iff_ne_zero.mpr h)]
  have hle : max low 1 ≤ (chain.take k ++ m).length := max_le hlow hv
  have hpositions : approachUpTo ((chain.take k ++ m).length + after) (chain.take k ++ m).length ((chain.take k ++ m).length - max low 1)
      (max low 1) = (approach ((chain.take k ++ m).length + after) (max low 1)).filter (· ≤ (chain.take k ++ m).length) :=
    approachUpTo_eq hle (Nat.le_add_right _ _) (by omega)
  have hall : ∀ n ∈ (approach ((chain.take k ++ m).length + after) (max low 1)).filter (· ≤ (chain.take k ++ m).length),
      ∃ i, d.idAt B k m n = .ok i ∧ (chain.take k ++ m)[n - 1]? = some i := by
    intro n hn
    obtain ⟨hmem, hn⟩ := List.mem_filter.mp hn
    have hfirst := first_le hmem
    exact hd.idAt_eq hk (by omega) (of_decide_eq_true hn)
  refine ⟨_, ?_, hlinked, fun i hi => ?_, by omega, hle, rfl⟩
  · unfold ChainDatabase.summarize
    rw [hmax]
    dsimp only
    rw [hpositions, mapM_eq_filterMap hall]
    rfl
  · rcases List.mem_append.mp hi with hi | hi
    · exact hd.known (List.mem_of_mem_take hi)
    · exact hknown i hi

/-- Without a reference point the synopsis is of the whole chain, and there is none of an empty one. -/
theorem getBlockchainSynopsis_zero (hd : d.Sound B chain) (after : Nat) :
    chain = [] ∧ d.getBlockchainSynopsis B B.zero after = .ok [] ∨
    ∃ synopsis, d.getBlockchainSynopsis B B.zero after = .ok synopsis ∧
      Summarizes B d chain (max (chain.length - d.undoSize) 1) after synopsis := by
  unfold ChainDatabase.getBlockchainSynopsis
  rw [hd.headBlockNum, hd.lastNonUndoable]
  simp only [ne_eq, not_true_eq_false, if_false]
  rcases List.eq_nil_or_concat chain with rfl | ⟨rest, z, hrest⟩
  · exact .inl ⟨rfl, rfl⟩
  · have hpos : 0 < chain.length := by simp [hrest]
    have hwhole : chain.take chain.length ++ [] = chain := by rw [List.take_length, List.append_nil]
    obtain ⟨synopsis, hok, hsummary⟩ := hd.summarize_eq (chain.length - d.undoSize) after (m := []) le_rfl
      (by rwa [hwhole]) (by rw [hwhole]; exact Nat.sub_le _ _) (by rw [hwhole]; exact hd.linked) fun i hi => absurd hi List.not_mem_nil
    rw [hwhole] at hok hsummary
    exact .inr ⟨synopsis, by rw [if_neg hpos.ne', hok], hsummary⟩

/-- With a block of the chain it is of the chain up to this block. -/
theorem getBlockchainSynopsis_included (hd : d.Sound B chain) (hj : j ∈ chain) (after : Nat) :
    ∃ synopsis, d.getBlockchainSynopsis B j after = .ok synopsis ∧
      Summarizes B d (chain.take (B.numFromId j)) (max (min (chain.length - d.undoSize) (B.numFromId j)) 1) after synopsis := by
  have hpos := (hd.linked.getElem?_num hj).1
  have hle := hd.linked.num_le hj
  have hlength : (chain.take (B.numFromId j) ++ []).length = B.numFromId j := by
    rw [List.append_nil, List.length_take, min_eq_left hle]
  obtain ⟨synopsis, hok, hsummary⟩ := hd.summarize_eq (min (chain.length - d.undoSize) (B.numFromId j)) after (m := [])
    hle (by rwa [hlength]) (by rw [hlength]; exact min_le_right _ _) (by rw [List.append_nil]; exact hd.linked.take _)
    fun i hi => absurd hi List.not_mem_nil
  rw [List.append_nil] at hok hsummary hlength
  refine ⟨synopsis, ?_, hsummary⟩
  unfold ChainDatabase.getBlockchainSynopsis
  rw [if_pos (hd.linked.ne_zero hj), hd.isIncludedBlock hj, ok_bind, if_pos rfl, hd.lastNonUndoable]
  refine bind_eq_ok.mpr ⟨(), ensure_eq_ok.mpr hpos, ?_⟩
  rw [hlength] at hok
  exact hok

/-- Whatever the reference point is, the synopsis is of a chain of known blocks that ends with it. -/
theorem getBlockchainSynopsis_eq_ok (hd : d.Sound B chain) {after : Nat} {synopsis : List Id} (hj : j ≠ B.zero)
    (h : d.getBlockchainSynopsis B j after = .ok synopsis) :
    ∃ v low, v.getLast? = some j ∧ low ≤ max (chain.length - d.undoSize) 1 ∧ Summarizes B d v low after synopsis := by
  have hkept := h
  unfold ChainDatabase.getBlockchainSynopsis at h
  rw [if_pos hj] at h
  obtain ⟨included, hincluded, h⟩ := bind_eq_ok.mp h
  cases included with
  | true =>
    have hmem := hd.mem_of_isIncludedBlock hincluded
    obtain ⟨synopsis', hok, hsummary⟩ := hd.getBlockchainSynopsis_included hmem after
    obtain rfl := Except.ok.inj (hok.symm.trans hkept)
    exact ⟨_, _, hd.linked.getLast?_take_num hmem, by omega, hsummary⟩
  | false =>
    rw [if_neg Bool.false_ne_true] at h
    obtain ⟨history, hhistory, h⟩ := bind_eq_ok.mp h
    obtain ⟨k, m, hk, hlinked, hlast, hknown, rfl⟩ := hd.getBlockIdsOnFork hhistory
    obtain ⟨-, -, h⟩ := bind_eq_ok.mp h
    obtain ⟨_, hlow, h⟩ := bind_eq_ok.mp h
    have hm : 0 < m.length := by
      cases m with
      | nil => cases hlast
      | cons => exact Nat.succ_pos _
    have hnum : B.numFromId ((chain.take k).getLast?.getD B.zero) = k := by
      rw [(hd.linked.take k).num_last, List.length_take, min_eq_left hk]
    have hhigh : (if (chain.take k).getLast?.getD B.zero = B.zero then 0 else B.numFromId ((chain.take k).getLast?.getD B.zero)) = k := by
      split
      · next hzero => rw [← hnum, hzero, B.numFromId_zero]
      · exact hnum
    have hlength : (chain.take k ++ m).length = k + m.length := by rw [List.length_append, List.length_take, min_eq_left hk]
    simp only [List.getLast?_concat, Option.getD_some, List.dropLast_concat, List.reverse_reverse, hhigh, ensure_eq_ok] at hlow h
    obtain ⟨synopsis', hok, hsummary⟩ := hd.summarize_eq (d.lastNonUndoableBlockNum B) after hk (by omega) (by omega)
      hlinked hknown
    rw [hlength, h] at hok
    obtain rfl := Except.ok.inj hok
    exact ⟨_, _, by rw [List.getLast?_append_of_ne_nil _ (List.ne_nil_of_length_pos hm), hlast], by rw [hd.lastNonUndoable], hsummary⟩

end ChainDatabase.Sound

/-! ### What is picked from a chain -/

section
variable {d : ChainDatabase Block Id} {v w S l : List Id} {i j : Id} {n low after : Nat} {synopsis : List Id}

omit [DecidableEq Id] in
theorem mem_of_mem_pick {nums : List Nat} (h : i ∈ pick v nums) : i ∈ v := by
  obtain ⟨n, -, hn⟩ := List.mem_filterMap.mp h
  exact List.mem_of_getElem? hn

omit [DecidableEq Id] in
theorem getLast?_pick {nums : List Nat} (h : nums.getLast? = some n) (hv : v[n - 1]? = some i) : (pick v nums).getLast? = some i := by
  obtain ⟨front, rfl⟩ := List.getLast?_eq_some_iff.mp h
  have hsingle : [n].filterMap (fun n => v[n - 1]?) = [i] := List.filterMap_cons_some hv
  rw [pick, List.filterMap_append, hsingle, List.getLast?_concat]

omit [DecidableEq Id] in
theorem pick_congr {nums : List Nat} (h : ∀ n ∈ nums, v[n - 1]? = w[n - 1]?) : pick v nums = pick w nums :=
  List.filterMap_congr h

omit [DecidableEq Id] in
/-- A stretch of a chain -/
theorem pick_range' {k m : Nat} (h : k + m ≤ v.length) : pick v (List.range' (k + 1) m) = (v.drop k).take m := by
  induction m generalizing k with
  | zero => rw [List.take_zero]; rfl
  | succ m ih =>
    have hget : v[k]? = some v[k] := List.getElem?_eq_getElem (by omega)
    rw [List.range'_succ, List.drop_eq_getElem_cons (by omega), List.take_succ_cons, ← ih (by omega), pick,
      List.filterMap_cons_some (by exact hget)]
    rfl

theorem Summarizes.head? (h : Summarizes B d v low after synopsis) : synopsis.head? = v[low - 1]? := by
  have hpos := h.pos
  have hle := h.low_le
  have hget : v[low - 1]? = some v[low - 1] := List.getElem?_eq_getElem (by omega)
  rw [h.synopsis, approach, List.filter_cons_of_pos (by simpa using hle), pick, List.filterMap_cons_some (by exact hget), hget]
  rfl

/-- The node completes the synopsis as if the blocks that the peer has listed were on the chain: the two loops fit together. -/
theorem createBlockchainSynopsisForPeer_eq {p : Peer Id} (h : Summarizes B d v low p.idsOfItemsToGet.length synopsis)
    (hok : d.getBlockchainSynopsis B p.lastBlockDelegateHasSeen p.idsOfItemsToGet.length = .ok synopsis)
    (hlinked : B.Linked (v ++ p.idsOfItemsToGet)) :
    d.createBlockchainSynopsisForPeer B p =
      .ok (pick (v ++ p.idsOfItemsToGet) (approach (v ++ p.idsOfItemsToGet).length low)) := by
  have hpos := h.pos
  have hle := h.low_le
  have hhead := h.head?
  have hsynopsis := h.synopsis
  unfold ChainDatabase.createBlockchainSynopsisForPeer
  rw [hok, ok_bind]
  generalize p.idsOfItemsToGet = ids at *
  rw [List.length_append]
  cases ids with
  | nil =>
    rw [List.append_nil, hsynopsis, List.filter_eq_self.mpr fun n hn => by simpa using le_last (by simpa using hle) hn]
    rfl
  | cons first rest =>
    have hfirst : B.numFromId first = v.length + 1 := hlinked.num (by simp)
    have hlow : (synopsis.head?.map B.numFromId).getD 1 = low := by
      have hget : v[low - 1]? = some v[low - 1] := List.getElem?_eq_getElem (by omega)
      rw [hhead, hget, Option.map_some, Option.getD_some, h.linked.num hget]
      omega
    have hhigh : v.length + 1 + rest.length = v.length + (first :: rest).length := by
      rw [List.length_cons]
      omega
    have hlast : (v ++ first :: rest)[v.length + (first :: rest).length - 1]? = (first :: rest).getLast? := by
      rw [List.getElem?_append_right (by simp), List.getLast?_eq_getElem?]
      congr 1
      simp
    have hall : ∀ n ∈ (approach (v.length + (first :: rest).length) low).filter (v.length + 1 ≤ ·),
        ∃ i, itemAt (first :: rest) (v.length + 1) n = .ok i ∧ (v ++ first :: rest)[n - 1]? = some i := by
      intro n hn
      obtain ⟨hmem, hn⟩ := List.mem_filter.mp hn
      have hn := of_decide_eq_true hn
      have hbound := le_last (by omega) hmem
      have hget : (first :: rest)[n - (v.length + 1)]? = some (first :: rest)[n - (v.length + 1)] :=
        List.getElem?_eq_getElem (by omega)
      refine ⟨(first :: rest)[n - (v.length + 1)], by rw [itemAt, hget], ?_⟩
      rw [List.getElem?_append_right (by omega), show n - 1 - v.length = n - (v.length + 1) by omega, hget]
    have hfront : synopsis = pick (v ++ first :: rest) ((approach (v.length + (first :: rest).length) low).filter (· ≤ v.length)) := by
      rw [hsynopsis]
      refine pick_congr fun n hn => ?_
      obtain ⟨hmem, hn⟩ := List.mem_filter.mp hn
      have hn := of_decide_eq_true hn
      have hfirst := first_le hmem
      rw [List.getElem?_append_left (by omega)]
    have hwhole : synopsis ++ pick (v ++ first :: rest) ((approach (v.length + (first :: rest).length) low).filter (v.length + 1 ≤ ·)) =
        pick (v ++ first :: rest) (approach (v.length + (first :: rest).length) low) := by
      rw [hfront, pick, pick, pick, ← List.filterMap_append, filter_append_filter approach_pairwise]
    dsimp only
    rw [hlow, hfirst, hhigh, approachUpTo_last (by omega) (by omega), mapM_eq_filterMap hall, ok_bind]
    refine bind_eq_ok.mpr ⟨(), ensure_eq_ok.mpr ?_, congrArg Except.ok hwhole⟩
    have hlastId : (first :: rest).getLast? = some ((first :: rest).getLast (List.cons_ne_nil _ _)) := List.getLast?_eq_some_getLast _
    refine Eq.trans (congrArg List.getLast? hwhole) ?_
    rw [hlastId] at hlast ⊢
    exact getLast?_pick (getLast?_approach (by omega)) hlast

end

/-! ### Small databases -/

section
variable {n i : Nat}

/-- A node that has the first blocks of the only chain there is -/
def Sample.database (n : Nat) : ChainDatabase UInt8 Nat :=
  ⟨{}, ⟨(List.range n).map UInt8.ofNat, ⟨0, 0, 0⟩ :: (List.range n).map fun k => ⟨k, 1, k + 1⟩⟩, n, 0⟩

theorem Sample.linked (h : n ≤ 256) : Khc.Block.Sample.blocks.Linked (List.range' 1 n) := by
  have hall : ∀ k n, k + n ≤ 256 → (List.range' k (n + 1)).IsChain fun i j => Khc.Block.Sample.blocks.Parent j i := by
    intro k n
    induction n generalizing k with
    | zero => exact fun _ => List.isChain_singleton _
    | succ n ih =>
      intro hle
      have hk : (UInt8.ofNat k).toNat = k := UInt8.toNat_ofNat_of_lt' (by rw [UInt8.size]; omega)
      exact List.isChain_cons_cons.mpr ⟨⟨UInt8.ofNat k, congrArg (· + 1) hk, hk⟩, ih (k + 1) (by omega)⟩
  exact hall 0 n (by omega)

theorem Sample.sound (h : n ≤ 256) : (Sample.database n).Sound Khc.Block.Sample.blocks (List.range' 1 n) where
  linked := Sample.linked h
  small := by rw [List.length_range']; omega
  head := by
    rcases Nat.eq_zero_or_pos n with rfl | hn
    · rfl
    · rw [List.getLast?_range', if_neg hn.ne', Option.getD_some]
      exact (by omega : n = 1 + n - 1)
  stored k j hj := by
    obtain ⟨hk, rfl⟩ := List.getElem?_eq_some_iff.mp hj
    rw [List.length_range'] at hk
    refine ⟨⟨k, 1, k + 1⟩, ?_, ?_, Nat.one_pos⟩
    · rw [Sample.database, List.getElem?_cons_succ, List.getElem?_map, List.getElem?_range hk]
      rfl
    · rw [List.getElem_range', one_mul, add_comm]
  above k hk := by
    rw [List.length_range'] at hk
    refine List.getElem?_eq_none ?_
    rw [Sample.database, List.length_cons, List.length_map, List.length_range]
    exact hk
  undo := Nat.zero_le _
  items x hx := absurd hx List.not_mem_nil
  addressed := by
    have hnone : ∀ u, ¬Leads [] (Sample.database n).forkDb u := by
      rintro u ⟨x, hx | hx | hx, -⟩ <;> cases hx
    exact ⟨fun u hu => absurd hu (hnone u), fun u v hu => absurd hu (hnone u), fun _ => rfl⟩
  indexed x hx := absurd hx (Option.not_mem_none x)

theorem Sample.mem_of_known (h : (Sample.database n).isKnownBlock Khc.Block.Sample.blocks i) : i ∈ List.range' 1 n := by
  have hcontains : (Sample.database n).blockIdToBlock.contains Khc.Block.Sample.blocks i = true := h
  unfold BlockDatabase.contains at hcontains
  split at hcontains
  · cases hcontains
  · next hne =>
    split at hcontains
    · cases hcontains
    · next e he =>
      have hlt := (List.getElem?_eq_some_iff.mp he).1
      have hlength : (Sample.database n).blockIdToBlock.blockNumToPos.length = n + 1 := by
        rw [Sample.database, List.length_cons, List.length_map, List.length_range]
      have hi : i < n + 1 := hlength ▸ hlt
      have hne : i ≠ 0 := hne
      exact List.mem_range'_1.mpr (by omega)

end

end Khc.Net
