import Khc.Net.Replies

/-! The exchanges of a node with one peer that keeps to the protocol, with everything that may come between them. -/

namespace Khc.Net

open Lib Fork ChainDatabase
open Khc.Block (Codec)

variable {Block Id : Type} [DecidableEq Id] {B : Blocks Block Id} {C : Codec Block} {timestamp : Block → Nat} {d : ChainDatabase Block Id}
  {S l synopsis : List Id} {i j first : Id} {rest : List Id} {p : Peer Id} {m : Inventory Id} {n k limit bound : Nat}

/-! ### The items that are put to the list -/

theorem flushSeen_spec (d : ChainDatabase Block Id) (l : List Id) (seen : Id) :
    ∃ a, l = a ++ (d.flushSeen B l seen).1 ∧ (∀ i ∈ a, d.isKnownBlock B i) ∧
      (∀ i ∈ (d.flushSeen B l seen).1.head?, ¬d.isKnownBlock B i) ∧ (d.flushSeen B l seen).2 = a.getLast?.getD seen := by
  induction l generalizing seen with
  | nil => exact ⟨[], rfl, fun i hi => absurd hi List.not_mem_nil, fun i hi => absurd hi (by simp [flushSeen]), rfl⟩
  | cons x l ih =>
    rw [flushSeen]
    split
    · next hknown =>
      obtain ⟨a, hl, ha, hhead, hseen⟩ := ih x
      refine ⟨x :: a, congrArg (x :: ·) hl, List.forall_mem_cons.mpr ⟨hknown, ha⟩, hhead, ?_⟩
      rw [hseen, List.getLast?_cons, Option.getD_some]
    · next hunknown =>
      refine ⟨[], rfl, fun i hi => absurd hi List.not_mem_nil, fun i hi => ?_, rfl⟩
      obtain rfl := Option.some.inj hi
      exact hunknown

/-- What becomes of the list where it was empty, where it has nothing in common with the items, and where they extend it -/
theorem appendItems_cases (d : ChainDatabase Block Id) (C : Codec Block) (timestamp : Block → Nat) (p : Peer Id) (first : Id)
    (rest : List Id) :
    (p.idsOfItemsToGet = [] ∧ ∃ a ids, first :: rest = a ++ ids ∧ (∀ i ∈ a, d.isKnownBlock B i) ∧ (∀ i ∈ ids.head?, ¬d.isKnownBlock B i) ∧
      (a = [] ∧ d.appendItems B C timestamp p (first :: rest) = { p with idsOfItemsToGet := ids } ∨
       ∃ seen, a.getLast? = some seen ∧ d.appendItems B C timestamp p (first :: rest) =
        { p with idsOfItemsToGet := ids, lastBlockDelegateHasSeen := seen,
                 lastBlockTimeDelegateHasSeen := d.getBlockTime B C timestamp seen })) ∨
    (p.idsOfItemsToGet ≠ [] ∧ first ∉ p.idsOfItemsToGet ∧ d.appendItems B C timestamp p (first :: rest) =
      { p with idsOfItemsToGet := rest, lastBlockDelegateHasSeen := first,
               lastBlockTimeDelegateHasSeen := d.getBlockTime B C timestamp first }) ∨
    ∃ a b, p.idsOfItemsToGet = a ++ first :: b ∧ d.appendItems B C timestamp p (first :: rest) =
      { p with idsOfItemsToGet := a ++ first :: rest } := by
  by_cases hnil : p.idsOfItemsToGet = []
  · obtain ⟨a, hsplit, ha, hhead, hseen⟩ := flushSeen_spec (B := B) d (first :: rest) p.lastBlockDelegateHasSeen
    refine .inl ⟨hnil, a, _, hsplit, ha, hhead, ?_⟩
    rw [appendItems, if_pos hnil]
    dsimp only
    rcases List.eq_nil_or_concat a with rfl | ⟨a, seen, rfl⟩
    · have hall : (d.flushSeen B (first :: rest) p.lastBlockDelegateHasSeen).1 = first :: rest := hsplit.symm
      rw [if_pos hall]
      exact .inl ⟨rfl, rfl⟩
    · rw [List.concat_eq_append, List.getLast?_concat, Option.getD_some] at hseen
      have hne : (d.flushSeen B (first :: rest) p.lastBlockDelegateHasSeen).1 ≠ first :: rest := by
        intro heq
        have hlength := congrArg List.length hsplit
        rw [heq, List.length_append, List.length_concat] at hlength
        omega
      rw [if_neg hne, hseen]
      exact .inr ⟨seen, by rw [List.concat_eq_append, List.getLast?_concat], rfl⟩
  · refine .inr ?_
    rw [appendItems, if_neg hnil]
    dsimp only
    by_cases hmem : first ∈ p.idsOfItemsToGet
    · obtain ⟨b, a, hreverse, hb⟩ := List.eq_append_cons_of_mem (List.mem_reverse.mpr hmem)
      have hids : p.idsOfItemsToGet = a.reverse ++ first :: b.reverse := by
        rw [← List.reverse_reverse p.idsOfItemsToGet, hreverse]
        simp
      have hkept : p.idsOfItemsToGet.reverse.dropWhile (fun x => decide (x ≠ first)) = first :: a := by
        rw [hreverse, List.dropWhile_append_of_pos fun x hx => decide_eq_true (ne_of_mem_of_not_mem hx hb),
          List.dropWhile_cons_of_neg (by simp)]
      rw [hkept, List.reverse_cons, if_neg (by simp), List.dropLast_concat]
      exact .inr ⟨_, _, hids, rfl⟩
    · have hkept : p.idsOfItemsToGet.reverse.dropWhile (fun x => decide (x ≠ first)) = [] := by
        refine List.dropWhile_eq_nil_iff.mpr fun x hx => decide_eq_true ?_
        rintro rfl
        exact hmem (List.mem_reverse.mp hx)
      rw [hkept, List.reverse_nil, if_pos rfl]
      exact .inl ⟨hnil, hmem, rfl⟩

theorem getBlockTime_cases (d : ChainDatabase Block Id) (C : Codec Block) (timestamp : Block → Nat) (i : Id) :
    d.getBlockTime B C timestamp i = 0 ∨ ∃ b, B.id b = i ∧ d.getBlockTime B C timestamp i = timestamp b := by
  unfold getBlockTime
  cases hfetch : d.fetchBlockById B C i with
  | none => exact .inl rfl
  | some b =>
    refine .inr ⟨b, ?_, rfl⟩
    unfold fetchBlockById at hfetch
    split at hfetch
    · next x hx =>
      obtain rfl := Option.some.inj hfetch
      exact (ForkDatabase.find_eq_some hx).2
    · obtain ⟨-, -, -, -, hid⟩ := Khc.Block.BlockDatabase.fetchOptional_eq_some.mp hfetch
      exact hid

/-! ### Timestamps -/

/-- Each block is later than the one before it, and none is later than the bound. -/
structure Timely (B : Blocks Block Id) (timestamp : Block → Nat) (bound : Nat) (S : List Id) : Prop where
  grows : ∀ a b, B.id b ∈ S → B.previous b = B.id a → timestamp a < timestamp b
  bounded : ∀ b, B.id b ∈ S → timestamp b ≤ bound

omit [DecidableEq Id] in
theorem exists_block (hS : B.Linked S) (hi : S[k]? = some i) : ∃ b, B.id b = i ∧ B.previous b = (S.take k).getLast?.getD B.zero := hS.parent hi

omit [DecidableEq Id] in
/-- The number of the blocks between is a bound of the seconds between. -/
theorem Timely.add_le (ht : Timely B timestamp bound S) (hS : B.Linked S) {a b : Block} (ha : S[k]? = some (B.id a))
    (hb : S[k + n]? = some (B.id b)) : timestamp a + n ≤ timestamp b := by
  induction n generalizing b with
  | zero =>
    rw [B.id_injective a b (Option.some.inj (ha.symm.trans hb))]
    rfl
  | succ n ih =>
    have hlt := (List.getElem?_eq_some_iff.mp hb).1
    have hget : S[k + n]? = some S[k + n] := List.getElem?_eq_getElem (by omega)
    obtain ⟨c, hc, -⟩ := exists_block hS hget
    obtain ⟨b', hb', hprevious⟩ := exists_block hS hb
    obtain rfl := B.id_injective _ _ hb'
    rw [show k + (n + 1) = k + n + 1 from rfl, List.take_add_one, hget, Option.toList_some, List.getLast?_concat, Option.getD_some,
      ← hc] at hprevious
    have hbefore := ih (hget.trans (congrArg some hc.symm))
    have hgrows := ht.grows c b' (List.mem_of_getElem? hb) hprevious
    omega

theorem Sample.timely {n bound : Nat} (h : n ≤ bound) : Timely Khc.Block.Sample.blocks UInt8.toNat bound (List.range' 1 n) where
  grows a b _ hprevious := by
    have heq : b.toNat = a.toNat + 1 := hprevious
    omega
  bounded b hb := by
    obtain ⟨k, hk, heq⟩ := List.mem_range'.mp hb
    have hid : b.toNat + 1 = 1 + 1 * k := heq
    omega

/-- The list continues after the last block that the node has of the peer, and its times are within the bound. -/
structure Peer.Follows (B : Blocks Block Id) (timestamp : Block → Nat) (bound : Nat) (p : Peer Id) : Prop where
  continues : (p.lastBlockDelegateHasSeen :: p.idsOfItemsToGet).IsChain fun i j => B.Parent j i
  time : ∀ b, B.id b = p.lastBlockDelegateHasSeen → p.lastBlockTimeDelegateHasSeen ≤ timestamp b
  start : p.lastBlockDelegateHasSeen = B.zero → p.lastBlockTimeDelegateHasSeen = 0
  bounded : p.lastBlockTimeDelegateHasSeen ≤ bound
  listed : ∀ b, B.id b ∈ p.idsOfItemsToGet → timestamp b ≤ bound

omit [DecidableEq Id] in
/-- As many blocks may follow a block of the chain as do. -/
theorem Timely.plausible (ht : Timely B timestamp bound S) (hS : B.Linked S) {time : Nat} (hlimit : 0 < limit) (hn : n < S.length)
    (hlast : i = B.zero ∧ time = 0 ∨ ∃ k < n + limit, S[k]? = some i) (htime : ∀ b, B.id b = i → time ≤ timestamp b) :
    time + (S.length - n - limit) ≤ bound := by
  have hend : S[S.length - 1]? = some S[S.length - 1] := List.getElem?_eq_getElem (by omega)
  obtain ⟨c, hc, -⟩ := exists_block hS hend
  have hbound := ht.bounded c (hc ▸ List.getElem_mem _)
  rcases hlast with ⟨rfl, rfl⟩ | ⟨k, hk, hget⟩
  · have hget : S[0]? = some S[0] := List.getElem?_eq_getElem (by omega)
    obtain ⟨a, ha, -⟩ := exists_block hS hget
    have hle := ht.add_le hS (a := a) (b := c) (n := S.length - 1) (ha ▸ hget) (by rw [Nat.zero_add, hc]; exact hend)
    omega
  · have hlt := (List.getElem?_eq_some_iff.mp hget).1
    obtain ⟨a, ha, -⟩ := exists_block hS hget
    have hle := ht.add_le hS (a := a) (b := c) (n := S.length - 1 - k) (ha ▸ hget)
      (by rw [show k + (S.length - 1 - k) = S.length - 1 by omega, hc]; exact hend)
    have hseen := htime a ha
    omega

/-- A reply from the chain of an honest peer extends the list, and the number of the ids that are left is plausible. -/
theorem Peer.Follows.appendItems (h : p.Follows B timestamp bound) (hS : B.Linked S) (ht : Timely B timestamp bound S) (hlimit : 0 < limit)
    (hm : Replies S synopsis limit m n) (hknown : ∀ i ∈ synopsis, d.isKnownBlock B i ∨ i ∈ p.idsOfItemsToGet)
    (hnil : synopsis = [] → p.idsOfItemsToGet = [] ∧ p.lastBlockDelegateHasSeen = B.zero) :
    (d.appendItems B C timestamp p m.itemHashesAvailable).Follows B timestamp bound ∧
      (d.appendItems B C timestamp p m.itemHashesAvailable).lastBlockTimeDelegateHasSeen + m.totalRemainingItemCount ≤ bound := by
  have hplace := hm.place
  have hget : S[n]? = some S[n] := List.getElem?_eq_getElem hplace
  obtain ⟨rest, hitems⟩ := List.head?_eq_some_iff.mp ((hm.head? hlimit).trans hget)
  have hsplit := hm.items.symm.trans hitems
  have hmemS : ∀ i ∈ S[n] :: rest, i ∈ S := fun i hi => List.mem_of_mem_drop (List.mem_of_mem_take (hsplit ▸ hi))
  have hplaces : ∀ i ∈ S[n] :: rest, ∃ k < n + limit, S[k]? = some i := by
    intro i hi
    rw [← hsplit] at hi
    obtain ⟨k, hk⟩ := List.mem_iff_getElem?.mp hi
    have hlt := (List.getElem?_eq_some_iff.mp hk).1
    rw [List.length_take] at hlt
    rw [List.getElem?_take_of_lt (by omega), List.getElem?_drop] at hk
    exact ⟨n + k, by omega, hk⟩
  have hchain : ((S.take n).getLast?.getD B.zero :: S[n] :: rest).IsChain fun i j => B.Parent j i := by
    have hlinked := hS.take (n + limit)
    rw [List.take_add, hsplit] at hlinked
    exact (Blocks.linked_append.mp hlinked).2
  have htime : ∀ i b, B.id b = i → d.getBlockTime B C timestamp i ≤ timestamp b := by
    intro i b hb
    rcases getBlockTime_cases (B := B) d C timestamp i with hzero | ⟨b', hb', heq⟩
    · rw [hzero]
      exact Nat.zero_le _
    · rw [heq, B.id_injective _ _ (hb.trans hb'.symm)]
  have hbounded : ∀ i ∈ S, d.getBlockTime B C timestamp i ≤ bound := by
    intro i hi
    rcases getBlockTime_cases (B := B) d C timestamp i with hzero | ⟨b', rfl, heq⟩
    · rw [hzero]
      exact Nat.zero_le _
    · rw [heq]
      exact ht.bounded b' hi
  rw [hitems, hm.remaining]
  rcases appendItems_cases (B := B) d C timestamp p S[n] rest with ⟨hids, a, ids, hids', ha, hhead, h' | h'⟩ | ⟨-, -, heq⟩ | ⟨a, b, hids, heq⟩
  · -- Nothing is flushed: the request was for the blocks from the first one on.
    obtain ⟨rfl, heq⟩ := h'
    obtain rfl : ids = S[n] :: rest := hids'.symm
    rcases hm.start with ⟨rfl, rfl⟩ | ⟨i, hi, hin⟩
    · obtain ⟨-, hlast⟩ := hnil rfl
      rw [heq]
      refine ⟨⟨?_, h.time, h.start, h.bounded, fun b hb => ht.bounded b (hmemS _ hb)⟩, ?_⟩
      · dsimp only
        rw [hlast]
        exact hchain
      · exact ht.plausible hS hlimit hplace (.inl ⟨hlast, h.start hlast⟩) h.time
    · obtain rfl := Option.some.inj (hget.symm.trans hin)
      rcases hknown _ hi with hknown | hmem
      · exact absurd hknown (hhead _ rfl)
      · rw [hids] at hmem
        cases hmem
  · obtain ⟨seen, hseen, heq⟩ := h'
    have hmem : seen ∈ S[n] :: rest := hids' ▸ List.mem_append_left _ (List.mem_of_getLast? hseen)
    rw [heq]
    refine ⟨⟨?_, htime seen, fun hzero => absurd hzero (hS.ne_zero (hmemS _ hmem)), hbounded _ (hmemS _ hmem), ?_⟩, ?_⟩
    · obtain ⟨front, rfl⟩ := List.getLast?_eq_some_iff.mp hseen
      rw [hids', List.append_assoc, ← List.cons_append] at hchain
      exact hchain.right_of_append
    · exact fun b hb => ht.bounded b (hmemS _ (hids' ▸ List.mem_append_right _ hb))
    · exact ht.plausible hS hlimit hplace (.inr (hplaces _ hmem)) (htime seen)
  · rw [heq]
    refine ⟨⟨(List.isChain_cons_cons.mp hchain).2, htime _, fun hzero => absurd hzero (hS.ne_zero (List.getElem_mem _)),
      hbounded _ (List.getElem_mem _), fun b hb => ht.bounded b (hmemS _ (List.mem_cons_of_mem _ hb))⟩, ?_⟩
    exact ht.plausible hS hlimit hplace (.inr (hplaces _ List.mem_cons_self)) (htime _)
  · rw [heq]
    have hcontinues := h.continues
    rw [hids, ← List.cons_append, List.isChain_split] at hcontinues
    -- The last block that the node has of the peer is before those of the list, and so on the chain of the peer, too.
    have hlast : p.lastBlockDelegateHasSeen = B.zero ∨ p.lastBlockDelegateHasSeen ∈ S.take (n + 1) := by
      have hpath := List.relationReflTransGen_of_exists_isChain_cons (a ++ [S[n]]) hcontinues.1
        (by rw [List.getLast_cons (List.append_ne_nil_of_right_ne_nil _ (List.cons_ne_nil _ _)), List.getLast_concat])
      refine (hS.take (n + 1)).mem_of_ancestor (i := S[n]) ?_ (Relation.reflTransGen_swap.mp hpath)
      exact List.mem_of_getElem? ((List.getElem?_take_of_lt (Nat.lt_succ_self n)).trans hget)
    refine ⟨⟨?_, h.time, h.start, h.bounded, fun b hb => ?_⟩, ht.plausible hS hlimit hplace ?_ h.time⟩
    · dsimp only
      rw [← List.cons_append, List.isChain_split]
      exact ⟨hcontinues.1, (List.isChain_cons_cons.mp hchain).2⟩
    · rcases List.mem_append.mp hb with hb | hb
      · exact h.listed b (hids ▸ List.mem_append_left _ hb)
      · exact ht.bounded b (hmemS _ hb)
    · rcases hlast with hzero | hmem
      · exact .inl ⟨hzero, h.start hzero⟩
      · obtain ⟨k, hk⟩ := List.mem_iff_getElem?.mp hmem
        have hlt := (List.getElem?_eq_some_iff.mp hk).1
        rw [List.length_take] at hlt
        rw [List.getElem?_take_of_lt (by omega)] at hk
        exact .inr ⟨k, by omega, hk⟩

/-! ### The steps -/

/-- A node that synchronises with one peer, and the messages on the way between them -/
structure Sync (Block Id : Type) where
  client : ChainDatabase Block Id
  peer : Peer Id
  now : Nat
  request : Option (List Id)
  reply : Option (Inventory Id)

variable (B C timestamp) in
/-- What may happen. The chain of the peer may be another one each time that it replies, and the one of the node changes as it likes, as
    long as the blocks stay known that the node has named to the peer. A block of the list is handed to the chain database and
    accepted at once: none is being processed while another thing happens. -/
inductive Sync.Step : Sync Block Id → Sync Block Id → Prop
  | clock (s : Sync Block Id) (now : Nat) (h : s.now ≤ now) : Step s { s with now := now }
  | client (s : Sync Block Id) (d : ChainDatabase Block Id) (chain : List Id) (hd : d.Sound B chain)
      (hknown : ∀ synopsis ∈ s.peer.itemIdsRequestedFromPeer, ∀ i ∈ synopsis, s.client.isKnownBlock B i → d.isKnownBlock B i) :
      Step s { s with client := d }
  /-- `send_sync_block_to_node_delegate`, with the `pop_front` of `process_backlog_of_sync_blocks` -/
  | accept (s : Sync Block Id) (d : ChainDatabase Block Id) (chain : List Id) (b : Block) (rest : List Id) (hd : d.Sound B chain)
      (hknown : ∀ synopsis ∈ s.peer.itemIdsRequestedFromPeer, ∀ i ∈ synopsis, s.client.isKnownBlock B i → d.isKnownBlock B i)
      (hids : s.peer.idsOfItemsToGet = B.id b :: rest) (haccepted : d.isKnownBlock B (B.id b)) :
      Step s { s with client := d, peer := { s.peer with
        idsOfItemsToGet := rest, lastBlockDelegateHasSeen := B.id b, lastBlockTimeDelegateHasSeen := timestamp b } }
  | start (s : Sync Block Id) (h : s.peer.itemIdsRequestedFromPeer = none) : Step s { s with peer := Peer.start B }
  /-- `fetch_next_batch_of_item_ids_from_peer` -/
  | fetch (s : Sync Block Id) (synopsis : List Id) (h : s.peer.itemIdsRequestedFromPeer = none)
      (hok : s.client.createBlockchainSynopsisForPeer B s.peer = .ok synopsis) :
      Step s { s with peer := { s.peer with itemIdsRequestedFromPeer := some synopsis }, request := some synopsis }
  | serve (s : Sync Block Id) (server : ChainDatabase Block Id) (S synopsis : List Id) (m : Inventory Id) (hserver : server.Sound B S)
      (ht : Timely B timestamp (s.now + futureSyncBlocksGracePeriodSec) S) (hrequest : s.request = some synopsis)
      (hok : server.onFetchBlockchainItemIds B blockIdsLimit synopsis = .ok m) : Step s { s with request := none, reply := some m }
  | receive (s : Sync Block Id) (m : Inventory Id) (p : Peer Id) (next : Option Next) (hreply : s.reply = some m)
      (hok : s.client.onBlockchainItemIdsInventory B C timestamp s.now s.peer m = .ok (p, next)) :
      Step s { s with peer := p, reply := none }

end Khc.Net
