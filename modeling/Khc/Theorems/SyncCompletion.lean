import Khc.Theorems.SyncProtocol

/-! The exchanges of two nodes whose chains stay as they are come to an end, and the node then has a list of what it lacks. -/

namespace Khc.Net

open Lib Fork ChainDatabase
open Khc.Block (Codec)

variable {Block Id : Type} [DecidableEq Id] {B : Blocks Block Id} {C : Codec Block} {timestamp : Block → Nat}
  {client server d : ChainDatabase Block Id} {S chain synopsis l v : List Id} {i : Id} {p p' : Peer Id} {m : Inventory Id}
  {next : Next} {k k' n t bound now limit : Nat}

/-! ### The synopsis of a node that has a list -/

omit [DecidableEq Id] in
/-- Every picked number of a chain is that of a block. -/
theorem pick_ne_nil {nums : List Nat} (h : n ∈ nums) (hpos : 0 < n) (hle : n ≤ v.length) : pick v nums ≠ [] := by
  have hget : v[n - 1]? = some v[n - 1] := List.getElem?_eq_getElem (by omega)
  exact List.ne_nil_of_mem (List.mem_filterMap.mpr ⟨n, h, hget⟩)

/-- A node without blocks asks for what comes after its list. -/
theorem createBlockchainSynopsisForPeer_nil (hok : d.getBlockchainSynopsis B p.lastBlockDelegateHasSeen p.idsOfItemsToGet.length = .ok [])
    (hlinked : B.Linked p.idsOfItemsToGet) (hne : p.idsOfItemsToGet ≠ []) :
    d.createBlockchainSynopsisForPeer B p = .ok (pick p.idsOfItemsToGet (approach p.idsOfItemsToGet.length 1)) := by
  unfold createBlockchainSynopsisForPeer
  rw [hok, ok_bind]
  generalize p.idsOfItemsToGet = ids at *
  cases ids with
  | nil => exact absurd rfl hne
  | cons first rest =>
    have hfirst : B.numFromId first = 1 := hlinked.num (k := 0) rfl
    have hlength : 1 + rest.length = (first :: rest).length := Nat.add_comm _ _
    have hall : ∀ n ∈ approach (first :: rest).length 1, ∃ i, itemAt (first :: rest) 1 n = .ok i ∧ (first :: rest)[n - 1]? = some i := by
      intro n hn
      have hpos := first_le hn
      have hle := le_last (by rw [← hlength]; omega) hn
      have hget : (first :: rest)[n - 1]? = some (first :: rest)[n - 1] := List.getElem?_eq_getElem (by omega)
      exact ⟨_, by rw [itemAt, hget], hget⟩
    have hfilter : (approach (first :: rest).length 1).filter (1 ≤ ·) = approach (first :: rest).length 1 :=
      List.filter_eq_self.mpr fun n hn => decide_eq_true (first_le hn)
    have hlast : (pick (first :: rest) (approach (first :: rest).length 1)).getLast? = (first :: rest).getLast? := by
      have hget : (first :: rest)[(first :: rest).length - 1]? = (first :: rest).getLast? := List.getLast?_eq_getElem?.symm
      rw [List.getLast?_eq_some_getLast (List.cons_ne_nil _ _)] at hget ⊢
      exact getLast?_pick (getLast?_approach (by rw [← hlength]; omega)) hget
    dsimp only
    rw [List.head?_nil, Option.map_none, Option.getD_none, hfirst, hlength, approachUpTo_last (by rw [← hlength]; omega) (by omega), hfilter,
      mapM_eq_filterMap hall, ok_bind]
    exact bind_eq_ok.mpr ⟨(), ensure_eq_ok.mpr hlast, rfl⟩

/-! ### Exchanges -/

/-- A request, its reply, and what the node does with it -/
def Exchange (B : Blocks Block Id) (C : Codec Block) (timestamp : Block → Nat) (client server : ChainDatabase Block Id) (now : Nat)
    (p p' : Peer Id) (next : Next) : Prop :=
  ∃ synopsis m, client.createBlockchainSynopsisForPeer B p = .ok synopsis ∧
    server.onFetchBlockchainItemIds B blockIdsLimit synopsis = .ok m ∧
    client.onBlockchainItemIdsInventory B C timestamp now { p with itemIdsRequestedFromPeer := some synopsis } m = .ok (p', some next)

/-- So many exchanges, up to the first one after which the node does not fetch the next ids at once -/
inductive Exchanges (B : Blocks Block Id) (C : Codec Block) (timestamp : Block → Nat) (client server : ChainDatabase Block Id) (now : Nat) :
    Nat → Peer Id → Peer Id → Next → Prop
  | last {p p' : Peer Id} {next : Next} (h : Exchange B C timestamp client server now p p' next) (hnext : next ≠ .fetchNextBatchOfItemIds) :
      Exchanges B C timestamp client server now 1 p p' next
  | more {p p' p'' : Peer Id} {next : Next} {count : Nat} (h : Exchange B C timestamp client server now p p' .fetchNextBatchOfItemIds)
      (hrest : Exchanges B C timestamp client server now count p' p'' next) : Exchanges B C timestamp client server now (count + 1) p p'' next

/-- The node has the first `k` blocks of the chain of the peer, and in its list there are those after them up to the number `t`. -/
structure Listing (B : Blocks Block Id) (timestamp : Block → Nat) (d : ChainDatabase Block Id) (bound : Nat) (S : List Id) (k t : Nat)
    (p : Peer Id) : Prop where
  le : k ≤ t
  pos : 0 < t
  le_length : t ≤ S.length
  list : S.take k ++ p.idsOfItemsToGet = S.take t
  last : p.lastBlockDelegateHasSeen = (S.take k).getLast?.getD B.zero
  known : ∀ i ∈ S.take k, d.isKnownBlock B i
  fresh : ∀ i ∈ p.idsOfItemsToGet.head?, ¬d.isKnownBlock B i
  unfetched : p.numberOfUnfetchedItemIds = S.length - t
  follows : p.Follows B timestamp bound

/-- What comes next after the list has changed -/
def Peer.nextStep (p : Peer Id) : Next :=
  if p.numberOfUnfetchedItemIds ≠ 0 then
    if minBlockIdsToPrefetch < p.idsOfItemsToGet.length then .fetchSyncItems else .fetchNextBatchOfItemIds
  else if p.idsOfItemsToGet.isEmpty then .fetchNextBatchOfItemIds else .fetchSyncItems

theorem appendItems_request (d : ChainDatabase Block Id) (p : Peer Id) (r : Option (List Id)) (l : List Id) :
    d.appendItems B C timestamp { p with itemIdsRequestedFromPeer := r } l =
      { d.appendItems B C timestamp p l with itemIdsRequestedFromPeer := r } := by
  cases l with
  | nil => rfl
  | cons first rest =>
    unfold appendItems
    dsimp only
    by_cases hnil : p.idsOfItemsToGet = []
    · rw [if_pos hnil, if_pos hnil]
      split <;> rfl
    · rw [if_neg hnil, if_neg hnil]
      split <;> rfl

/-- What a reply from the chain of the peer does to the list, unless it says that there is nothing more -/
theorem onBlockchainItemIdsInventory_eq (hS : B.Linked S) (ht : Timely B timestamp (now + futureSyncBlocksGracePeriodSec) S)
    (hfollows : p.Follows B timestamp (now + futureSyncBlocksGracePeriodSec)) (hm : Replies S synopsis blockIdsLimit m n)
    (hknown : ∀ i ∈ synopsis, d.isKnownBlock B i ∨ i ∈ p.idsOfItemsToGet)
    (hnil : synopsis = [] → p.idsOfItemsToGet = [] ∧ p.lastBlockDelegateHasSeen = B.zero)
    (hmore : ¬(m.totalRemainingItemCount = 0 ∧ (m.itemHashesAvailable = [] ∨ ∃ id ∈ m.itemHashesAvailable.head?,
      m.itemHashesAvailable.length = 1 ∧ d.isKnownBlock B id) ∧ p.idsOfItemsToGet = [] ∧ p.numberOfUnfetchedItemIds = 0)) :
    ∃ p', d.onBlockchainItemIdsInventory B C timestamp now { p with itemIdsRequestedFromPeer := some synopsis } m = .ok (p', some p'.nextStep) ∧
      p'.Follows B timestamp (now + futureSyncBlocksGracePeriodSec) ∧ p'.numberOfUnfetchedItemIds = S.length - n - blockIdsLimit ∧
      p'.idsOfItemsToGet = (d.appendItems B C timestamp p m.itemHashesAvailable).idsOfItemsToGet ∧
      p'.lastBlockDelegateHasSeen = (d.appendItems B C timestamp p m.itemHashesAvailable).lastBlockDelegateHasSeen := by
  obtain ⟨hfollows', hplausible⟩ := Peer.Follows.appendItems (d := d) (C := C) (p := { p with itemIdsRequestedFromPeer := none })
    { hfollows with } hS ht (by decide) hm hknown hnil
  refine ⟨{ d.appendItems B C timestamp { p with itemIdsRequestedFromPeer := none } m.itemHashesAvailable with
    numberOfUnfetchedItemIds := m.totalRemainingItemCount }, ?_, { hfollows' with }, hm.remaining, ?_, ?_⟩
  · unfold onBlockchainItemIdsInventory
    dsimp only
    rw [hm.check hS (by decide), ok_bind, if_neg hmore, minBlockInterval, mul_one, ensure, if_pos hplausible]
    rfl
  · rw [appendItems_request]
  · rw [appendItems_request]

/-- The reply to a node that lists the chain of the peer, or has no list yet -/
theorem listing_of_reply (hS : B.Linked S) (ht : Timely B timestamp (now + futureSyncBlocksGracePeriodSec) S)
    (hfollows : p.Follows B timestamp (now + futureSyncBlocksGracePeriodSec)) (hm : Replies S synopsis blockIdsLimit m n)
    (hlist : p.idsOfItemsToGet = [] ∧ (∀ i ∈ S.take n, d.isKnownBlock B i) ∧
        ((∀ i ∈ S[n]?, d.isKnownBlock B i) ∨ n = 0 ∧ p.lastBlockDelegateHasSeen = B.zero) ∨
      p.idsOfItemsToGet ≠ [] ∧ Listing B timestamp d (now + futureSyncBlocksGracePeriodSec) S k (n + 1) p)
    (hknown : ∀ i ∈ synopsis, d.isKnownBlock B i ∨ i ∈ p.idsOfItemsToGet)
    (hnil : synopsis = [] → p.idsOfItemsToGet = [] ∧ p.lastBlockDelegateHasSeen = B.zero)
    (hmore : ¬(m.totalRemainingItemCount = 0 ∧ (m.itemHashesAvailable = [] ∨ ∃ id ∈ m.itemHashesAvailable.head?,
      m.itemHashesAvailable.length = 1 ∧ d.isKnownBlock B id) ∧ p.idsOfItemsToGet = [] ∧ p.numberOfUnfetchedItemIds = 0)) :
    ∃ p' k', d.onBlockchainItemIdsInventory B C timestamp now { p with itemIdsRequestedFromPeer := some synopsis } m = .ok (p', some p'.nextStep) ∧
      Listing B timestamp d (now + futureSyncBlocksGracePeriodSec) S k' (min S.length (n + blockIdsLimit)) p' := by
  obtain ⟨p', hok, hfollows', hunfetched, hids', hlast'⟩ := onBlockchainItemIdsInventory_eq hS ht hfollows hm hknown hnil hmore
  have hplace := hm.place
  have hget : S[n]? = some S[n] := List.getElem?_eq_getElem hplace
  obtain ⟨rest, hitems⟩ := List.head?_eq_some_iff.mp ((hm.head? (by decide)).trans hget)
  have hsplit := hm.items.symm.trans hitems
  have hend : S.take n ++ S[n] :: rest = S.take (min S.length (n + blockIdsLimit)) := by
    rw [← hsplit, ← List.take_add]
    exact List.take_eq_take_iff.mpr (by omega)
  have hpos : 0 < min S.length (n + blockIdsLimit) := by
    have : 0 < blockIdsLimit := by decide
    omega
  have hleft : S.length - n - blockIdsLimit = S.length - min S.length (n + blockIdsLimit) := by omega
  have hlength : (S.take n).length = n := by rw [List.length_take, min_eq_left hplace.le]
  rw [hitems] at hids' hlast'
  refine ⟨p', ?_⟩
  rcases hlist with ⟨hempty, hbefore, hfirst⟩ | ⟨hne, hlisting⟩
  · rcases appendItems_cases (B := B) d C timestamp p S[n] rest with ⟨-, a, ids, hsplit', ha, hhead, happend⟩ | ⟨hne, -⟩ | ⟨a, b, hids, -⟩
    · rw [hsplit'] at hend
      have htotal := congrArg List.length hend
      rw [List.length_append, List.length_append, hlength, List.length_take] at htotal
      have hk : S.take (n + a.length) = S.take n ++ a := by
        calc S.take (n + a.length) = (S.take (min S.length (n + blockIdsLimit))).take (n + a.length) := by
              rw [List.take_take, min_eq_left (by omega)]
          _ = S.take n ++ a := by
              rw [← hend, ← List.append_assoc, List.take_left' (by rw [List.length_append, hlength])]
      refine ⟨n + a.length, hok, by omega, hpos, min_le_left _ _, ?_, ?_, ?_, ?_, hunfetched.trans hleft, hfollows'⟩
      · rw [hk, List.append_assoc, ← hend, hids']
        rcases happend with ⟨-, heq⟩ | ⟨seen, -, heq⟩ <;> rw [heq]
      · rcases happend with ⟨rfl, heq⟩ | ⟨seen, hseen, heq⟩
        · -- The first item is not known: there has been nothing in common.
          rcases hfirst with hfirst | ⟨rfl, hzero⟩
          · exact absurd (hfirst _ hget) (hhead _ (congrArg List.head? hsplit').symm)
          · rw [hlast', heq, hzero]
            rfl
        · rw [hlast', heq, hk, List.getLast?_append, hseen]
          rfl
      · rw [hk]
        exact List.forall_mem_append.mpr ⟨hbefore, ha⟩
      · rw [hids']
        rcases happend with ⟨-, heq⟩ | ⟨seen, -, heq⟩ <;> rw [heq] <;> exact hhead
    · exact absurd hempty hne
    · rw [hempty] at hids
      cases a <;> cases hids
  · have hlist := hlisting.list
    have hnext : S.take (n + 1) = S.take n ++ [S[n]] := by rw [List.take_add_one, hget, Option.toList_some]
    rcases appendItems_cases (B := B) d C timestamp p S[n] rest with ⟨hempty, -⟩ | ⟨-, hnot, -⟩ | ⟨a, b, hids, happend⟩
    · exact absurd hempty hne
    · refine absurd (List.mem_of_getLast? ?_) hnot
      have hlast := congrArg List.getLast? (hlist.trans hnext)
      rw [List.getLast?_append_of_ne_nil _ hne, List.getLast?_concat] at hlast
      exact hlast
    · have hwhole : S.take k ++ a ++ S[n] :: b = S.take (n + 1) := by
        rw [List.append_assoc, ← hids]
        exact hlist
      have hle := hlisting.le
      have hkn : (S.take k).length = k := by
        rw [List.length_take]
        omega
      have hplaced : (S.take (n + 1))[k + a.length]? = some S[n] := by
        rw [← hwhole, List.getElem?_append_right (by rw [List.length_append, hkn]), List.length_append, hkn, Nat.sub_self]
        rfl
      have hnum := (hS.take (n + 1)).num hplaced
      rw [hS.num hget] at hnum
      have hfront : S.take k ++ a = S.take n := by
        calc S.take k ++ a = (S.take (n + 1)).take n := by
              rw [← hwhole, List.take_left' (by rw [List.length_append, hkn]; omega)]
          _ = S.take n := by rw [List.take_take, min_eq_left (Nat.le_succ n)]
      refine ⟨k, hok, ?_, hpos, min_le_left _ _, ?_, ?_, hlisting.known, ?_, hunfetched.trans hleft, hfollows'⟩
      · have : 0 < blockIdsLimit := by decide
        omega
      · rw [hids', happend, ← List.append_assoc, hfront, hend]
      · rw [hlast', happend]
        exact hlisting.last
      · have hfresh := hlisting.fresh
        rw [hids] at hfresh
        rw [hids', happend]
        cases a <;> exact hfresh

/-! ### One exchange -/

section
variable (hclient : client.Sound B chain) (hserver : server.Sound B S) (ht : Timely B timestamp (now + futureSyncBlocksGracePeriodSec) S)

include hclient in
/-- The request of a node that lists the chain of the peer ends with the last block of the list. -/
theorem request_of_listing (hS : B.Linked S) (hlisting : Listing B timestamp client bound S k t p)
    (hreach : ∀ i ∈ S, client.isKnownBlock B i → ∀ after, ∃ synopsis, client.getBlockchainSynopsis B i after = .ok synopsis)
    (hfirst : chain ≠ [] → ∀ i ∈ S[0]?, client.isKnownBlock B i) :
    ∃ synopsis, client.createBlockchainSynopsisForPeer B p = .ok synopsis ∧ synopsis.getLast? = S[t - 1]? ∧ ∀ i ∈ synopsis, i ∈ S.take t := by
  have hle := hlisting.le
  have hpos := hlisting.pos
  have hlength := hlisting.le_length
  have hlist := hlisting.list
  have htotal : (S.take t).length = t := by rw [List.length_take, min_eq_left hlength]
  have hend : (S.take t)[t - 1]? = S[t - 1]? := List.getElem?_take_of_lt (by omega)
  have hget : S[t - 1]? = some S[t - 1] := List.getElem?_eq_getElem (by omega)
  have hpicked : ∀ low, 0 < low → low ≤ t → (pick (S.take t) (approach (S.take t).length low)).getLast? = S[t - 1]? := by
    intro low hlow hlow'
    rw [htotal, hget]
    exact getLast?_pick (getLast?_approach hlow') (hend.trans hget)
  rcases Nat.eq_zero_or_pos k with rfl | hk
  · have hids : p.idsOfItemsToGet = S.take t := hlist
    have hne : p.idsOfItemsToGet ≠ [] := by
      rw [hids]
      exact List.ne_nil_of_length_pos (by rw [htotal]; exact hpos)
    -- The node does not know the first block, so that it has none.
    have hchain : chain = [] := by
      by_contra hchain
      have hzero : S[0]? = some S[0] := List.getElem?_eq_getElem (by omega)
      refine hlisting.fresh S[0] ?_ (hfirst hchain _ hzero)
      rw [hids, List.head?_take, if_neg hpos.ne', List.head?_eq_getElem?]
      exact hzero
    have hlast : p.lastBlockDelegateHasSeen = B.zero := hlisting.last
    have hok : client.getBlockchainSynopsis B p.lastBlockDelegateHasSeen p.idsOfItemsToGet.length = .ok [] := by
      rw [hlast]
      rcases hclient.getBlockchainSynopsis_zero p.idsOfItemsToGet.length with ⟨-, hok⟩ | ⟨synopsis, -, hsummary⟩
      · exact hok
      · have hlow := hsummary.pos
        have hlow' := hsummary.low_le
        rw [hchain, List.length_nil] at hlow'
        omega
    refine ⟨_, createBlockchainSynopsisForPeer_nil hok (hids ▸ hS.take t) hne, ?_, ?_⟩
    · rw [hids]
      exact hpicked 1 Nat.one_pos hpos
    · rw [hids]
      exact fun i hi => mem_of_mem_pick hi
  · have hlast : p.lastBlockDelegateHasSeen = S[k - 1] := by
      rw [hlisting.last, List.getLast?_take, if_neg hk.ne', List.getElem?_eq_getElem (by omega), Option.some_or, Option.getD_some]
    have hmem : S[k - 1] ∈ S.take k := List.mem_of_getElem? ((List.getElem?_take_of_lt (by omega)).trans (List.getElem?_eq_getElem (by omega)))
    obtain ⟨synopsis, hok⟩ := hreach S[k - 1] (List.getElem_mem _) (hlisting.known _ hmem) p.idsOfItemsToGet.length
    obtain ⟨v, low, hv, -, hsummary⟩ := hclient.getBlockchainSynopsis_eq_ok (hS.ne_zero (List.getElem_mem _)) hok
    have hnum : B.numFromId S[k - 1] = k := by
      rw [hS.num (List.getElem?_eq_getElem (by omega))]
      omega
    obtain rfl : v = S.take k := by
      have hvlength := hsummary.linked.num_last
      rw [hv, Option.getD_some, hnum] at hvlength
      have heq := hsummary.linked.take_eq_of_mem hS (List.mem_of_getLast? hv) (List.getElem_mem _)
      rwa [hnum, List.take_of_length_le hvlength.ge] at heq
    have hlow := hsummary.low_le
    rw [List.length_take, min_eq_left (by omega)] at hlow
    have hcreate := createBlockchainSynopsisForPeer_eq hsummary (hlast ▸ hok) (hlist ▸ hS.take t)
    rw [hlist] at hcreate
    exact ⟨_, hcreate, hpicked low hsummary.pos (by omega), fun i hi => mem_of_mem_pick hi⟩

include hserver in
/-- The reply to a synopsis that ends with a block of the chain starts with this block. -/
theorem reply_of_last (hlast : synopsis.getLast? = some i) (hi : S[n]? = some i) :
    ∃ m, server.onFetchBlockchainItemIds B blockIdsLimit synopsis = .ok m ∧ Replies S synopsis blockIdsLimit m n := by
  have hmem : i ∈ S := List.mem_of_getElem? hi
  refine replies_of_lastKnownBlock hserver (by decide) ?_ hi (List.mem_of_getLast? hlast)
  obtain ⟨front, rfl⟩ := List.getLast?_eq_some_iff.mp hlast
  rw [List.reverse_concat, lastKnownBlock, if_neg (hserver.linked.ne_zero hmem), if_pos (hserver.known hmem), hserver.isIncludedBlock hmem]
  rfl

include hclient hserver ht in
/-- While the list is not complete, an exchange makes it longer. -/
theorem exchange_more (hlisting : Listing B timestamp client (now + futureSyncBlocksGracePeriodSec) S k t p) (hlt : t < S.length)
    (hreach : ∀ i ∈ S, client.isKnownBlock B i → ∀ after, ∃ synopsis, client.getBlockchainSynopsis B i after = .ok synopsis)
    (hfirst : chain ≠ [] → ∀ i ∈ S[0]?, client.isKnownBlock B i) :
    ∃ p' k', Exchange B C timestamp client server now p p' p'.nextStep ∧
      Listing B timestamp client (now + futureSyncBlocksGracePeriodSec) S k' (min S.length (t - 1 + blockIdsLimit)) p' := by
  have hpos := hlisting.pos
  have hlinked := hserver.linked
  have hget : S[t - 1]? = some S[t - 1] := List.getElem?_eq_getElem (by omega)
  obtain ⟨synopsis, hcreate, hlast, hall⟩ := request_of_listing hclient hlinked hlisting hreach hfirst
  obtain ⟨m, hfetch, hm⟩ := reply_of_last hserver (hlast.trans hget) hget
  have hknown : ∀ i ∈ synopsis, client.isKnownBlock B i ∨ i ∈ p.idsOfItemsToGet := by
    intro i hi
    have hmem := hall i hi
    rw [← hlisting.list, List.mem_append] at hmem
    exact hmem.imp_left (hlisting.known i)
  have hnil : synopsis = [] → p.idsOfItemsToGet = [] ∧ p.lastBlockDelegateHasSeen = B.zero := by
    rintro rfl
    cases hlast.trans hget
  have hmore : ¬(m.totalRemainingItemCount = 0 ∧ (m.itemHashesAvailable = [] ∨ ∃ id ∈ m.itemHashesAvailable.head?,
      m.itemHashesAvailable.length = 1 ∧ client.isKnownBlock B id) ∧ p.idsOfItemsToGet = [] ∧ p.numberOfUnfetchedItemIds = 0) := by
    rintro ⟨-, -, -, hzero⟩
    rw [hlisting.unfetched] at hzero
    omega
  have hlist : p.idsOfItemsToGet = [] ∧ (∀ i ∈ S.take (t - 1), client.isKnownBlock B i) ∧
        ((∀ i ∈ S[t - 1]?, client.isKnownBlock B i) ∨ t - 1 = 0 ∧ p.lastBlockDelegateHasSeen = B.zero) ∨
      p.idsOfItemsToGet ≠ [] ∧ Listing B timestamp client (now + futureSyncBlocksGracePeriodSec) S k (t - 1 + 1) p := by
    rw [Nat.sub_add_cancel hpos]
    by_cases hempty : p.idsOfItemsToGet = []
    · have hlist := hlisting.list
      rw [hempty, List.append_nil] at hlist
      have hknown := hlisting.known
      rw [hlist] at hknown
      refine .inl ⟨hempty, fun i hi => hknown i ?_, .inl fun i hi => hknown i ?_⟩
      · exact (List.take_prefix_take_left (by omega)).subset hi
      · exact List.mem_of_getElem? ((List.getElem?_take_of_lt (by omega)).trans hi)
    · exact .inr ⟨hempty, hlisting⟩
  obtain ⟨p', k', hok, hlisting'⟩ := listing_of_reply (C := C) hlinked ht hlisting.follows hm hlist hknown hnil hmore
  exact ⟨p', k', ⟨synopsis, m, hcreate, hfetch, hok⟩, hlisting'⟩

include hclient hserver in
/-- After everything in the list is there, an exchange says that there is nothing more. -/
theorem exchange_last (hlisting : Listing B timestamp client (now + futureSyncBlocksGracePeriodSec) S k S.length p) (hids : p.idsOfItemsToGet = [])
    (hreach : ∀ i ∈ S, client.isKnownBlock B i → ∀ after, ∃ synopsis, client.getBlockchainSynopsis B i after = .ok synopsis)
    (hfirst : chain ≠ [] → ∀ i ∈ S[0]?, client.isKnownBlock B i) :
    (∃ p', Exchange B C timestamp client server now p p' .upToDate) ∧ ∀ i ∈ S, client.isKnownBlock B i := by
  have hpos := hlisting.pos
  have hlinked := hserver.linked
  have hget : S[S.length - 1]? = some S[S.length - 1] := List.getElem?_eq_getElem (by omega)
  have hlist := hlisting.list
  rw [hids, List.append_nil, List.take_length] at hlist
  have hknown : ∀ i ∈ S, client.isKnownBlock B i := fun i hi => hlisting.known i (hlist.symm ▸ hi)
  obtain ⟨synopsis, hcreate, hlast, hall⟩ := request_of_listing hclient hlinked hlisting hreach hfirst
  obtain ⟨m, hfetch, hm⟩ := reply_of_last hserver (hlast.trans hget) hget
  have hitems : m.itemHashesAvailable = [S[S.length - 1]] := by
    have hlength : 0 < blockIdsLimit := by decide
    rw [hm.items, List.drop_eq_getElem_cons (by omega), show S.length - 1 + 1 = S.length by omega, List.drop_length,
      List.take_of_length_le hlength]
  have hremaining : m.totalRemainingItemCount = 0 := by
    have hlength : 0 < blockIdsLimit := by decide
    rw [hm.remaining]
    omega
  have hunfetched : p.numberOfUnfetchedItemIds = 0 := by rw [hlisting.unfetched, Nat.sub_self]
  refine ⟨⟨{ p with itemIdsRequestedFromPeer := none, weNeedSyncItemsFromPeer := false }, synopsis, m, hcreate, hfetch, ?_⟩, hknown⟩
  unfold onBlockchainItemIdsInventory
  dsimp only
  rw [hm.check hlinked (by decide), ok_bind,
    if_pos ⟨hremaining, .inr ⟨_, by rw [hitems]; rfl, by rw [hitems]; rfl, hknown _ (List.getElem_mem _)⟩, hids, hunfetched⟩]
  rfl

/-! ### Runs of exchanges -/

/-- The node has all blocks of the chain of the peer, or it has a list of those that it lacks: all of them, or many. -/
def Synchronized (B : Blocks Block Id) (client : ChainDatabase Block Id) (S : List Id) (p : Peer Id) (next : Next) : Prop :=
  (next = .upToDate ∧ ∀ i ∈ S, client.isKnownBlock B i) ∨
  (next = .fetchSyncItems ∧ ∃ k t, S.take k ++ p.idsOfItemsToGet = S.take t ∧ p.idsOfItemsToGet ≠ [] ∧
    (∀ i ∈ S.take k, client.isKnownBlock B i) ∧ (∀ i ∈ p.idsOfItemsToGet.head?, ¬client.isKnownBlock B i) ∧
    p.numberOfUnfetchedItemIds = S.length - t ∧ (t = S.length ∨ minBlockIdsToPrefetch < p.idsOfItemsToGet.length))

theorem Listing.synchronized (h : Listing B timestamp client bound S k t p) (hnext : p.nextStep ≠ .fetchNextBatchOfItemIds) :
    Synchronized B client S p p.nextStep := by
  have hle := h.le_length
  have hunfetched := h.unfetched
  unfold Peer.nextStep at hnext ⊢
  split at hnext
  · split at hnext
    · next hleft hmany =>
      rw [if_pos hleft, if_pos hmany]
      exact .inr ⟨rfl, k, t, h.list, List.ne_nil_of_length_pos (Nat.zero_lt_of_lt hmany), h.known, h.fresh, hunfetched, .inr hmany⟩
    · exact absurd rfl hnext
  · split at hnext
    · exact absurd rfl hnext
    · next hleft hids =>
      rw [if_neg hleft, if_neg hids]
      exact .inr ⟨rfl, k, t, h.list, fun hnil => hids (List.isEmpty_iff.mpr hnil), h.known, h.fresh, hunfetched, .inl (by omega)⟩

include hclient hserver ht in
theorem exchanges_of_listing (hlisting : Listing B timestamp client (now + futureSyncBlocksGracePeriodSec) S k t p)
    (hnext : p.nextStep = .fetchNextBatchOfItemIds)
    (hreach : ∀ i ∈ S, client.isKnownBlock B i → ∀ after, ∃ synopsis, client.getBlockchainSynopsis B i after = .ok synopsis)
    (hfirst : chain ≠ [] → ∀ i ∈ S[0]?, client.isKnownBlock B i) :
    ∃ count ≤ (S.length - t + 1998) / 1999 + 1, ∃ p' next, Exchanges B C timestamp client server now count p p' next ∧
      Synchronized B client S p' next := by
  induction hleft : S.length - t using Nat.strong_induction_on generalizing p k t with
  | _ left ih =>
    have hpos := hlisting.pos
    have hlimit : blockIdsLimit = 2000 := rfl
    rcases hlisting.le_length.eq_or_lt with rfl | hlt
    · have hids : p.idsOfItemsToGet = [] := by
        have hunfetched := hlisting.unfetched
        rw [Nat.sub_self] at hunfetched
        unfold Peer.nextStep at hnext
        rw [if_neg (not_not.mpr hunfetched)] at hnext
        split at hnext
        · next hempty => exact List.isEmpty_iff.mp hempty
        · cases hnext
      obtain ⟨⟨p', hexchange⟩, hknown⟩ := exchange_last (C := C) hclient hserver hlisting hids hreach hfirst
      refine ⟨1, by omega, p', .upToDate, .last hexchange (by decide), .inl ⟨rfl, hknown⟩⟩
    · obtain ⟨p', k', hexchange, hlisting'⟩ := exchange_more (C := C) hclient hserver ht hlisting hlt hreach hfirst
      by_cases hnext' : p'.nextStep = .fetchNextBatchOfItemIds
      · obtain ⟨count, hcount, p'', next, hrest, hdone⟩ := ih _ (by omega) hlisting' hnext' rfl
        exact ⟨count + 1, by omega, p'', next, .more (hnext' ▸ hexchange) hrest, hdone⟩
      · exact ⟨1, by omega, p', _, .last hexchange hnext', hlisting'.synchronized hnext'⟩

include hclient hserver in
/-- The first request names the chain of the node, and the reply starts at a block that both chains have, if the node has any blocks. -/
theorem first_exchange (hpos : 0 < S.length) (hbelow : ∀ i, server.isKnownBlock B i → B.numFromId i ≤ S.length)
    (hshared : ∀ i ∈ chain[max (chain.length - client.undoSize) 1 - 1]?, i ∈ S) :
    ∃ synopsis m n, client.createBlockchainSynopsisForPeer B (Peer.start B) = .ok synopsis ∧
      server.onFetchBlockchainItemIds B blockIdsLimit synopsis = .ok m ∧ Replies S synopsis blockIdsLimit m n ∧
      (∀ i ∈ synopsis, client.isKnownBlock B i) ∧ (∀ i ∈ S.take n, client.isKnownBlock B i) ∧
      ((∀ i ∈ S[n]?, client.isKnownBlock B i) ∨ n = 0 ∧ chain = []) := by
  have hcreate : client.createBlockchainSynopsisForPeer B (Peer.start B) = client.getBlockchainSynopsis B B.zero 0 := bind_pure _
  rw [hcreate]
  rcases hclient.getBlockchainSynopsis_zero 0 with ⟨hchain, hok⟩ | ⟨synopsis, hok, hsummary⟩
  · have hids : server.getBlockIds B [] blockIdsLimit = .ok ((S.drop 0).take blockIdsLimit, S.length - 0 - blockIdsLimit) :=
      getBlockIds_eq hserver (by decide) hpos (if_pos (.inl rfl)) (.inr ⟨rfl, rfl⟩)
    refine ⟨[], ⟨S.length - 0 - blockIdsLimit, (S.drop 0).take blockIdsLimit⟩, 0, hok, ?_, ⟨hpos, .inl ⟨rfl, rfl⟩, rfl, rfl⟩,
      fun i hi => absurd hi List.not_mem_nil, fun i hi => absurd hi (by simp), .inr ⟨rfl, hchain⟩⟩
    rw [onFetchBlockchainItemIds, hids]
  · have hmem : ∀ i ∈ synopsis, i ∈ chain := fun i hi => mem_of_mem_pick (hsummary.synopsis ▸ hi)
    have hlow := hsummary.pos
    have hlow' := hsummary.low_le
    have hget : chain[max (chain.length - client.undoSize) 1 - 1]? = some chain[max (chain.length - client.undoSize) 1 - 1] :=
      List.getElem?_eq_getElem (by omega)
    have hhead := List.mem_of_mem_head? (hsummary.head?.trans hget)
    obtain ⟨a, j, b, hsplit, hj, -, hfound⟩ := lastKnownBlock_of_mem hserver (l := synopsis.reverse)
      (fun i hi => hclient.linked.ne_zero (hmem i (List.mem_reverse.mp hi)))
      (fun i hi hknown => ⟨(hclient.linked.getElem?_num (hmem i (List.mem_reverse.mp hi))).1, hbelow i hknown⟩)
      (List.mem_reverse.mpr hhead) (hshared _ hget)
    have hjs : j ∈ synopsis := List.mem_reverse.mp (hsplit ▸ List.mem_append_right _ List.mem_cons_self)
    obtain ⟨hnum, hn⟩ := hserver.linked.getElem?_num hj
    have hwhole : S.take (B.numFromId j) = chain.take (B.numFromId j) := hserver.linked.take_eq_of_mem hclient.linked hj (hmem j hjs)
    have hboth : ∀ i ∈ S.take (B.numFromId j), client.isKnownBlock B i := by
      intro i hi
      rw [hwhole] at hi
      exact hclient.known (List.mem_of_mem_take hi)
    obtain ⟨m, hfetch, hm⟩ := replies_of_lastKnownBlock hserver (show 0 < blockIdsLimit by decide) hfound hn hjs
    refine ⟨synopsis, m, B.numFromId j - 1, hok, hfetch, hm, fun i hi => hclient.known (hmem i hi), fun i hi => hboth i ?_,
      .inl fun i hi => hboth i ?_⟩
    · exact (List.take_prefix_take_left (by omega)).subset hi
    · exact List.mem_of_getElem? ((List.getElem?_take_of_lt (by omega)).trans hi)

include hclient hserver ht in
/-- The node fetches ids until it is up to date with the peer or has a list of blocks to fetch, at most 1999 of them at a time. -/
theorem sync_completes (hbelow : ∀ i, server.isKnownBlock B i → B.numFromId i ≤ S.length)
    (hshared : ∀ i ∈ chain[max (chain.length - client.undoSize) 1 - 1]?, i ∈ S)
    (hreach : ∀ i ∈ S, client.isKnownBlock B i → ∀ after, ∃ synopsis, client.getBlockchainSynopsis B i after = .ok synopsis) :
    ∃ count ≤ S.length / 1999 + 2, ∃ p next, Exchanges B C timestamp client server now count (Peer.start B) p next ∧
      Synchronized B client S p next := by
  have hlinked := hserver.linked
  have hfollows : (Peer.start B).Follows B timestamp (now + futureSyncBlocksGracePeriodSec) :=
    ⟨List.isChain_singleton _, fun _ _ => Nat.zero_le _, fun _ => rfl, Nat.zero_le _, fun _ hb => absurd hb List.not_mem_nil⟩
  rcases Nat.eq_zero_or_pos S.length with hnil | hpos
  · obtain rfl := List.eq_nil_of_length_eq_zero hnil
    obtain ⟨synopsis, hcreate⟩ : ∃ synopsis, client.createBlockchainSynopsisForPeer B (Peer.start B) = .ok synopsis := by
      have hcreate : client.createBlockchainSynopsisForPeer B (Peer.start B) = client.getBlockchainSynopsis B B.zero 0 := bind_pure _
      rcases hclient.getBlockchainSynopsis_zero 0 with ⟨-, hok⟩ | ⟨synopsis, hok, -⟩
      · exact ⟨_, hcreate.trans hok⟩
      · exact ⟨_, hcreate.trans hok⟩
    have hids : server.getBlockIds B synopsis blockIdsLimit = .ok ([], 0) := by
      rw [getBlockIds, hserver.headBlockNum, if_pos hnil]
      rfl
    have hfetch : server.onFetchBlockchainItemIds B blockIdsLimit synopsis = .ok ⟨0, []⟩ := by rw [onFetchBlockchainItemIds, hids]
    exact ⟨1, by omega, { Peer.start B with weNeedSyncItemsFromPeer := false }, .upToDate, .last ⟨synopsis, _, hcreate, hfetch, rfl⟩ (by decide),
      .inl ⟨rfl, fun i hi => absurd hi List.not_mem_nil⟩⟩
  · obtain ⟨synopsis, m, n, hcreate, hfetch, hm, hknown, hbefore, hfirst⟩ := first_exchange hclient hserver hpos hbelow hshared
    have hplace := hm.place
    have hget : S[n]? = some S[n] := List.getElem?_eq_getElem hplace
    have hcommon : chain ≠ [] → ∀ i ∈ S[0]?, client.isKnownBlock B i := by
      intro hchain i hi
      rcases Nat.eq_zero_or_pos n with rfl | hn
      · exact (hfirst.resolve_right fun h => hchain h.2) i hi
      · exact hbefore i (List.mem_of_getElem? ((List.getElem?_take_of_lt hn).trans hi))
    by_cases hmore : m.totalRemainingItemCount = 0 ∧ (m.itemHashesAvailable = [] ∨ ∃ id ∈ m.itemHashesAvailable.head?,
        m.itemHashesAvailable.length = 1 ∧ client.isKnownBlock B id) ∧ (Peer.start B).idsOfItemsToGet = [] ∧
        (Peer.start B).numberOfUnfetchedItemIds = 0
    · have hupToDate := hmore
      obtain ⟨-, hitems, -⟩ := hmore
      have hhead := (hm.head? (by decide)).trans hget
      -- The only item is the last block of the chain, and it is known.
      have hall : ∀ i ∈ S, client.isKnownBlock B i := by
        rcases hitems with hempty | ⟨i, hi, hone, hlast⟩
        · rw [hempty] at hhead
          cases hhead
        · obtain rfl := Option.some.inj (hhead.symm.trans hi)
          have hlimit : blockIdsLimit = 2000 := rfl
          rw [hm.items, List.length_take, List.length_drop] at hone
          intro i hi
          rw [← List.take_of_length_le (i := n + 1) (l := S) (by omega), List.take_add_one, hget, List.mem_append] at hi
          rcases hi with hi | hi
          · exact hbefore i hi
          · rw [List.mem_singleton.mp hi]
            exact hlast
      refine ⟨1, by omega, { Peer.start B with weNeedSyncItemsFromPeer := false }, .upToDate, .last ⟨synopsis, m, hcreate, hfetch, ?_⟩ (by decide),
        .inl ⟨rfl, hall⟩⟩
      unfold onBlockchainItemIdsInventory
      dsimp only
      rw [hm.check hlinked (by decide), ok_bind, if_pos hupToDate]
      rfl
    · obtain ⟨p', k', hok, hlisting⟩ := listing_of_reply (C := C) (k := 0) hlinked ht hfollows hm
        (.inl ⟨rfl, hbefore, hfirst.imp_right fun h => ⟨h.1, rfl⟩⟩) (fun i hi => .inl (hknown i hi)) (fun _ => ⟨rfl, rfl⟩) hmore
      have hexchange : Exchange B C timestamp client server now (Peer.start B) p' p'.nextStep := ⟨synopsis, m, hcreate, hfetch, hok⟩
      by_cases hnext : p'.nextStep = .fetchNextBatchOfItemIds
      · obtain ⟨count, hcount, p, next, hrest, hdone⟩ := exchanges_of_listing (C := C) hclient hserver ht hlisting hnext hreach hcommon
        have hlimit : blockIdsLimit = 2000 := rfl
        exact ⟨count + 1, by omega, p, next, .more (hnext ▸ hexchange) hrest, hdone⟩
      · exact ⟨1, by omega, p', _, .last hexchange hnext, hlisting.synchronized hnext⟩

end

theorem sync_completes_sample : ∃ count ≤ (List.range' 1 2).length / 1999 + 2, ∃ p next,
    Exchanges Khc.Block.Sample.blocks Khc.Block.Sample.codec UInt8.toNat (Sample.database 1) (Sample.database 2) 0 count (Peer.start Khc.Block.Sample.blocks) p next ∧
      Synchronized Khc.Block.Sample.blocks (Sample.database 1) (List.range' 1 2) p next := by
  have hclient : (Sample.database 1).Sound Khc.Block.Sample.blocks (List.range' 1 1) := Sample.sound (by decide)
  refine sync_completes hclient (Sample.sound (by decide)) (Sample.timely (by decide)) (fun i hi => ?_) (fun i hi => ?_) (fun i _ hi after => ?_)
  · obtain ⟨k, hk, rfl⟩ := List.mem_range'.mp (Sample.mem_of_known hi)
    exact (by omega : 1 + 1 * k ≤ 2)
  · obtain rfl : 1 = i := Option.some.inj hi
    exact List.mem_cons_self
  · obtain ⟨synopsis, hok, -⟩ := hclient.getBlockchainSynopsis_included (Sample.mem_of_known hi) after
    exact ⟨synopsis, hok⟩

end Khc.Net
