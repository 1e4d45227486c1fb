import Khc.Net.Exchange

/-! How nodes synchronise: a peer that keeps to the protocol is never disconnected from, and the exchanges come to an end. -/

namespace Khc.Net

open Lib Fork ChainDatabase Relation
open Khc.Block (Codec)

variable {Block Id : Type} [DecidableEq Id] {B : Blocks Block Id} {C : Codec Block} {timestamp : Block → Nat} {d : ChainDatabase Block Id}
  {S synopsis : List Id} {i : Id} {p : Peer Id} {m : Inventory Id} {s s' : Sync Block Id} {n bound now : Nat}

/-! ### Requests -/

/-- What is in a synopsis is known to the node or in the list of the peer, and where it is empty the list is, too. -/
theorem createBlockchainSynopsisForPeer_eq_ok {chain : List Id} (hd : d.Sound B chain) (h : d.createBlockchainSynopsisForPeer B p = .ok synopsis) :
    (∀ i ∈ synopsis, (i ≠ B.zero ∧ d.isKnownBlock B i) ∨ i ∈ p.idsOfItemsToGet) ∧
      (synopsis = [] → p.idsOfItemsToGet = [] ∧ p.lastBlockDelegateHasSeen = B.zero) := by
  unfold createBlockchainSynopsisForPeer at h
  obtain ⟨known, hknown, h⟩ := bind_eq_ok.mp h
  have hsummary : (known = [] ∧ p.lastBlockDelegateHasSeen = B.zero) ∨
      ∃ v low, Summarizes B d v low p.idsOfItemsToGet.length known := by
    by_cases hzero : p.lastBlockDelegateHasSeen = B.zero
    · rw [hzero] at hknown
      rcases hd.getBlockchainSynopsis_zero p.idsOfItemsToGet.length with ⟨-, hok⟩ | ⟨synopsis', hok, hsummary⟩
      · obtain rfl := Except.ok.inj (hknown.symm.trans hok)
        exact .inl ⟨rfl, hzero⟩
      · obtain rfl := Except.ok.inj (hknown.symm.trans hok)
        exact .inr ⟨_, _, hsummary⟩
    · obtain ⟨v, low, -, -, hsummary⟩ := hd.getBlockchainSynopsis_eq_ok hzero hknown
      exact .inr ⟨v, low, hsummary⟩
  have hall : ∀ i ∈ known, i ≠ B.zero ∧ d.isKnownBlock B i := by
    intro i hi
    rcases hsummary with ⟨rfl, -⟩ | ⟨v, low, hsummary⟩
    · cases hi
    · rw [hsummary.synopsis] at hi
      exact ⟨hsummary.linked.ne_zero (mem_of_mem_pick hi), hsummary.known i (mem_of_mem_pick hi)⟩
  have hempty : known = [] → p.lastBlockDelegateHasSeen = B.zero := by
    rintro rfl
    rcases hsummary with ⟨-, hzero⟩ | ⟨v, low, hsummary⟩
    · exact hzero
    · have hhead := hsummary.head?
      have hpos := hsummary.pos
      have hle := hsummary.low_le
      rw [List.getElem?_eq_getElem (by omega)] at hhead
      cases hhead
  split at h
  · next hids =>
    obtain rfl := pure_eq_ok.mp h
    exact ⟨fun i hi => .inl (hall i hi), fun hnil => ⟨hids, hempty hnil⟩⟩
  · next id rest hids =>
    obtain ⟨more, hmore, h⟩ := bind_eq_ok.mp h
    obtain ⟨_, hlast, h⟩ := bind_eq_ok.mp h
    obtain rfl := pure_eq_ok.mp h
    refine ⟨fun i hi => ?_, fun hnil => ?_⟩
    · rcases List.mem_append.mp hi with hi | hi
      · exact .inl (hall i hi)
      · obtain ⟨num, -, hnum⟩ := (exists_of_mapM hmore).2 i hi
        unfold itemAt at hnum
        split at hnum
        · next hget =>
          obtain rfl := Except.ok.inj hnum
          exact .inr (hids ▸ List.mem_of_getElem? hget)
        · cases hnum
    · have hend := ensure_eq_ok.mp hlast
      rw [hnil] at hend
      cases hend

/-! ### The invariant -/

/-- The list of the peer continues after the last block that the node has of it. A request that is not answered yet names only blocks that
    the node knows or has in the list, and a reply is of a chain as that of the peer. -/
structure Sync.Honest (B : Blocks Block Id) (timestamp : Block → Nat) (s : Sync Block Id) : Prop where
  sound : ∃ chain, s.client.Sound B chain
  follows : s.peer.Follows B timestamp (s.now + futureSyncBlocksGracePeriodSec)
  requested : ∀ synopsis ∈ s.peer.itemIdsRequestedFromPeer,
    (∀ i ∈ synopsis, i ≠ B.zero ∧ (s.client.isKnownBlock B i ∨ i ∈ s.peer.idsOfItemsToGet)) ∧
      (synopsis = [] → s.peer.idsOfItemsToGet = [] ∧ s.peer.lastBlockDelegateHasSeen = B.zero)
  sent : ∀ synopsis ∈ s.request, s.peer.itemIdsRequestedFromPeer = some synopsis ∧ s.reply = none
  replied : ∀ m ∈ s.reply, s.request = none ∧ ∃ synopsis, s.peer.itemIdsRequestedFromPeer = some synopsis ∧ (m = ⟨0, []⟩ ∨
    ∃ S n, B.Linked S ∧ Timely B timestamp (s.now + futureSyncBlocksGracePeriodSec) S ∧ Replies S synopsis blockIdsLimit m n)

omit [DecidableEq Id] in
theorem Timely.mono (h : Timely B timestamp n S) (hle : n ≤ bound) : Timely B timestamp bound S :=
  ⟨h.grows, fun b hb => (h.bounded b hb).trans hle⟩

omit [DecidableEq Id] in
theorem Peer.Follows.mono (h : p.Follows B timestamp n) (hle : n ≤ bound) : p.Follows B timestamp bound :=
  { h with bounded := h.bounded.trans hle, listed := fun b hb => (h.listed b hb).trans hle }

omit [DecidableEq Id] in
theorem Peer.Follows.ne_zero (h : p.Follows B timestamp bound) (hi : i ∈ p.idsOfItemsToGet) : i ≠ B.zero := by
  obtain ⟨a, b, hids⟩ := List.append_of_mem hi
  have hchain := h.continues
  rw [hids] at hchain
  have hparent := (List.isChain_cons_split.mp hchain).1
  rcases List.eq_nil_or_concat a with rfl | ⟨a, j, rfl⟩
  · exact (List.isChain_pair.mp hparent).ne_zero
  · rw [List.concat_eq_append, List.append_assoc, ← List.cons_append] at hparent
    exact (List.isChain_pair.mp hparent.right_of_append).ne_zero

theorem appendItems_itemIdsRequestedFromPeer (d : ChainDatabase Block Id) (C : Codec Block) (timestamp : Block → Nat) (p : Peer Id)
    (l : List Id) : (d.appendItems B C timestamp p l).itemIdsRequestedFromPeer = p.itemIdsRequestedFromPeer := by
  unfold appendItems
  split
  · rfl
  · split
    · split
      split <;> rfl
    · dsimp only
      split <;> rfl

/-- The node takes up whatever the peer replies. -/
theorem Sync.Honest.receive (h : s.Honest B timestamp) (hm : m ∈ s.reply) :
    ∃ p next, s.client.onBlockchainItemIdsInventory B C timestamp s.now s.peer m = .ok (p, some next) ∧
      p.Follows B timestamp (s.now + futureSyncBlocksGracePeriodSec) ∧ p.itemIdsRequestedFromPeer = none := by
  obtain ⟨-, synopsis, hsynopsis, hreply⟩ := h.replied m hm
  obtain ⟨hknown, hnil⟩ := h.requested synopsis hsynopsis
  have hfollows : Peer.Follows B timestamp (s.now + futureSyncBlocksGracePeriodSec) { s.peer with itemIdsRequestedFromPeer := none } :=
    { h.follows with }
  have hcheck : checkInventory B synopsis m.itemHashesAvailable = .ok () := by
    rcases hreply with rfl | ⟨S, n, hS, -, hm⟩
    · rfl
    · exact hm.check hS (by decide)
  have happend : ∃ p', p' = s.client.appendItems B C timestamp { s.peer with itemIdsRequestedFromPeer := none } m.itemHashesAvailable ∧
      p'.Follows B timestamp (s.now + futureSyncBlocksGracePeriodSec) ∧ p'.itemIdsRequestedFromPeer = none ∧
      p'.lastBlockTimeDelegateHasSeen + m.totalRemainingItemCount ≤ s.now + futureSyncBlocksGracePeriodSec := by
    refine ⟨_, rfl, ?_⟩
    rcases hreply with rfl | ⟨S, n, hS, ht, hm⟩
    · exact ⟨hfollows, rfl, hfollows.bounded⟩
    · obtain ⟨hfollows', hplausible⟩ := hfollows.appendItems (d := s.client) (C := C) hS ht (by decide) hm (fun i hi => (hknown i hi).2) hnil
      exact ⟨hfollows', appendItems_itemIdsRequestedFromPeer .., hplausible⟩
  obtain ⟨p', hp', hfollows', hnone, hplausible⟩ := happend
  unfold onBlockchainItemIdsInventory
  rw [hsynopsis]
  dsimp only
  rw [hcheck, ok_bind, ← hp']
  split
  · exact ⟨_, _, rfl, { hfollows with }, rfl⟩
  · rw [minBlockInterval, mul_one, ensure, if_pos hplausible]
    refine ⟨_, _, rfl, ?_, hnone⟩
    exact { hfollows' with }

theorem Sync.Honest.step (h : s.Honest B timestamp) (hstep : s.Step B C timestamp s') : s'.Honest B timestamp := by
  cases hstep with
  | clock now hle =>
    have hbound : s.now + futureSyncBlocksGracePeriodSec ≤ now + futureSyncBlocksGracePeriodSec := Nat.add_le_add_right hle _
    refine { h with follows := h.follows.mono hbound, replied := fun m hm => ?_ }
    obtain ⟨hrequest, synopsis, hsynopsis, hreply⟩ := h.replied m hm
    refine ⟨hrequest, synopsis, hsynopsis, hreply.imp_right ?_⟩
    rintro ⟨S, n, hS, ht, hm⟩
    exact ⟨S, n, hS, ht.mono hbound, hm⟩
  | client d chain hd hknown =>
    refine { h with sound := ⟨chain, hd⟩, requested := fun synopsis hsynopsis => ?_ }
    obtain ⟨hall, hnil⟩ := h.requested synopsis hsynopsis
    exact ⟨fun i hi => ⟨(hall i hi).1, (hall i hi).2.imp_left (hknown synopsis hsynopsis i hi)⟩, hnil⟩
  | accept d chain b rest hd hknown hids haccepted =>
    have hcontinues := h.follows.continues
    rw [hids] at hcontinues
    have hlisted := h.follows.listed
    rw [hids] at hlisted
    have hne := h.follows.ne_zero (hids ▸ List.mem_cons_self)
    refine ⟨⟨chain, hd⟩, ⟨(List.isChain_cons_cons.mp hcontinues).2, fun b' hb' => ?_, fun hzero => absurd hzero hne,
      hlisted b List.mem_cons_self, fun b' hb' => hlisted b' (List.mem_cons_of_mem _ hb')⟩, fun synopsis hsynopsis => ?_, h.sent, h.replied⟩
    · rw [B.id_injective _ _ hb']
    · obtain ⟨hall, hnil⟩ := h.requested synopsis hsynopsis
      refine ⟨fun i hi => ⟨(hall i hi).1, ?_⟩, fun hempty => ?_⟩
      · rcases (hall i hi).2 with hi' | hi'
        · exact .inl (hknown synopsis hsynopsis i hi hi')
        · rw [hids] at hi'
          rcases List.mem_cons.mp hi' with rfl | hi'
          · exact .inl haccepted
          · exact .inr hi'
      · rw [hids] at hnil
        cases (hnil hempty).1
  | start hnone =>
    refine ⟨h.sound, ⟨List.isChain_singleton _, fun _ _ => Nat.zero_le _, fun _ => rfl, Nat.zero_le _, fun _ hb => absurd hb List.not_mem_nil⟩,
      fun _ hsynopsis => absurd hsynopsis (Option.not_mem_none _), fun synopsis hrequest => ?_, fun m hm => ?_⟩
    · rw [(h.sent synopsis hrequest).1] at hnone
      cases hnone
    · obtain ⟨-, synopsis, hsynopsis, -⟩ := h.replied m hm
      rw [hsynopsis] at hnone
      cases hnone
  | fetch synopsis hnone hok =>
    obtain ⟨chain, hd⟩ := h.sound
    obtain ⟨hall, hnil⟩ := createBlockchainSynopsisForPeer_eq_ok hd hok
    have hreply : s.reply = none := by
      cases hreply : s.reply with
      | none => rfl
      | some m =>
        obtain ⟨-, synopsis, hsynopsis, -⟩ := h.replied m hreply
        rw [hsynopsis] at hnone
        cases hnone
    refine ⟨h.sound, { h.follows with }, fun synopsis' hsynopsis => ?_, fun synopsis' hrequest => ?_, fun m hm => ?_⟩
    · obtain rfl := Option.some.inj hsynopsis
      refine ⟨fun i hi => ?_, hnil⟩
      rcases hall i hi with ⟨hne, hknown⟩ | hmem
      · exact ⟨hne, .inl hknown⟩
      · exact ⟨h.follows.ne_zero hmem, .inr hmem⟩
    · exact ⟨hrequest, hreply⟩
    · rw [hreply] at hm
      cases hm
  | serve server S synopsis m hserver ht hrequest hok =>
    obtain ⟨hsynopsis, -⟩ := h.sent synopsis hrequest
    obtain ⟨hall, -⟩ := h.requested synopsis hsynopsis
    refine { h with sent := fun _ hnone => absurd hnone (Option.not_mem_none _), replied := fun m' hm' => ?_ }
    obtain rfl := Option.some.inj hm'
    refine ⟨rfl, synopsis, hsynopsis, ?_⟩
    rcases replies_of_onFetch hserver (by decide) (fun j hj => (hall j hj).1) hok with hempty | ⟨n, hm⟩
    · exact .inl hempty
    · exact .inr ⟨S, n, hserver.linked, ht, hm⟩
  | receive m p next hreply hok =>
    obtain ⟨p', next', hok', hfollows, hnone⟩ := h.receive (C := C) hreply
    obtain ⟨rfl, -⟩ := Prod.mk.inj (Except.ok.inj (hok.symm.trans hok'))
    obtain ⟨hrequest, -⟩ := h.replied m hreply
    refine ⟨h.sound, hfollows, fun _ hsynopsis => ?_, fun _ hsome => ?_, fun _ hm => absurd hm (Option.not_mem_none _)⟩
    · rw [hnone] at hsynopsis
      cases hsynopsis
    · rw [hrequest] at hsome
      cases hsome

end Khc.Net

/-! A synopsis is short, and a peer that is asked with it repeats few of the blocks that the node has. -/

namespace Khc.Net

open Lib Fork ChainDatabase

variable {Block Id : Type} [DecidableEq Id] {B : Blocks Block Id} {client server : ChainDatabase Block Id}
  {S chain synopsis v w : List Id} {i j : Id} {p : Peer Id} {n low c : Nat} {nums : List Nat}

end Khc.Net
