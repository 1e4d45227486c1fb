import Khc.Net.Sync
import Mathlib.Data.Finset.Card

/-! Which blocks are requested from which peers: none from two of them, none that is there, and never again one that a peer has said not to
    have. -/

namespace Khc.Net

variable {Id : Type} [DecidableEq Id] {taken : Id → Bool} {most : Nat} {chosen l : List Id} {id : Id} {p p' q : FetchPeer Id}
  {peers a b : List (FetchPeer Id)} {toRequest missing : Finset Id} {s : FetchNode Id}

/-! ### What is chosen for a peer -/

theorem subset_choose : chosen ⊆ choose taken most chosen l := by
  induction l generalizing chosen with
  | nil => exact fun _ h => h
  | cons id l ih =>
    rw [choose]
    split
    · exact ih
    · split
      · exact List.subset_append_left _ _
      · exact fun _ h => ih (List.mem_append_left _ h)

theorem mem_choose (h : id ∈ choose taken most chosen l) : id ∈ chosen ∨ ¬taken id := by
  induction l generalizing chosen with
  | nil => exact .inl h
  | cons x l ih =>
    rw [choose] at h
    split at h
    · exact ih h
    · next hx =>
      have hsnoc : id ∈ chosen ++ [x] → id ∈ chosen ∨ ¬taken id := by
        intro hmem
        rcases List.mem_append.mp hmem with hmem | hmem
        · exact .inl hmem
        · rw [List.mem_singleton.mp hmem]
          exact .inr fun htaken => hx (.inl htaken)
      split at h
      · exact hsnoc h
      · rcases ih h with hmem | htaken
        · exact hsnoc hmem
        · exact .inr htaken

theorem length_choose (h : chosen.length < max most 1) : (choose taken most chosen l).length ≤ max most 1 := by
  induction l generalizing chosen with
  | nil => exact h.le
  | cons id l ih =>
    rw [choose]
    split
    · exact ih h
    · split
      · rw [List.length_append, List.length_singleton]
        exact h
      · next hfew => exact ih ((not_le.mp hfew).trans_le (le_max_left _ _))

/-- Nothing is left out where there is room for more. -/
theorem choose_complete (h : (choose taken most chosen l).length < most) (hid : id ∈ l) : taken id ∨ id ∈ choose taken most chosen l := by
  induction l generalizing chosen with
  | nil => cases hid
  | cons x l ih =>
    rw [choose] at h ⊢
    split at h
    · next hx =>
      rw [if_pos hx]
      rcases List.mem_cons.mp hid with rfl | hid
      · exact hx.imp_right fun hmem => subset_choose hmem
      · exact ih h hid
    · next hx =>
      rw [if_neg hx]
      split at h
      · next hmany => exact absurd h (not_lt.mpr hmany)
      · next hfew =>
        rw [if_neg hfew]
        rcases List.mem_cons.mp hid with rfl | hid
        · exact .inr (subset_choose (List.mem_append_right _ List.mem_cons_self))
        · exact ih h hid

/-! ### One iteration -/

/-- The requests to different peers -/
def Apart (peers : List (FetchPeer Id)) : Prop := peers.Pairwise fun p q => Disjoint p.syncItemsRequestedFromPeer q.syncItemsRequestedFromPeer

/-- What is requested from some peer -/
def Asked (peers : List (FetchPeer Id)) (id : Id) : Prop := ∃ p ∈ peers, id ∈ p.syncItemsRequestedFromPeer

/-- What an iteration may change -/
structure Scheduled (taken : Id → Bool) (most : Nat) (toRequest : Finset Id) (peers peers' : List (FetchPeer Id)) (all : Finset Id) : Prop where
  subset : toRequest ⊆ all
  fresh : ∀ id ∈ all, id ∈ toRequest ∨ ¬taken id
  apart : Apart peers'
  asked : ∀ id, Asked peers' id ↔ Asked peers id ∨ (id ∈ all ∧ id ∉ toRequest)
  few : (∀ p ∈ peers, p.syncItemsRequestedFromPeer.card ≤ max most 1) → ∀ p ∈ peers', p.syncItemsRequestedFromPeer.card ≤ max most 1
  complete : 0 < most → ∀ p ∈ peers', p.active → p.weNeedSyncItemsFromPeer → p.idle → ¬p.inhibitFetchingSyncBlocks →
    ∀ id ∈ p.idsOfItemsToGet, taken id ∨ id ∈ all

omit [DecidableEq Id] in
theorem asked_cons : Asked (p :: peers) id ↔ id ∈ p.syncItemsRequestedFromPeer ∨ Asked peers id := by
  simp [Asked]

omit [DecidableEq Id] in
theorem apart_cons : Apart (p :: peers) ↔ (∀ id ∈ p.syncItemsRequestedFromPeer, ¬Asked peers id) ∧ Apart peers := by
  unfold Apart Asked
  rw [List.pairwise_cons]
  refine and_congr_left' ⟨fun h id hid hasked => ?_, fun h q hq => Finset.disjoint_left.mpr fun id hid hid' => h id hid ⟨q, hq, hid'⟩⟩
  obtain ⟨q, hq, hid'⟩ := hasked
  exact Finset.disjoint_left.mp (h q hq) hid hid'

theorem schedule_spec (htaken : ∀ id, Asked peers id → taken id) (hapart : Apart peers) :
    Scheduled taken most toRequest peers (schedule taken most toRequest peers).1 (schedule taken most toRequest peers).2 := by
  induction peers generalizing toRequest with
  | nil =>
    exact ⟨fun _ h => h, fun _ h => .inl h, .nil, fun id => by simp [Asked, schedule], fun _ _ h => absurd h List.not_mem_nil,
      fun _ _ h => absurd h List.not_mem_nil⟩
  | cons p peers ih =>
    obtain ⟨hp, hpeers⟩ := apart_cons.mp hapart
    have htaken' : ∀ id, Asked peers id → taken id := fun id hid => htaken id (asked_cons.mpr (.inr hid))
    rw [schedule]
    split
    · next hchosen =>
      obtain ⟨hactive, hneed, hidle, hinhibit⟩ := hchosen
      dsimp only
      generalize hitems : choose (fun id => decide (taken id = true ∨ id ∈ toRequest)) most [] p.idsOfItemsToGet = items
      have hrest : Scheduled taken most (toRequest ∪ items.toFinset) peers _ _ := ih htaken' hpeers
      have hfresh : ∀ id ∈ items, ¬taken id ∧ id ∉ toRequest := by
        intro id hid
        rw [← hitems] at hid
        have hnot := (mem_choose hid).resolve_left List.not_mem_nil
        exact not_or.mp fun h => hnot (decide_eq_true h)
      have hsubset : toRequest ∪ items.toFinset ⊆ (schedule taken most (toRequest ∪ items.toFinset) peers).2 := hrest.subset
      have hunion : ∀ id, id ∈ toRequest ∪ items.toFinset ↔ id ∈ toRequest ∨ id ∈ items := fun id => by
        rw [Finset.mem_union, List.mem_toFinset]
      have hmem : ∀ id, id ∈ p.syncItemsRequestedFromPeer ∪ items.toFinset ↔ id ∈ p.syncItemsRequestedFromPeer ∨ id ∈ items := fun id => by
        rw [Finset.mem_union, List.mem_toFinset]
      refine ⟨fun id hid => hsubset ((hunion id).mpr (.inl hid)), fun id hid => ?_, apart_cons.mpr ⟨fun id hid hasked => ?_, hrest.apart⟩,
        fun id => ?_, fun hfew q hq => ?_, fun hmost q hq hqa hqn hqi hqf id hid => ?_⟩
      · rcases hrest.fresh id hid with h | h
        · exact ((hunion id).mp h).imp_right fun h => (hfresh id h).1
        · exact .inr h
      · rcases (hrest.asked id).mp hasked with hother | ⟨hall, hnot⟩
        · rcases (hmem id).mp hid with hid | hid
          · exact hp id hid hother
          · exact (hfresh id hid).1 (htaken' id hother)
        · rcases (hmem id).mp hid with hid | hid
          · exact (hrest.fresh id hall).resolve_left hnot (htaken id (asked_cons.mpr (.inl hid)))
          · exact hnot ((hunion id).mpr (.inr hid))
      · rw [asked_cons, asked_cons, hrest.asked, hmem, hunion]
        have hall : id ∈ items → id ∈ (schedule taken most (toRequest ∪ items.toFinset) peers).2 ∧ id ∉ toRequest :=
          fun hid => ⟨hsubset ((hunion id).mpr (.inr hid)), (hfresh id hid).2⟩
        tauto
      · obtain ⟨hfirst, hothers⟩ := List.forall_mem_cons.mp hfew
        rcases List.mem_cons.mp hq with rfl | hq
        · -- It was idle, so that nothing was requested from it.
          have hnone : p.syncItemsRequestedFromPeer = ∅ := by
            simp only [FetchPeer.idle, Bool.and_eq_true, decide_eq_true_eq] at hidle
            exact hidle.1.2
          dsimp only
          rw [hnone, Finset.empty_union, ← hitems]
          exact (List.toFinset_card_le _).trans (length_choose (by simp))
        · exact hrest.few hothers q hq
      · rcases List.mem_cons.mp hq with rfl | hq
        · have hnone : items = [] := by
            simp only [FetchPeer.idle, Bool.and_eq_true, decide_eq_true_eq] at hqi
            exact (List.toFinset_eq_empty_iff _).mp (Finset.union_eq_empty.mp hqi.1.2).2
          have hcomplete := choose_complete (by rw [hitems, hnone]; exact hmost) hid
          rw [hitems, hnone] at hcomplete
          rcases of_decide_eq_true (hcomplete.resolve_right List.not_mem_nil) with h | h
          · exact .inl h
          · exact .inr (hsubset ((hunion id).mpr (.inl h)))
        · exact hrest.complete hmost q hq hqa hqn hqi hqf id hid
    · next hskip =>
      have hrest : Scheduled taken most toRequest peers _ _ := ih htaken' hpeers
      refine ⟨hrest.subset, hrest.fresh, apart_cons.mpr ⟨fun id hid hasked => ?_, hrest.apart⟩, fun id => ?_, fun hfew q hq => ?_,
        fun hmost q hq hqa hqn hqi hqf id hid => ?_⟩
      · rcases (hrest.asked id).mp hasked with hother | ⟨hall, hnot⟩
        · exact hp id hid hother
        · exact (hrest.fresh id hall).resolve_left hnot (htaken id (asked_cons.mpr (.inl hid)))
      · rw [asked_cons, asked_cons, hrest.asked, or_assoc]
      · obtain ⟨hfirst, hothers⟩ := List.forall_mem_cons.mp hfew
        rcases List.mem_cons.mp hq with rfl | hq
        · exact hfirst
        · exact hrest.few hothers q hq
      · rcases List.mem_cons.mp hq with rfl | hq
        · exact absurd ⟨hqa, hqn, hqi, hqf⟩ hskip
        · exact hrest.complete hmost q hq hqa hqn hqi hqf id hid

/-! ### Runs -/

/-- The requests of a node, with the items that some peer has said not to have -/
structure FetchNode.Fair (most : Nat) (missing : Finset Id) (s : FetchNode Id) : Prop where
  /-- No block is requested from two peers. -/
  apart : Apart s.connections
  /-- What waits for an answer is what some peer is asked for, or has been without success. -/
  active_iff : ∀ id, id ∈ s.activeSyncRequests ↔ Asked s.connections id ∨ id ∈ missing
  /-- Nobody is asked for what was missing once. -/
  missing : ∀ id ∈ missing, ¬Asked s.connections id
  /-- Nothing is requested that is there, and nothing is there twice. -/
  fresh : ∀ id, Asked s.connections id → ¬s.haveAlreadyReceived id
  once : (s.newReceivedSyncItems ++ s.receivedSyncItems).Nodup
  few : ∀ p ∈ s.connections, p.syncItemsRequestedFromPeer.card ≤ max most 1

omit [DecidableEq Id] in
theorem asked_middle : Asked (a ++ p :: b) id ↔ id ∈ p.syncItemsRequestedFromPeer ∨ Asked (a ++ b) id := by
  simp only [Asked, List.mem_append, List.mem_cons]
  constructor
  · rintro ⟨q, hq | rfl | hq, hid⟩
    · exact .inr ⟨q, .inl hq, hid⟩
    · exact .inl hid
    · exact .inr ⟨q, .inr hq, hid⟩
  · rintro (hid | ⟨q, hq | hq, hid⟩)
    · exact ⟨p, .inr (.inl rfl), hid⟩
    · exact ⟨q, .inl hq, hid⟩
    · exact ⟨q, .inr (.inr hq), hid⟩

omit [DecidableEq Id] in
theorem apart_middle : Apart (a ++ p :: b) ↔ (∀ id ∈ p.syncItemsRequestedFromPeer, ¬Asked (a ++ b) id) ∧ Apart (a ++ b) := by
  rw [← apart_cons]
  exact List.perm_middle.pairwise_iff fun h => h.symm

theorem haveAlreadyReceived_iff : s.haveAlreadyReceived id ↔ id ∈ s.newReceivedSyncItems ++ s.receivedSyncItems := by
  rw [FetchNode.haveAlreadyReceived, decide_eq_true_iff, List.mem_append, or_comm]

theorem FetchNode.Fair.fetchSyncItems (h : s.Fair most missing) : (s.fetchSyncItems most).Fair most missing := by
  unfold FetchNode.fetchSyncItems
  split
  · exact h
  · have hspec : Scheduled (fun id => s.haveAlreadyReceived id ∨ id ∈ s.activeSyncRequests) most ∅ s.connections _ _ := schedule_spec
      (fun id hid => decide_eq_true (.inr ((h.active_iff id).mpr (.inl hid)))) h.apart
    have hfresh : ∀ id ∈ (schedule (fun id => s.haveAlreadyReceived id ∨ id ∈ s.activeSyncRequests) most ∅ s.connections).2,
        ¬s.haveAlreadyReceived id ∧ id ∉ s.activeSyncRequests := by
      intro id hid
      have hnot := (hspec.fresh id hid).resolve_left (Finset.notMem_empty id)
      exact not_or.mp fun h => hnot (decide_eq_true h)
    have hasked := fun id => hspec.asked id
    simp only [Finset.notMem_empty, not_false_eq_true, and_true] at hasked
    refine ⟨hspec.apart, fun id => ?_, fun id hid hask => ?_, fun id hask => ?_, h.once, hspec.few h.few⟩
    · dsimp only
      rw [Finset.mem_union, h.active_iff, hasked, or_right_comm]
    · rcases (hasked id).mp hask with hask | hall
      · exact h.missing id hid hask
      · exact (hfresh id hall).2 ((h.active_iff id).mpr (.inr hid))
    · rcases (hasked id).mp hask with hask | hall
      · exact h.fresh id hask
      · exact (hfresh id hall).1

/-- One peer is not asked for an item any more; nobody else was. -/
theorem FetchNode.Fair.erase (h : s.Fair most missing) (hs : s.connections = a ++ p :: b) (hid : id ∈ p.syncItemsRequestedFromPeer)
    (p' : FetchPeer Id) (hp : p'.syncItemsRequestedFromPeer = p.syncItemsRequestedFromPeer.erase id) :
    (∀ j, Asked (a ++ p' :: b) j ↔ Asked s.connections j ∧ j ≠ id) ∧ Apart (a ++ p' :: b) ∧
      ∀ q ∈ a ++ p' :: b, q.syncItemsRequestedFromPeer.card ≤ max most 1 := by
  have hfew := h.few
  have happ := h.apart
  rw [hs] at hfew happ ⊢
  obtain ⟨hothers, hrest⟩ := apart_middle.mp happ
  refine ⟨fun j => ?_, apart_middle.mpr ⟨fun j hj => hothers j (Finset.mem_of_mem_erase (hp ▸ hj)), hrest⟩, fun q hq => ?_⟩
  · rw [asked_middle, asked_middle, hp, Finset.mem_erase]
    constructor
    · rintro (⟨hne, hj⟩ | hj)
      · exact ⟨.inl hj, hne⟩
      · exact ⟨.inr hj, fun heq => hothers id hid (heq ▸ hj)⟩
    · rintro ⟨hj | hj, hne⟩
      · exact .inl ⟨hne, hj⟩
      · exact .inr hj
  · rcases List.mem_append.mp hq with hq | hq
    · exact hfew q (List.mem_append_left _ hq)
    · rcases List.mem_cons.mp hq with rfl | hq
      · rw [hp]
        exact (Finset.card_erase_le).trans (hfew p (List.mem_append_right _ List.mem_cons_self))
      · exact hfew q (List.mem_append_right _ (List.mem_cons_of_mem _ hq))

theorem FetchNode.Run.fair (h : FetchNode.Run most missing s) : s.Fair most missing := by
  induction h with
  | start =>
    refine ⟨.nil, fun id => by simp [Asked], fun id hid => absurd hid (Finset.notMem_empty id), fun id hasked => ?_, .nil,
      fun p hp => absurd hp List.not_mem_nil⟩
    obtain ⟨p, hp, -⟩ := hasked
    cases hp
  | loop _ ih => exact ih.fetchSyncItems
  | connect _ p a b hs hp ih =>
    obtain ⟨hapart, hactive, hmissing, hfresh, honce, hfew⟩ := ih
    rw [hs] at hapart hactive hmissing hfresh hfew
    have hasked : ∀ id, Asked (a ++ p :: b) id ↔ Asked (a ++ b) id := fun id => by simp [asked_middle, hp]
    refine ⟨apart_middle.mpr ⟨by simp [hp], hapart⟩, fun id => (hactive id).trans (or_congr_left (hasked id).symm),
      fun id hid h => hmissing id hid ((hasked id).mp h),
      fun id hid => hfresh id ((hasked id).mp hid), honce, fun q hq => ?_⟩
    rcases List.mem_append.mp hq with hq | hq
    · exact hfew q (List.mem_append_left _ hq)
    · rcases List.mem_cons.mp hq with rfl | hq
      · simp [hp]
      · exact hfew q (List.mem_append_right _ hq)
  | update _ p p' a b hs hp ih =>
    obtain ⟨hapart, hactive, hmissing, hfresh, honce, hfew⟩ := ih
    rw [hs] at hapart hactive hmissing hfresh hfew
    have hasked : ∀ id, Asked (a ++ p' :: b) id ↔ Asked (a ++ p :: b) id := fun id => by rw [asked_middle, asked_middle, hp]
    refine ⟨apart_middle.mpr (hp.symm ▸ apart_middle.mp hapart), fun id => (hactive id).trans (or_congr_left (hasked id).symm),
      fun id hid h => hmissing id hid ((hasked id).mp h), fun id hid => hfresh id ((hasked id).mp hid), honce, fun q hq => ?_⟩
    rcases List.mem_append.mp hq with hq | hq
    · exact hfew q (List.mem_append_left _ hq)
    · rcases List.mem_cons.mp hq with rfl | hq
      · exact hp ▸ hfew p (List.mem_append_right _ List.mem_cons_self)
      · exact hfew q (List.mem_append_right _ (List.mem_cons_of_mem _ hq))
  | @receive missing s _ p id a b hs hid ih =>
    obtain ⟨hasked, hapart', hfew'⟩ := ih.erase hs hid { p with syncItemsRequestedFromPeer := p.syncItemsRequestedFromPeer.erase id } rfl
    have hask : Asked s.connections id := hs ▸ asked_middle.mpr (.inl hid)
    refine ⟨hapart', fun j => ?_, fun j hj hj' => ih.missing j hj ((hasked j).mp hj').1, fun j hj => ?_, ?_, hfew'⟩
    · rw [Finset.mem_erase, ih.active_iff, hasked]
      have hne : j ∈ missing → j ≠ id := fun hj heq => ih.missing j hj (heq ▸ hask)
      tauto
    · obtain ⟨hj, hne⟩ := (hasked j).mp hj
      rw [haveAlreadyReceived_iff, List.cons_append, List.mem_cons, not_or]
      exact ⟨hne, fun h => ih.fresh j hj (haveAlreadyReceived_iff.mpr h)⟩
    · rw [List.cons_append, List.nodup_cons]
      exact ⟨fun h => ih.fresh id hask (haveAlreadyReceived_iff.mpr h), ih.once⟩
  | @notAvailable missing s _ p id a b hs hid ih =>
    obtain ⟨hasked, hapart', hfew'⟩ := ih.erase hs hid (p.notAvailable id) rfl
    have hask : Asked s.connections id := hs ▸ asked_middle.mpr (.inl hid)
    refine ⟨hapart', fun j => ?_, fun j hj hj' => ?_, fun j hj => ih.fresh j ((hasked j).mp hj).1, ih.once, hfew'⟩
    · rw [ih.active_iff, hasked, Finset.mem_insert]
      by_cases heq : j = id
      · subst heq
        simp [hask]
      · simp [heq]
    · obtain ⟨hask', hne⟩ := (hasked j).mp hj'
      exact ih.missing j ((Finset.mem_insert.mp hj).resolve_left hne) hask'
  | @close missing s _ p a b hs ih =>
    obtain ⟨hapart, hactive, hmissing, hfresh, honce, hfew⟩ := ih
    rw [hs] at hapart hactive hmissing hfresh hfew
    obtain ⟨hp, hrest⟩ := apart_middle.mp hapart
    refine ⟨hrest, fun id => ?_, fun id hid hid' => hmissing id hid (asked_middle.mpr (.inr hid')),
      fun id hid => hfresh id (asked_middle.mpr (.inr hid)), honce, fun q hq => hfew q ?_⟩
    · rw [Finset.mem_sdiff, hactive, asked_middle]
      have hne : id ∈ missing → id ∉ p.syncItemsRequestedFromPeer := fun hid hid' => hmissing id hid (asked_middle.mpr (.inl hid'))
      have hother : Asked (a ++ b) id → id ∉ p.syncItemsRequestedFromPeer := fun hid hid' => hp id hid' hid
      tauto
    · exact (List.sublist_cons_self p b).append_left a |>.subset hq
  | @collect missing s _ ih =>
    have hperm : (s.newReceivedSyncItems.reverse ++ s.receivedSyncItems).Perm (s.newReceivedSyncItems ++ s.receivedSyncItems) :=
      (List.reverse_perm _).append_right _
    refine ⟨ih.apart, ih.active_iff, ih.missing, fun id hid h => ih.fresh id hid ?_, hperm.nodup_iff.mpr ih.once, ih.few⟩
    exact haveAlreadyReceived_iff.mpr (hperm.mem_iff.mp (haveAlreadyReceived_iff.mp h))
  | handOver _ id a b hs ih =>
    have honce := ih.once
    rw [hs] at honce
    refine ⟨ih.apart, ih.active_iff, ih.missing, fun j hj h => ih.fresh j hj (haveAlreadyReceived_iff.mpr ?_),
      ((List.sublist_cons_self id b).append_left a).append_left _ |>.nodup honce, ih.few⟩
    rw [hs]
    exact ((List.sublist_cons_self id b).append_left a).append_left _ |>.subset (haveAlreadyReceived_iff.mp h)
  | suspend _ suspended ih => exact ⟨ih.apart, ih.active_iff, ih.missing, ih.fresh, ih.once, ih.few⟩

/-- An idle peer lists nothing that could be requested from it. -/
theorem FetchNode.Run.complete (h : FetchNode.Run most missing s) (hmost : 0 < most) (hsuspend : ¬s.suspendFetchingSyncBlocks)
    (hp : p ∈ (s.fetchSyncItems most).connections) (hactive : p.active) (hneed : p.weNeedSyncItemsFromPeer) (hidle : p.idle)
    (hinhibit : ¬p.inhibitFetchingSyncBlocks) (hid : id ∈ p.idsOfItemsToGet) :
    s.haveAlreadyReceived id ∨ id ∈ missing ∨ Asked (s.fetchSyncItems most).connections id := by
  have hafter := h.fair.fetchSyncItems.active_iff id
  have hmem : s.haveAlreadyReceived id ∨ id ∈ (s.fetchSyncItems most).activeSyncRequests := by
    have hspec : Scheduled (fun id => s.haveAlreadyReceived id ∨ id ∈ s.activeSyncRequests) most ∅ s.connections _ _ := schedule_spec
      (fun id hid => decide_eq_true (.inr ((h.fair.active_iff id).mpr (.inl hid)))) h.fair.apart
    rw [FetchNode.fetchSyncItems, if_neg hsuspend] at hp ⊢
    dsimp only
    rw [Finset.mem_union]
    rcases hspec.complete hmost p hp hactive hneed hidle hinhibit id hid with htaken | hall
    · exact (of_decide_eq_true htaken).imp_right .inl
    · exact .inr (.inr hall)
  rw [hafter, or_comm (a := Asked _ _)] at hmem
  exact hmem

/-- Whichever blocks the peers list, deliver or turn out not to have, and whichever of them come and go: no block is requested twice, and once
    the loop has run the idle peers list nothing that could still be requested, but for what some peer has been asked for without success. -/
theorem requests_fair (h : FetchNode.Run most missing s) : s.Fair most missing ∧ (0 < most → ¬s.suspendFetchingSyncBlocks →
    ∀ p ∈ (s.fetchSyncItems most).connections, p.active → p.weNeedSyncItemsFromPeer → p.idle → ¬p.inhibitFetchingSyncBlocks →
      ∀ id ∈ p.idsOfItemsToGet, s.haveAlreadyReceived id ∨ id ∈ missing ∨ Asked (s.fetchSyncItems most).connections id) :=
  ⟨h.fair, fun hmost hsuspend _ hp hactive hneed hidle hinhibit _ hid => h.complete hmost hsuspend hp hactive hneed hidle hinhibit hid⟩

/-- A peer that lists two blocks -/
def Sample.fetchPeer : FetchPeer Nat := ⟨⟨0, 0, [7, 8], 0, none, true⟩, ∅, false, false, true, true⟩

/-- It does not have the first one of them, which nobody is asked for any more. -/
theorem requests_fair_sample : ∃ s : FetchNode Nat, s.activeSyncRequests = {7, 8} ∧ s.connections.map (·.syncItemsRequestedFromPeer) = [{8}] ∧
    s.Fair 200 {7} :=
  ⟨_, by decide, by decide, (requests_fair (.notAvailable (.loop (.connect .start Sample.fetchPeer [] [] rfl rfl))
    { Sample.fetchPeer with syncItemsRequestedFromPeer := {7, 8} } 7 [] [] (by decide) (by decide))).1⟩

end Khc.Net
