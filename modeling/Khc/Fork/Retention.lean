import Khc.Fork.Run

/-! How many undo states a node keeps: enough to go back to the last irreversible block, or to the block that it was opened
    at. -/

namespace Khc.Fork

open Lib ForkItem ForkDatabase

variable {Block Id ρ : Type} [DecidableEq Id] {B : Blocks Block Id} {E : Processing B ρ}

namespace ForkDatabase
variable {f g : ForkDatabase Block} {x y u v : ForkItem Block} {b : Block} {held held' : List (ForkItem Block)}

/-- An item that the fork database leads to, or one of those that are held. -/
def Leads (held : List (ForkItem Block)) (f : ForkDatabase Block) (u : ForkItem Block) : Prop :=
  ∃ x, (x ∈ held ∨ x ∈ f.index ∨ f.head = some x) ∧ u ∈ x.trail

/-- The items are told apart by their serials, and some of them are linked once there is a head. -/
structure Addressed (held : List (ForkItem Block)) (f : ForkDatabase Block) : Prop where
  fresh : ∀ u, Leads held f u → u.serial < f.next
  distinct : ∀ u v, Leads held f u → Leads held f v → u.serial = v.serial → u = v
  empty : f.head = none → f.index = []

theorem leads_index (hx : x ∈ f.index) : Leads held f x := ⟨x, .inr (.inl hx), mem_trail_self x⟩

theorem leads_head (hx : f.head = some x) : Leads held f x := ⟨x, .inr (.inr hx), mem_trail_self x⟩

theorem leads_held (hx : x ∈ held) : Leads held f x := ⟨x, .inl hx, mem_trail_self x⟩

theorem Leads.trail (hx : Leads held f x) (hu : u ∈ x.trail) : Leads held f u := by
  obtain ⟨y, hy, hxy⟩ := hx
  exact ⟨y, hy, (trail_suffix hxy).mem hu⟩

/-- A database that leads to fewer items. -/
theorem Addressed.shrink (h : Addressed held f) (hheld : ∀ x ∈ held', Leads held f x)
    (hi : ∀ x ∈ g.index, x ∈ f.index) (hh : ∀ x, g.head = some x → Leads held f x) (hnext : g.next = f.next)
    (hempty : g.head = none → f.head = none) : Addressed held' g := by
  have hsub : ∀ u, Leads held' g u → Leads held f u := by
    rintro u ⟨x, hx | hx | hx, hu⟩
    · exact (hheld x hx).trail hu
    · exact (leads_index (hi x hx)).trail hu
    · exact (hh x hx).trail hu
  refine ⟨fun u hu => hnext ▸ h.fresh u (hsub u hu), fun u v hu hv => h.distinct u v (hsub u hu) (hsub v hv), ?_⟩
  intro hnone
  refine List.eq_nil_iff_forall_not_mem.mpr fun x hx => ?_
  have hx := hi x hx
  rw [h.empty (hempty hnone)] at hx
  cases hx

omit [DecidableEq Id] in
theorem Addressed.setMaxSize (h : Addressed held f) (size : Nat) : Addressed held (f.setMaxSize B size) := by
  refine h.shrink (fun _ => leads_held) (fun x hx => (mem_setMaxSize.mp hx).1)
    (fun x hx => leads_head (setMaxSize_head.symm.trans hx)) ?_ fun hx => setMaxSize_head.symm.trans hx
  unfold ForkDatabase.setMaxSize
  split <;> rfl

theorem Addressed.remove (h : Addressed held f) (id : Id) : Addressed held (f.remove B id) :=
  h.shrink (fun _ => leads_held) (fun _ hx => (mem_remove.mp hx).1) (fun _ hx => leads_head hx) rfl fun hx => hx

theorem Addressed.foldl_remove {l : List (ForkItem Block)} (h : Addressed held f) :
    Addressed held (l.foldl (fun f x => f.remove B (B.id x.block)) f) := by
  induction l generalizing f with
  | nil => exact h
  | cons x l ih => exact ih (h.remove _)

theorem Addressed.setHead (h : Addressed held f) (hx : Leads held f x) : Addressed held { f with head := some x } :=
  h.shrink (fun _ => leads_held) (fun _ hy => hy) (fun y hy => by obtain rfl := Option.some.inj hy; exact hx) rfl
    (by rintro ⟨⟩)

/-- Items that are led to may be held. -/
theorem Addressed.hold (h : Addressed [] f) (hheld : ∀ x ∈ held, Leads [] f x) : Addressed held f :=
  h.shrink hheld (fun _ hx => hx) (fun _ hx => leads_head hx) rfl fun hx => hx

theorem Addressed.release (h : Addressed held f) : Addressed [] f :=
  h.shrink (by simp) (fun _ hx => hx) (fun _ hx => leads_head hx) rfl fun hx => hx

/-- A new item is linked. -/
theorem Addressed.takes (h : Addressed [] f) (hx : Takes B f b x) : Addressed [] (f.link B x) := by
  have hserial : x.serial = f.next := by
    rcases hx.prev with ⟨rfl, -⟩ | ⟨p, -, rfl, -⟩ <;> rfl
  have htrail : ∀ u ∈ x.trail, u = x ∨ Leads [] f u := by
    intro u hu
    rcases hx.prev with ⟨rfl, -⟩ | ⟨p, hp, rfl, -⟩
    · exact .inl (List.mem_singleton.mp hu)
    · rcases List.mem_cons.mp hu with rfl | hu
      · exact .inl rfl
      · exact .inr ((leads_index hp).trail hu)
  have hsub : ∀ u, Leads [] (f.link B x) u → u = x ∨ Leads [] f u := by
    rintro u ⟨y, hy | hy | hy, hu⟩
    · cases hy
    · rcases mem_link hy with hy | rfl
      · exact .inr ((leads_index hy).trail hu)
      · exact htrail u hu
    · rcases link_head (B := B) (f := f) (x := x) with ⟨hl, -⟩ | ⟨z, hz, hl, -⟩
      · obtain rfl := Option.some.inj (hl.symm.trans hy)
        exact htrail u hu
      · obtain rfl := Option.some.inj (hl.symm.trans hy)
        exact .inr ((leads_head hz).trail hu)
  have hnext : (f.link B x).next = f.next + 1 := by
    unfold link
    split
    · rfl
    · split <;> rfl
  have hlt : ∀ u, Leads [] f u → u.serial ≠ x.serial := by
    intro u hu heq
    have hfresh := h.fresh u hu
    omega
  refine ⟨fun u hu => ?_, fun u v hu hv heq => ?_, fun hnone => ?_⟩
  · rcases hsub u hu with rfl | hu
    · omega
    · have hfresh := h.fresh u hu
      omega
  · rcases hsub u hu with rfl | hu'
    · rcases hsub v hv with rfl | hv'
      · rfl
      · exact absurd heq.symm (hlt v hv')
    · rcases hsub v hv with rfl | hv'
      · exact absurd heq (hlt u hu')
      · exact h.distinct u v hu' hv' heq
  · rcases link_head (B := B) (f := f) (x := x) with ⟨hl, -⟩ | ⟨z, -, hl, -⟩
    · cases hl.symm.trans hnone
    · cases hl.symm.trans hnone

/-- An item that is led to and owned is linked, or it is the head. -/
theorem Addressed.owned (h : Addressed [] f) (hu : Leads [] f u) (ho : f.owned [] u) :
    u ∈ f.index ∨ f.head = some u := by
  obtain ⟨y, hy, hser⟩ := List.any_eq_true.mp ho
  have hser : y.serial = u.serial := by simpa using hser
  rcases List.mem_append.mp (show y ∈ f.index ++ f.head.toList from hy) with hy | hy
  · obtain rfl := h.distinct y u (leads_index hy) hu hser
    exact .inl hy
  · have hy : f.head = some y := by simpa using hy
    obtain rfl := h.distinct y u (leads_head hy) hu hser
    exact .inr hy

end ForkDatabase

namespace Node
variable {n n' : Node Block Id ρ} {s t : ChainState Id ρ} {b : Block} {held l m : List (ForkItem Block)}
  {x y h p : ForkItem Block} {k N₀ : Nat}

/-- The number of the last irreversible block, or of the block at which the node was opened. -/
def floor (N₀ : Nat) (n : Node Block Id ρ) : Nat := max n.chain.lastIrreversibleBlockNum N₀

/-- The block nests the sessions of proposals no deeper than the sizes allow: a proposal that its transactions execute does
    not execute another one, and one that expires executes only such proposals. -/
def Shallow (E : Processing B ρ) (b : Block) : Prop := ∀ s, E.proposed s b ≤ 1 ∧ E.expired s b ≤ 2

/-- The undo states lead back to the floor, and the size of the undo database lets them. -/
structure Retains (E : Processing B ρ) (N₀ : Nat) (held : List (ForkItem Block)) (n : Node Block Id ρ) : Prop where
  sound : n.Sound E
  addressed : Addressed held n.forkDb
  undo : n.chain.headBlockNum B ≤ n.undo.length + n.floor N₀
  size : n.chain.headBlockNum B + 1 ≤ n.undoMaxSize + n.floor N₀

/-- Another fork database. -/
theorem Retains.fork {f : ForkDatabase Block} {held' : List (ForkItem Block)} (hn : Retains E N₀ held n)
    (hf : Addressed held' f)
    (hs : Sound E { n with forkDb := f }) : Retains E N₀ held' { n with forkDb := f } :=
  ⟨hs, hf, hn.undo, hn.size⟩

theorem Retains.pending (hn : Retains E N₀ held n) (hk : k ≤ 2) :
    Retains E N₀ held { n with undo := opened n.undoMaxSize k n.undo } where
  sound := hn.sound.shrink rfl (isPrefix_opened _ _ _) rfl (fun _ hx => hx) hn.sound.head
  addressed := hn.addressed
  undo := by
    have hu := hn.undo
    have hs := hn.size
    show n.chain.headBlockNum B ≤ (opened n.undoMaxSize k n.undo).length + n.floor N₀
    rw [length_opened]
    split <;> omega
  size := hn.size

/-- How many states are left while a block is processed. -/
theorem Retains.session (hn : Retains E N₀ held n) (hb : Shallow E b) :
    n.chain.headBlockNum B + 1 ≤ (n.session E b).length + n.floor N₀ := by
  have hu := hn.undo
  have hs := hn.size
  have hp := (hb n.chain).1
  unfold Node.session
  rw [length_opened, List.length_cons, length_opened]
  split <;> simp only [Nat.one_ne_zero, if_false] <;> omega

theorem Retains.grown (hn : Retains E N₀ held n) (hb : Shallow E b) (hs : n.chain.applyBlock E b = some s)
    (t : ChainState Id ρ) : Retains E N₀ held (Node.grown E n b t s) := by
  have hnum : s.headBlockNum B = n.chain.headBlockNum B + 1 := ChainState.headBlockNum_applyBlock hs
  have hlib := (ChainState.applyBlock_eq_some hs).2.2
  have hsession := hn.session hb
  have hexp := (hb t).2
  refine ⟨hn.sound.grown hs, hn.addressed.setMaxSize _, ?_, ?_⟩
  · show s.headBlockNum B ≤ (opened (sizeOn B n.chain) (E.expired t b) (n.session E b)).length +
      max s.lastIrreversibleBlockNum N₀
    unfold floor at hsession
    rw [length_opened]
    unfold sizeOn
    split <;> omega
  · show s.headBlockNum B + 1 ≤ sizeOn B n.chain + max s.lastIrreversibleBlockNum N₀
    unfold sizeOn
    omega

theorem Retains.refused (hn : Retains E N₀ held n) (hb : Shallow E b) (hr : Refused E n b n') : Retains E N₀ held n' := by
  have hsession := hn.session hb
  have hfloor : n'.floor N₀ = n.floor N₀ := by
    unfold floor
    rw [hr.chain]
  refine ⟨hn.sound.refused hr, ?_, ?_, ?_⟩
  · rcases hr.sizes with ⟨-, -, hf⟩ | ⟨t, -, -, hf⟩
    · rw [hf]
      exact hn.addressed
    · rw [hf]
      exact hn.addressed.setMaxSize _
  · rw [hr.chain, hfloor]
    rcases hr.sizes with ⟨hu, -, -⟩ | ⟨t, hu, -, -⟩
    · rw [hu, List.length_tail]
      omega
    · have hexp := (hb t).2
      have hsize : n.chain.headBlockNum B + 2 ≤ sizeOn B n.chain + n.floor N₀ := by
        unfold sizeOn floor
        omega
      rw [hu, List.length_tail, length_opened]
      split <;> omega
  · rw [hr.chain, hfloor]
    rcases hr.sizes with ⟨-, hm, -⟩ | ⟨t, -, hm, -⟩
    · rw [hm]
      exact hn.size
    · rw [hm]
      unfold sizeOn floor
      omega

/-- A block is popped to a state with the same irreversible block. -/
theorem Retains.pop {undo : List (ChainState Id ρ)} (hn : Retains E N₀ held n) (hu : n.undo = s :: undo)
    (hlib : s.lastIrreversibleBlockNum = n.chain.lastIrreversibleBlockNum) (hh : n.forkDb.head = some h)
    (hp : h.prev = some p) :
    Retains E N₀ held { n with chain := s, undo, forkDb := { n.forkDb with head := some p } } := by
  have hpc := ((hn.sound.head h hh).prev hp).2
  have hlead : Leads held n.forkDb p :=
    (leads_head hh).trail (by rw [trail_of_prev hp]; exact List.mem_cons_of_mem _ (mem_trail_self p))
  have hnum : n.chain.headBlockNum B = s.headBlockNum B + 1 := by
    have hb := hn.sound.built
    rw [hu] at hb
    obtain ⟨⟨c, -, hc⟩, -⟩ := List.isChain_cons_cons.mp hb
    exact ChainState.headBlockNum_applyBlock hc
  have hundo := hn.undo
  have hsize := hn.size
  unfold floor at hundo hsize
  rw [hu, List.length_cons] at hundo
  refine ⟨hn.sound.pop hu hpc, hn.addressed.setHead hlead, ?_, ?_⟩
  · show s.headBlockNum B ≤ undo.length + max s.lastIrreversibleBlockNum N₀
    omega
  · show s.headBlockNum B + 1 ≤ n.undoMaxSize + max s.lastIrreversibleBlockNum N₀
    omega

end Node

end Khc.Fork
