import Khc.Fork.Run

/-! A push that throws leaves the chain and the linked blocks as they were, but for the invalid block and its descendants:
    in which pushes it does. -/

namespace Khc.Fork

open Lib ForkItem ForkDatabase

/-- The block is built on the other one, or is it. -/
inductive Descends {Block Id : Type} (B : Blocks Block Id) (a : Block) : Block → Prop
  | refl : Descends B a a
  | step {b c : Block} (h : Descends B a b) (hc : B.previous c = B.id b) : Descends B a c

theorem Descends.eq_or_lt {Block Id : Type} {B : Blocks Block Id} {a b : Block} (h : Descends B a b) :
    a = b ∨ B.blockNum a < B.blockNum b := by
  induction h with
  | refl => exact .inl rfl
  | @step b c h hc ih =>
    have hnum : B.blockNum c = B.blockNum b + 1 := by
      rw [Node.blockNum_eq b, ← hc]
      rfl
    rcases ih with rfl | hlt <;> right <;> omega

/-- The items between two ends of a path are built on the lower one. -/
theorem ForkItem.Chained.descends {Block Id : Type} {B : Blocks Block Id} {x a z : ForkItem Block}
    {l : List (ForkItem Block)} (h : x.Chained B) (ht : x.trail = l ++ a.trail) (hz : z ∈ l ++ [a]) :
    Descends B a.block z.block := by
  induction l generalizing x z with
  | nil =>
    obtain rfl := List.mem_singleton.mp hz
    exact .refl
  | cons y l ih =>
    obtain ⟨rfl, p, hp, hpt⟩ := prev_of_trail_cons ht
    obtain ⟨hid, hc⟩ := h.prev hp
    rcases List.mem_cons.mp hz with rfl | hz
    · have hpmem : p ∈ l ++ [a] := by
        cases l with
        | nil => rw [eq_of_trail_eq hpt]; simp
        | cons w l => rw [(prev_of_trail_cons hpt).1]; simp
      exact .step (ih hc hpt hpmem) hid
    · exact ih hc hpt hz

namespace Node
variable {Block Id ρ : Type} [DecidableEq Id] {B : Blocks Block Id} {E : Processing B ρ} {n t : Node Block Id ρ}

/-- The chain, the head of the fork database and its linked blocks are the same, but for the block that is invalid and what
    is built on it. -/
structure Unchanged (B : Blocks Block Id) (before after : Node Block Id ρ) (invalid : Option Block) : Prop where
  chain : after.chain = before.chain
  head : after.forkDb.head.map (·.block) = before.forkDb.head.map (·.block)
  linked : ∀ c, after.forkDb.Linked c ↔ before.forkDb.Linked c ∧ ∀ i ∈ invalid, ¬ Descends B i c

/-- A switch fails at its first new block, and leaves no trace: the head of the fork database is that of the chain, the new
    branch is all that is built on the invalid block, and neither linking the pushed block nor putting the old branch back
    erases anything else. -/
structure FailsAtOnce (E : Processing B ρ) (n : Node Block Id ρ) (b : Block) (first second : List (ForkItem Block))
    (ancestor : ChainState Id ρ) (a : ForkItem Block) : Prop where
  invalid : ancestor.applyBlock E a.block = none
  head : ∃ x ∈ n.forkDb.head, B.id x.block = n.chain.headBlockId
  branch : ∀ x ∈ n.forkDb.index, Descends B a.block x.block → ∃ z ∈ first, z.block = x.block
  kept : ∀ x ∈ n.forkDb.index, ¬ Descends B a.block x.block → B.blockNum b ≤ B.blockNum x.block + n.forkDb.maxSize ∧
    ∀ u ∈ n.undo.take second.length, n.chain.headBlockNum B ≤ B.blockNum x.block + sizeOn B u

/-- The switch can start, and all blocks of the new branch apply or it fails at once. -/
def SwitchesCleanly (E : Processing B ρ) (n : Node Block Id ρ) (b : Block) (f : ForkDatabase Block)
    (h : ForkItem Block) : Prop :=
  ∃ first second ancestor, f.fetchBranchFrom B (B.id h.block) n.chain.headBlockId = .ok (first, second) ∧
    n.undo[second.length - 1]? = some ancestor ∧
    ((ancestor.applyAll E (first.reverse.map (·.block))).isSome ∨
      ∃ a ∈ first.getLast?, FailsAtOnce E n b first second ancestor a)

/-- Where a push is atomic: the fork database rejects the block, or the block applies on the chain, or it stays on a branch
    that is not longer, or the switch goes through or fails at once. -/
def PushesCleanly (E : Processing B ρ) (n : Node Block Id ρ) (p : Push Block) : Prop :=
  ∀ f h, n.forkDb.pushBlock B p.block = .ok (f, h) →
    (B.previous h.block = n.chain.headBlockId → (n.chain.applyBlock E p.block).isSome) ∧
    (B.previous h.block ≠ n.chain.headBlockId → n.chain.headBlockNum B < B.blockNum h.block →
      SwitchesCleanly E n p.block f h)

omit [DecidableEq Id] in
theorem Unchanged.refl : Unchanged B n n none where
  chain := rfl
  head := rfl
  linked c := by simp

/-- What the two outcomes of a switch leave. -/
theorem Settled.switches {b : Block} {f : ForkDatabase Block} {h : ForkItem Block} (hn : n.Settled E)
    (hf : n.forkDb.pushBlock B b = .ok (f, h)) (hp : B.previous h.block ≠ n.chain.headBlockId)
    (hlt : n.chain.headBlockNum B < B.blockNum h.block) (hc : SwitchesCleanly E n b f h) :
    (∃ n', pushBlock E n b = .ok (n', true) ∧ n'.Settled E) ∨
      ∃ n' a, pushBlock E n b = .error ⟨n', some a⟩ ∧ n'.Settled E ∧ Unchanged B n n' (some a) := by
  obtain ⟨first, second, ancestor, hb, hu, hcase⟩ := hc
  obtain ⟨y, a, c, l, m, ts, rest, rfl, rfl, hy, w⟩ := hn.starts hf hlt hb hu
  obtain ⟨hindex, hhead, -, hnew⟩ := hn.takes hf
  obtain ⟨rfl, hx, hlink⟩ := hnew hlt
  have hbnum : B.blockNum h.block = n.chain.headBlockNum B + 1 := hn.blockNum_new hx hlt hy
  have hpush := pushBlock_switches (E := E) hf hp hlt hb
  have hhc := w.sound.head h w.head
  have hhm : h ∈ l ++ [a] := List.mem_of_mem_head? (head?_of_trail w.first)
  rcases hcase with hall | ⟨a', ha', hfail⟩
  · obtain ⟨s, hs⟩ := Option.isSome_iff_exists.mp hall
    obtain ⟨n', hn', hchain, hsound, hh', hi'⟩ := w.switchTo_of_applyAll hs
    have hnum : n'.chain.headBlockNum B = B.blockNum h.block := by
      rw [blockNum_eq, ← w.headBlockId_of_applyAll hs, hchain]
      rfl
    obtain ⟨g, hg, hg'⟩ := hh'
    left
    refine ⟨n', by rw [hpush, hn']; rfl, hsound, ?_, ?_, ?_⟩
    · intro x hx'
      rcases hindex x (hi' x hx') with hx' | hx'
      · have hle := hn.index x hx'
        omega
      · rw [hx', hnum]
    · intro x hx'
      obtain rfl := Option.some.inj (hg'.symm.trans hx')
      rw [hnum]
      exact hhc.blockNum_le (mem_trail_of_path w.first hg)
    · intro hnone
      rw [hg'] at hnone
      cases hnone
  · obtain rfl : a = a' := by simpa using ha'
    obtain ⟨n', hn', hback⟩ := w.switchTo_of_first_invalid hfail.invalid
    have hynum : B.blockNum y.block = n.chain.headBlockNum B := by
      rw [blockNum_eq, w.onChain]
      rfl
    obtain ⟨hsettled, hold⟩ := hn.switchedBack hf w.onChain hhm rfl hback
    right
    refine ⟨n', a.block, by rw [hpush, hn']; rfl, hsettled, ⟨hback.chain, ?_, fun c' => ⟨?_, ?_⟩⟩⟩
    · obtain ⟨z, hz, hzid⟩ := hfail.head
      rw [hback.head, Option.mem_def.mp hz, Option.map_some, Option.map_some]
      exact congrArg some (B.id_injective _ _ (w.onChain.trans hzid.symm))
    · rintro ⟨x, hx', rfl⟩
      refine ⟨⟨x, hold x hx', rfl⟩, fun i hi hd => ?_⟩
      obtain rfl := Option.some.inj hi
      obtain ⟨z, hz, hzx⟩ := hfail.branch x (hold x hx') hd
      exact (hback.index x hx').2 z hz (congrArg B.id hzx.symm)
    · rintro ⟨⟨x, hx', rfl⟩, hnd⟩
      have hd := hnd a.block rfl
      obtain ⟨hsize, hkept⟩ := hfail.kept x hx' hd
      have hfirst : ∀ z ∈ l ++ [a], B.id x.block ≠ B.id z.block := by
        intro z hz hid
        rw [B.id_injective _ _ hid] at hd
        exact hd (hhc.descends w.first hz)
      have hstates : ∀ u ∈ ancestor :: ts, B.blockNum y.block ≤ B.blockNum x.block + sizeOn B u := by
        intro u hu'
        rw [hynum]
        refine hkept u ?_
        have htake : n.undo.take (m ++ [c]).length = ts ++ [ancestor] := by
          have hundo : n.undo = (ts ++ [ancestor]) ++ rest := by
            rw [List.append_assoc]
            exact w.undo
          rw [w.length_branch, hundo, List.take_left' (by simp)]
        rw [htake]
        rcases List.mem_cons.mp hu' with rfl | hu'
        · simp
        · exact List.mem_append_left _ hu'
      have hlinked : x ∈ f.index := hlink ▸ subset_link hx' hsize
      have hancestor := hstates ancestor List.mem_cons_self
      exact ⟨x, hback.kept x hlinked hfirst (by omega) hstates, rfl⟩

/-- A push under the condition keeps the node settled, and where it throws nothing has changed. -/
theorem Settled.pushBlock {p : Push Block} (hn : n.Settled E) (hc : PushesCleanly E n p) :
    (∃ n' k, pushBlock E n p.block = .ok (n', k) ∧ n'.Settled E) ∨
      ∃ e, pushBlock E n p.block = .error e ∧ e.node.Settled E ∧ Unchanged B n e.node e.invalid := by
  cases hf : n.forkDb.pushBlock B p.block with
  | error e => exact .inr ⟨_, pushBlock_rejected hf, hn, .refl⟩
  | ok r =>
    obtain ⟨f, h⟩ := r
    obtain ⟨happly, hswitch⟩ := hc f h hf
    by_cases hp : B.previous h.block = n.chain.headBlockId
    · obtain ⟨s, hs⟩ := Option.isSome_iff_exists.mp (happly hp)
      obtain ⟨t, ht⟩ := pushBlock_extends hf hp hs
      exact .inl ⟨_, _, ht, (hn.grown hf hp hs t).1⟩
    by_cases hlt : n.chain.headBlockNum B < B.blockNum h.block
    · rcases hn.switches hf hp hlt (hswitch hp hlt) with ⟨n', hn', hs'⟩ | ⟨n', a, hn', hs', hu⟩
      · exact .inl ⟨n', true, hn', hs'⟩
      · exact .inr ⟨_, hn', hs', hu⟩
    · have hle := Nat.le_of_not_lt hlt
      exact .inl ⟨_, _, pushBlock_stays hf hp hle, hn.stays hf hle⟩

theorem Settled.step {p : Push Block} (hn : n.Settled E) (hc : PushesCleanly E n p) : (n.step E p).Settled E := by
  unfold Node.step
  rcases hn.pushBlock hc with ⟨n', k, hp, hs⟩ | ⟨e, hp, hs, -⟩
  · rw [hp]
    exact hs.pending _
  · rw [hp]
    exact hs.pending _

/-- In a run of pushes that meet the condition, a push that throws leaves the chain, the head of the fork database and its
    linked blocks as they were, but for the invalid block and its descendants. -/
theorem pushes_atomic {pushes : List (Push Block)} {p : Push Block} {e : Thrown Block Id ρ} (hn : n.Fresh B)
    (h : Along (step E) (PushesCleanly E) n pushes) (hat : At (step E) n pushes t p)
    (he : Node.pushBlock E t p.block = .error e) : Unchanged B t e.node e.invalid := by
  obtain ⟨before, hbefore, rfl⟩ := h.before hat
  have hs : Settled E (run (step E) n before) := run_invariant (fun _ _ => Settled.step) hbefore hn.settled
  rcases hs.pushBlock (h.at hat) with ⟨n', k, hp, -⟩ | ⟨e', hp, -, hu⟩
  · cases hp.symm.trans he
  · obtain rfl := Except.error.inj (hp.symm.trans he)
    exact hu

/-- The pushes of an invalid branch: the block named 12 comes in on the side, and is tried when 3 makes its branch the
    longer one. -/
def invalidBranch : List (Push NamedBlock) := [⟨⟨1, []⟩, 0⟩, ⟨⟨2, [1]⟩, 1⟩, ⟨⟨12, [1]⟩, 2⟩, ⟨⟨3, [12, 1]⟩, 0⟩]

theorem invalidBranch_clean :
    Along (step (processing false)) (PushesCleanly (processing false)) genesis invalidBranch := by
  refine ⟨fun f h hf => ?_, fun f h hf => ?_, fun f h hf => ?_, fun f h hf => ?_, trivial⟩
  all_goals obtain ⟨rfl, rfl⟩ := Prod.mk.inj (Except.ok.inj (show Except.ok _ = _ from hf))
  · exact ⟨by decide, fun hp _ => absurd (by decide) hp⟩
  · exact ⟨by decide, fun hp _ => absurd (by decide) hp⟩
  · exact ⟨by decide, fun _ hlt => absurd hlt (by decide)⟩
  · refine ⟨by decide, fun _ _ => ⟨_, _, _, rfl, rfl, .inr ⟨_, rfl, ⟨by decide, by decide, ?_, ?_⟩⟩⟩⟩
    · have hfirst : ∀ x ∈ (run (step (processing false)) genesis (invalidBranch.take 3)).forkDb.index,
          x.block ≠ ⟨12, [1]⟩ → ¬ named.blockNum ⟨12, [1]⟩ < named.blockNum x.block := by decide
      intro x hx hd
      rcases hd.eq_or_lt with heq | hlt
      · exact ⟨_, List.mem_cons_of_mem _ List.mem_cons_self, heq⟩
      · exact absurd hlt (hfirst x hx fun heq => by rw [heq] at hlt; exact lt_irrefl _ hlt)
    · intro x hx _
      have hkept : ∀ x ∈ (run (step (processing false)) genesis (invalidBranch.take 3)).forkDb.index,
          named.blockNum ⟨3, [12, 1]⟩ ≤ named.blockNum x.block + 3 := by decide
      have hstates : ∀ u ∈ (run (step (processing false)) genesis (invalidBranch.take 3)).undo.take 1,
          2 ≤ sizeOn named u := by decide
      exact ⟨hkept x hx, fun u hu => (hstates u hu).trans (Nat.le_add_left _ _)⟩

theorem invalidBranch_unchanged : ∃ t e, At (step (processing false)) genesis invalidBranch t ⟨⟨3, [12, 1]⟩, 0⟩ ∧
    Node.pushBlock (processing false) t ⟨3, [12, 1]⟩ = .error e ∧ Unchanged named t e.node e.invalid :=
  ⟨_, _, ⟨invalidBranch.take 3, [], rfl, rfl⟩, rfl,
    pushes_atomic genesis_fresh invalidBranch_clean ⟨invalidBranch.take 3, [], rfl, rfl⟩ rfl⟩

/-- An invalid block on top of the chain stays the head of the fork database. -/
theorem invalidBlock_changes : ¬ ∀ t e, At (step (processing false)) genesis [⟨⟨1, []⟩, 0⟩, ⟨⟨12, [1]⟩, 0⟩] t ⟨⟨12, [1]⟩, 0⟩ →
    Node.pushBlock (processing false) t ⟨12, [1]⟩ = .error e → Unchanged named t e.node e.invalid := by
  intro h
  have hhead := (h _ _ ⟨[⟨⟨1, []⟩, 0⟩], [], rfl, rfl⟩ rfl).head
  exact absurd hhead (by decide)

end Node

end Khc.Fork
