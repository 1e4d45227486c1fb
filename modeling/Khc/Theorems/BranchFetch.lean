import Khc.Fork.Calls
import Mathlib.Logic.Relation

/-! The two branches that `fetch_branch_from` returns: where they end, and when they can be fetched. -/

namespace Khc.Fork

open Lib ForkItem Relation

variable {Block Id : Type} {B : Blocks Block Id} {x y a c : ForkItem Block} {i j k : Id} {l m : List (ForkItem Block)}

/-- The one id is that of the previous block of the other. -/
def Blocks.Parent (B : Blocks Block Id) (i j : Id) : Prop := ∃ b, B.id b = i ∧ B.previous b = j

/-- Blocks are put on a chain, each of which has to name the head as its previous block: the new head. -/
def Blocks.putOn [DecidableEq Id] (B : Blocks Block Id) (head : Id) (blocks : List Block) : Option Id :=
  blocks.foldlM (fun head b => if B.previous b = head then some (B.id b) else none) head

theorem Blocks.parent_unique (h : B.Parent i j) (h' : B.Parent i k) : j = k := by
  obtain ⟨b, rfl, rfl⟩ := h
  obtain ⟨c, hc, rfl⟩ := h'
  rw [B.id_injective c b hc]

/-- An ancestor comes after the branch or is on it. -/
theorem ancestor_cases (hx : x.Chained B) (ht : x.trail = l ++ a.trail) (h : ReflTransGen B.Parent (B.id x.block) k) :
    (∃ z ∈ l ++ [a], B.id z.block = k) ∨ ReflTransGen B.Parent (B.previous a.block) k := by
  induction l generalizing x with
  | nil =>
    obtain rfl := eq_of_trail_eq ht
    rcases h.cases_head with rfl | ⟨n, hn, h⟩
    · exact .inl ⟨x, by simp, rfl⟩
    · obtain rfl := Blocks.parent_unique ⟨x.block, rfl, rfl⟩ hn
      exact .inr h
  | cons w l ih =>
    obtain ⟨rfl, p, hp, hpt⟩ := prev_of_trail_cons ht
    obtain ⟨hid, hpc⟩ := hx.prev hp
    rcases h.cases_head with rfl | ⟨n, hn, h⟩
    · exact .inl ⟨w, by simp, rfl⟩
    · obtain rfl := Blocks.parent_unique ⟨w.block, rfl, hid⟩ hn
      rcases ih hpc hpt h with ⟨z, hz, hzk⟩ | h
      · exact .inl ⟨z, List.mem_cons_of_mem _ hz, hzk⟩
      · exact .inr h

/-- Each item of a branch, and the block below it, is reached from its first item. -/
theorem ancestor_of_mem (hx : x.Chained B) (ha : a ∈ x.trail) : ReflTransGen B.Parent (B.id x.block) (B.id a.block) := by
  induction x with
  | root b s =>
    obtain rfl := List.mem_singleton.mp ha
    exact .refl
  | child b s p ih =>
    rcases List.mem_cons.mp ha with rfl | ha
    · exact .refl
    · exact .head ⟨b, rfl, hx.1⟩ (ih hx.2 ha)

theorem putOn_reverse [DecidableEq Id] (hx : x.Chained B) (ht : x.trail = l ++ a.trail) :
    B.putOn (B.previous a.block) ((l ++ [a]).reverse.map block) = some (B.id x.block) := by
  induction l generalizing x with
  | nil =>
    obtain rfl := eq_of_trail_eq ht
    simp [Blocks.putOn]
  | cons w l ih =>
    obtain ⟨rfl, p, hp, hpt⟩ := prev_of_trail_cons ht
    obtain ⟨hid, hpc⟩ := hx.prev hp
    have hl := ih hpc hpt
    unfold Blocks.putOn at hl ⊢
    rw [List.cons_append, List.reverse_cons, List.map_append, List.foldlM_append, hl]
    simp [hid]

namespace ForkDatabase
variable [DecidableEq Id] {f : ForkDatabase Block} {own : ForkItem Block → Bool} {n : Nat}

omit [DecidableEq Id] in
theorem heldTo_of_descend (h : descend B own n x = .ok (l, y)) (hx : x.Chained B) :
    HeldTo own x y ∧ B.blockNum y.block = min n (B.blockNum x.block) := by
  induction x generalizing l with
  | root b s =>
    rw [descend] at h
    split at h
    next hle =>
      obtain ⟨-, rfl⟩ := Prod.mk.inj (Except.ok.inj h)
      exact ⟨.here _, (min_eq_right hle).symm⟩
    next => cases h
  | child b s p ih =>
    rw [descend] at h
    split at h
    next hle =>
      obtain ⟨-, rfl⟩ := Prod.mk.inj (Except.ok.inj h)
      exact ⟨.here _, (min_eq_right hle).symm⟩
    next hlt =>
      split at h
      next hp =>
        obtain ⟨⟨l', y'⟩, h', hr⟩ := bind_eq_ok.mp h
        obtain ⟨-, rfl⟩ := Prod.mk.inj (Except.ok.inj hr)
        obtain ⟨hheld, hnum⟩ := ih h' hx.2
        have hb := hx.blockNum_child
        refine ⟨.back hp hheld, ?_⟩
        rw [hnum, block_child]
        omega
      next => cases h

/-- Two branches back from items of the same number: they end with siblings, and above these no two are siblings. -/
structure Siblings (B : Blocks Block Id) (own : ForkItem Block → Bool) (x y a c : ForkItem Block)
    (l m : List (ForkItem Block)) : Prop where
  first : x.trail = l ++ a.trail
  second : y.trail = m ++ c.trail
  firstHeld : HeldTo own x a
  secondHeld : HeldTo own y c
  number : B.blockNum a.block = B.blockNum c.block
  previous : B.previous a.block = B.previous c.block
  differ : ∀ u ∈ l ++ [a], ∀ v ∈ m ++ [c], B.blockNum u.block = B.blockNum v.block →
    B.blockNum a.block < B.blockNum u.block → B.previous u.block ≠ B.previous v.block

omit [DecidableEq Id] in
theorem Siblings.here (hn : B.blockNum x.block = B.blockNum y.block) (hp : B.previous x.block = B.previous y.block) :
    Siblings B own x y x y [] [] where
  first := rfl
  second := rfl
  firstHeld := .here x
  secondHeld := .here y
  number := hn
  previous := hp
  differ := by
    intro u hu v hv _ hlt
    obtain rfl := List.mem_singleton.mp hu
    exact absurd hlt (lt_irrefl _)

omit [DecidableEq Id] in
/-- One block further up on both sides. -/
theorem Siblings.back {b b' : Block} {s s' : Nat} {p q : ForkItem Block} (h : Siblings B own p q a c l m) (hp : own p)
    (hq : own q) (hx : (child b s p).Chained B) (hy : (child b' s' q).Chained B)
    (hpq : B.blockNum p.block = B.blockNum q.block) (hne : B.previous b ≠ B.previous b') :
    Siblings B own (child b s p) (child b' s' q) a c (child b s p :: l) (child b' s' q :: m) where
  first := by rw [trail, h.first, List.cons_append]
  second := by rw [trail, h.second, List.cons_append]
  firstHeld := .back hp h.firstHeld
  secondHeld := .back hq h.secondHeld
  number := h.number
  previous := h.previous
  differ := by
    have hb := hx.blockNum_child
    have hb' := hy.blockNum_child
    intro u hu v hv hn hlt
    rcases List.mem_cons.mp hu with rfl | hu
    · rcases List.mem_cons.mp hv with rfl | hv
      · exact hne
      · have hle := hy.2.blockNum_le (mem_trail_of_path h.second hv)
        rw [block_child] at hn
        omega
    · rcases List.mem_cons.mp hv with rfl | hv
      · have hle := hx.2.blockNum_le (mem_trail_of_path h.first hu)
        rw [block_child] at hn
        omega
      · exact h.differ u hu v hv hn hlt

theorem siblings_of_converge (h : converge B own x y = .ok (l, m)) (hx : x.Chained B) (hy : y.Chained B)
    (hn : B.blockNum x.block = B.blockNum y.block) :
    ∃ a c l' m', l = l' ++ [a] ∧ m = m' ++ [c] ∧ Siblings B own x y a c l' m' := by
  induction x generalizing y l m with
  | root b s =>
    rw [converge.eq_def] at h
    split at h
    next heq => cases heq
    next =>
      split at h
      next hp =>
        obtain ⟨rfl, rfl⟩ := Prod.mk.inj (Except.ok.inj h)
        exact ⟨_, _, [], [], rfl, rfl, .here hn hp⟩
      next => cases h
  | child b s p ih =>
    cases y with
    | root b' s' =>
      rw [converge.eq_def] at h
      dsimp only at h
      split at h
      next hp =>
        obtain ⟨rfl, rfl⟩ := Prod.mk.inj (Except.ok.inj h)
        exact ⟨_, _, [], [], rfl, rfl, .here hn hp⟩
      next => cases h
    | child b' s' q =>
      rw [converge] at h
      split at h
      next hp =>
        obtain ⟨rfl, rfl⟩ := Prod.mk.inj (Except.ok.inj h)
        exact ⟨_, _, [], [], rfl, rfl, .here hn hp⟩
      next hne =>
        split at h
        next hown =>
          obtain ⟨⟨l₁, m₁⟩, hpq, hr⟩ := bind_eq_ok.mp h
          obtain ⟨rfl, rfl⟩ := Prod.mk.inj (Except.ok.inj hr)
          obtain ⟨hp, hq⟩ := Bool.and_eq_true_iff.mp hown
          have hnum : B.blockNum p.block = B.blockNum q.block := by
            have hb := hx.blockNum_child
            have hb' := hy.blockNum_child
            rw [block_child, block_child] at hn
            omega
          obtain ⟨a, c, l', m', rfl, rfl, hs⟩ := ih hpq hx.2 hy.2 hnum
          exact ⟨a, c, _, _, rfl, rfl, hs.back hp hq hx hy hnum hne⟩
        next => cases h

/-- Going down to the lower one of two items first, and then from both. -/
theorem siblings_of_fetch (hf : f.find B i = some x) (hs : f.find B j = some y) (hx : x.Chained B) (hy : y.Chained B)
    (h : f.fetchBranchFrom B i j = .ok (l, m)) :
    ∃ a c l' m', l = l' ++ [a] ∧ m = m' ++ [c] ∧ Siblings B (f.owned []) x y a c l' m' := by
  unfold fetchBranchFrom at h
  rw [hf, hs] at h
  dsimp only at h
  obtain ⟨⟨l₁, x₁⟩, hl, h⟩ := bind_eq_ok.mp h
  obtain ⟨⟨m₁, y₁⟩, hm, h⟩ := bind_eq_ok.mp h
  obtain ⟨⟨l₂, m₂⟩, hc, h⟩ := bind_eq_ok.mp h
  obtain ⟨rfl, rfl⟩ := Prod.mk.inj (Except.ok.inj h)
  dsimp only at hl hm hc
  obtain ⟨hxt, hxle, hxall, -⟩ := descend_eq_ok hl
  obtain ⟨hyt, hyle, hyall, -⟩ := descend_eq_ok hm
  obtain ⟨hx₁, hxn⟩ := heldTo_of_descend hl hx
  obtain ⟨hy₁, hyn⟩ := heldTo_of_descend hm hy
  have hxc := hx₁.chained hx
  have hyc := hy₁.chained hy
  obtain ⟨a, c, l', m', rfl, rfl, hs⟩ := siblings_of_converge hc hxc hyc (by omega)
  refine ⟨a, c, l₁ ++ l', m₁ ++ m', by simp, by simp, ?_⟩
  constructor
  case first => rw [hxt, hs.first, List.append_assoc]
  case second => rw [hyt, hs.second, List.append_assoc]
  case firstHeld => exact hx₁.trans hs.firstHeld
  case secondHeld => exact hy₁.trans hs.secondHeld
  case number => exact hs.number
  case previous => exact hs.previous
  case differ =>
    intro u hu v hv hn hlt
    rw [List.append_assoc] at hu hv
    have hvle : B.blockNum v.block ≤ B.blockNum y.block := by
      refine hy.blockNum_le (mem_trail_of_path (l := m₁ ++ m') ?_ (by rwa [List.append_assoc]))
      rw [hyt, hs.second, List.append_assoc]
    rcases List.mem_append.mp hu with hu | hu
    · have hu := hxall u hu
      omega
    · have hule := hxc.blockNum_le (mem_trail_of_path hs.first hu)
      rcases List.mem_append.mp hv with hv | hv
      · have hv := hyall v hv
        omega
      · exact hs.differ u hu v hv hn hlt

/-- Siblings, or the same item, that both items lead to through items that are still held. -/
def Meets (own : ForkItem Block → Bool) (B : Blocks Block Id) (x y : ForkItem Block) : Prop :=
  ∃ a c, HeldTo own x a ∧ HeldTo own y c ∧ B.blockNum a.block = B.blockNum c.block ∧
    B.previous a.block = B.previous c.block

theorem fetch_of_meets (hf : f.find B i = some x) (hs : f.find B j = some y) (hx : x.Chained B) (hy : y.Chained B)
    (h : Meets (f.owned []) B x y) : ∃ l m, f.fetchBranchFrom B i j = .ok (l, m) := by
  obtain ⟨a, c, ha, hc, hn, hp⟩ := h
  have hay : B.blockNum a.block ≤ B.blockNum y.block := hn.trans_le (hc.blockNum_le hy)
  obtain ⟨l₁, x₁, hl, hx₁, hxc, hxn⟩ := descend_of_heldTo ha hx hay
  have hcx : B.blockNum c.block ≤ B.blockNum x₁.block := hn.symm.trans_le (hx₁.blockNum_le hxc)
  obtain ⟨m₁, y₁, hm, hy₁, hyc, hyn⟩ := descend_of_heldTo hc hy hcx
  obtain ⟨l₂, m₂, hlm⟩ := converge_of_heldTo hx₁ hy₁ hxc hyc (by omega) hn hp
  refine ⟨l₁ ++ l₂, m₁ ++ m₂, ?_⟩
  unfold fetchBranchFrom
  rw [hf, hs]
  dsimp only
  rw [hl]
  refine bind_eq_ok.mpr ⟨_, rfl, ?_⟩
  rw [hm]
  refine bind_eq_ok.mpr ⟨_, rfl, ?_⟩
  rw [hlm]
  rfl

/-- What `fetch_branch_from` returns: branches from the two blocks down to siblings, with other blocks above these. -/
structure Branched (B : Blocks Block Id) (i j : Id) (l m : List (ForkItem Block)) (a c : ForkItem Block) : Prop where
  first : ∃ u ∈ l.head?, B.id u.block = i
  second : ∃ v ∈ m.head?, B.id v.block = j
  linked : l.IsChain fun u v => B.previous u.block = B.id v.block
  linked' : m.IsChain fun u v => B.previous u.block = B.id v.block
  last : l.getLast? = some a
  last' : m.getLast? = some c
  number : B.blockNum a.block = B.blockNum c.block
  previous : B.previous a.block = B.previous c.block
  differ : ∀ u ∈ l, ∀ v ∈ m, B.blockNum u.block = B.blockNum v.block → B.blockNum a.block < B.blockNum u.block →
    u.block ≠ v.block

omit [DecidableEq Id] in
theorem isChain_of_path (hx : x.Chained B) (ht : x.trail = l ++ a.trail) :
    (l ++ [a]).head? = some x ∧ (l ++ [a]).IsChain fun u v => B.previous u.block = B.id v.block := by
  induction l generalizing x with
  | nil =>
    obtain rfl := eq_of_trail_eq ht
    exact ⟨rfl, List.isChain_singleton _⟩
  | cons w l ih =>
    obtain ⟨rfl, p, hp, hpt⟩ := prev_of_trail_cons ht
    obtain ⟨hid, hpc⟩ := hx.prev hp
    obtain ⟨hhead, hchain⟩ := ih hpc hpt
    refine ⟨rfl, ?_⟩
    rw [List.cons_append]
    refine List.isChain_cons.mpr ⟨fun v hv => ?_, hchain⟩
    rw [hhead] at hv
    obtain rfl := Option.some.inj hv
    exact hid

omit [DecidableEq Id] in
theorem Siblings.branched (h : Siblings B own x y a c l m) (hx : x.Chained B) (hy : y.Chained B)
    (hi : B.id x.block = i) (hj : B.id y.block = j) : Branched B i j (l ++ [a]) (m ++ [c]) a c := by
  obtain ⟨hhead, hchain⟩ := isChain_of_path hx h.first
  obtain ⟨hhead', hchain'⟩ := isChain_of_path hy h.second
  constructor
  case first => exact ⟨x, hhead, hi⟩
  case second => exact ⟨y, hhead', hj⟩
  case linked => exact hchain
  case linked' => exact hchain'
  case last => exact List.getLast?_concat
  case last' => exact List.getLast?_concat
  case number => exact h.number
  case previous => exact h.previous
  case differ =>
    intro u hu v hv hn hlt heq
    exact h.differ u hu v hv hn hlt (congrArg B.previous heq)

/-- The id is that of the most recent common ancestor. -/
structure MostRecent (B : Blocks Block Id) (i j r : Id) : Prop where
  first : ReflTransGen B.Parent i r
  second : ReflTransGen B.Parent j r
  recent : ∀ k, ReflTransGen B.Parent i k → ReflTransGen B.Parent j k → ReflTransGen B.Parent r k

omit [DecidableEq Id] in
theorem previous_of_path (hx : x.Chained B) (ht : x.trail = l ++ a.trail) :
    ReflTransGen B.Parent (B.id x.block) (B.previous a.block) := by
  have ha : a ∈ x.trail := by
    rw [ht]
    exact List.mem_append_right _ (mem_trail_self a)
  exact (ancestor_of_mem hx ha).tail ⟨a.block, rfl, rfl⟩

omit [DecidableEq Id] in
/-- On a branch that does not end with its first item there is one above its end. -/
theorem exists_above (hx : x.Chained B) (ht : x.trail = l ++ a.trail) (hl : l ≠ []) :
    ∃ u ∈ l, B.previous u.block = B.id a.block ∧ B.blockNum u.block = B.blockNum a.block + 1 := by
  induction l generalizing x with
  | nil => exact absurd rfl hl
  | cons w l ih =>
    obtain ⟨rfl, p, hp, hpt⟩ := prev_of_trail_cons ht
    obtain ⟨hid, hpc⟩ := hx.prev hp
    cases l with
    | nil =>
      obtain rfl := eq_of_trail_eq hpt
      refine ⟨w, List.mem_cons_self, hid, ?_⟩
      rw [Node.blockNum_eq p.block, ← hid]
      rfl
    | cons w' l =>
      obtain ⟨u, hu, h⟩ := ih hpc hpt (List.cons_ne_nil _ _)
      exact ⟨u, List.mem_cons_of_mem _ hu, h⟩

omit [DecidableEq Id] in
/-- A block on both branches is one of the two they start with. -/
theorem Siblings.mostRecent (h : Siblings B own x y a c l m) (hx : x.Chained B) (hy : y.Chained B)
    (hxy : ¬ ReflTransGen B.Parent (B.id x.block) (B.id y.block))
    (hyx : ¬ ReflTransGen B.Parent (B.id y.block) (B.id x.block)) :
    MostRecent B (B.id x.block) (B.id y.block) (B.previous a.block) where
  first := previous_of_path hx h.first
  second := h.previous ▸ previous_of_path hy h.second
  recent k hik hjk := by
    rcases ancestor_cases hx h.first hik with ⟨u, hu, huk⟩ | hk
    · rcases ancestor_cases hy h.second hjk with ⟨v, hv, hvk⟩ | hk
      · have huv : u.block = v.block := B.id_injective _ _ (huk.trans hvk.symm)
        have hle := hx.blockNum_end h.first hu
        have hnum : B.blockNum u.block = B.blockNum v.block := by rw [huv]
        have hlt : ¬ B.blockNum a.block < B.blockNum u.block :=
          fun hlt => h.differ u hu v hv hnum hlt (congrArg B.previous huv)
        have hua : B.id u.block = B.id a.block := by
          rw [(hx.of_mem (mem_trail_of_path h.first hu)).eq_of_blockNum (end_mem_trail h.first hu) (by omega)]
        have hvc : B.id v.block = B.id c.block := by
          have hc := h.number
          rw [(hy.of_mem (mem_trail_of_path h.second hv)).eq_of_blockNum (end_mem_trail h.second hv) (by omega)]
        have hac : B.id a.block = B.id c.block := by rw [← hua, ← hvc, huv]
        by_cases hl : l = []
        · subst hl
          obtain rfl := eq_of_trail_eq h.first
          exact absurd (hac ▸ ancestor_of_mem hy h.secondHeld.mem_trail) hyx
        by_cases hm : m = []
        · subst hm
          obtain rfl := eq_of_trail_eq h.second
          exact absurd (hac ▸ ancestor_of_mem hx h.firstHeld.mem_trail) hxy
        obtain ⟨u', hu', hu'a, hu'n⟩ := exists_above hx h.first hl
        obtain ⟨v', hv', hv'c, hv'n⟩ := exists_above hy h.second hm
        have hn := h.number
        exact absurd (hu'a.trans (hac.trans hv'c.symm)) (h.differ u' (List.mem_append_left _ hu') v'
          (List.mem_append_left _ hv') (by omega) (by omega))
      · exact h.previous ▸ hk
    · exact hk

/-- Two linked blocks with a common ancestor, to which both are still linked by items that were not removed. -/
structure Common (B : Blocks Block Id) (f : ForkDatabase Block) (calls : List (Call Block Id))
    (x y a : ForkItem Block) : Prop where
  linked : a ∈ f.index
  first : a ∈ x.trail
  second : a ∈ y.trail
  unremoved : ∀ z, (z ∈ x.trail ∨ z ∈ y.trail) → a ∈ z.trail → Call.remove (B.id z.block) ∉ calls

omit [DecidableEq Id] in
theorem Common.meets {calls : List (Call Block Id)} (h : Common B f calls x y a) (hf : Kept B f calls)
    (hx : x ∈ f.index) (hy : y ∈ f.index) : Meets (f.owned []) B x y := by
  have howned : ∀ z ∈ f.index, f.owned [] z := by
    intro z hz
    exact List.any_eq_true.mpr ⟨z, by simp [hz], by simp⟩
  refine ⟨a, a, .of_trail h.first fun z hz haz => ?_, .of_trail h.second fun z hz haz => ?_, rfl, rfl⟩
  · rcases hf.between x hx z hz a haz h.linked with hzf | hrem
    · exact howned z hzf
    · exact absurd hrem (h.unremoved z (.inl hz) haz)
  · rcases hf.between y hy z hz a haz h.linked with hzf | hrem
    · exact howned z hzf
    · exact absurd hrem (h.unremoved z (.inr hz) haz)

variable {f₀ : ForkDatabase Block} {first second : Id}

/-- In each database that calls lead to: the branches of two linked blocks are returned exactly if they meet through items
    that are still held, which they do where they have a common ancestor and nothing in between was removed. What is
    returned are branches down to siblings, whose previous block is the most recent common ancestor where neither block is
    an ancestor of the other, and each of which rebuilds its chain on that block. -/
theorem fetchBranchFrom_branches (h₀ : Opened f₀) (calls : List (Call Block Id))
    (hx : (run (step B) f₀ calls).find B first = some x) (hy : (run (step B) f₀ calls).find B second = some y) :
    let f := run (step B) f₀ calls
    ((∃ l m, f.fetchBranchFrom B first second = .ok (l, m)) ↔ Meets (f.owned []) B x y) ∧
    (∀ a, Common B f calls x y a → Meets (f.owned []) B x y) ∧
    ∀ l m, f.fetchBranchFrom B first second = .ok (l, m) → ∃ a c, Branched B first second l m a c ∧
      (¬ ReflTransGen B.Parent first second → ¬ ReflTransGen B.Parent second first →
        MostRecent B first second (B.previous a.block)) ∧
      B.putOn (B.previous a.block) (l.reverse.map block) = some first ∧
      B.putOn (B.previous a.block) (m.reverse.map block) = some second := by
  intro f
  have hf : Kept B f calls := h₀.run calls
  obtain ⟨hxm, hxid⟩ := find_eq_some hx
  obtain ⟨hym, hyid⟩ := find_eq_some hy
  have hxc := hf.index x hxm
  have hyc := hf.index y hym
  refine ⟨⟨?_, fetch_of_meets hx hy hxc hyc⟩, fun a ha => ha.meets hf hxm hym, ?_⟩
  · rintro ⟨l, m, h⟩
    obtain ⟨a, c, l', m', rfl, rfl, hs⟩ := siblings_of_fetch hx hy hxc hyc h
    exact ⟨a, c, hs.firstHeld, hs.secondHeld, hs.number, hs.previous⟩
  · intro l m h
    obtain ⟨a, c, l', m', rfl, rfl, hs⟩ := siblings_of_fetch hx hy hxc hyc h
    refine ⟨a, c, hs.branched hxc hyc hxid hyid, ?_, ?_, ?_⟩
    · intro hxy hyx
      rw [← hxid, ← hyid] at hxy hyx ⊢
      exact hs.mostRecent hxc hyc hxy hyx
    · rw [putOn_reverse hxc hs.first, hxid]
    · rw [hs.previous, putOn_reverse hyc hs.second, hyid]

/-- The ids of ancestors are what the id ends with. -/
theorem suffix_of_ancestor {i j : List Nat} (h : ReflTransGen named.Parent i j) : j <:+ i := by
  induction h with
  | refl => exact List.suffix_rfl
  | tail _ hp ih =>
    obtain ⟨b, rfl, rfl⟩ := hp
    exact (List.suffix_cons b.name b.previous).trans ih

/-- Blocks 2 and 3 are both put on block 1. -/
theorem fetchBranchFrom_branches_two :
    ∃ l m, (run (step named) {} [.push ⟨1, []⟩, .push ⟨2, [1]⟩, .push ⟨3, [1]⟩]).fetchBranchFrom named [2, 1] [3, 1] =
      .ok (l, m) ∧ ∃ a c, Branched named [2, 1] [3, 1] l m a c ∧
        MostRecent named [2, 1] [3, 1] (named.previous a.block) := by
  have h₀ : Opened ({} : ForkDatabase NamedBlock) := .inl ⟨rfl, rfl⟩
  have hx : (run (step named) {} [.push ⟨1, []⟩, .push ⟨2, [1]⟩, .push ⟨3, [1]⟩]).find named [2, 1] =
    some (.child ⟨2, [1]⟩ 1 (.root ⟨1, []⟩ 0)) := rfl
  have hy : (run (step named) {} [.push ⟨1, []⟩, .push ⟨2, [1]⟩, .push ⟨3, [1]⟩]).find named [3, 1] =
    some (.child ⟨3, [1]⟩ 2 (.root ⟨1, []⟩ 0)) := rfl
  obtain ⟨hmeets, hcommon, hall⟩ := fetchBranchFrom_branches h₀ _ hx hy
  have hroot : Common named (run (step named) {} [.push ⟨1, []⟩, .push ⟨2, [1]⟩, .push ⟨3, [1]⟩])
      [.push ⟨1, []⟩, .push ⟨2, [1]⟩, .push ⟨3, [1]⟩] (.child ⟨2, [1]⟩ 1 (.root ⟨1, []⟩ 0))
      (.child ⟨3, [1]⟩ 2 (.root ⟨1, []⟩ 0)) (.root ⟨1, []⟩ 0) :=
    ⟨by decide +kernel, by decide +kernel, by decide +kernel, fun z _ _ => by simp⟩
  obtain ⟨l, m, hlm⟩ := hmeets.mpr (hcommon _ hroot)
  obtain ⟨a, c, hb, hrecent, -, -⟩ := hall l m hlm
  exact ⟨l, m, hlm, a, c, hb, hrecent (fun h => absurd (suffix_of_ancestor h) (by decide))
    fun h => absurd (suffix_of_ancestor h) (by decide)⟩

/-- A block is removed and pushed again: the block on it is linked to an item that is gone, though all of its ancestors are
    there. -/
theorem fetchBranchFrom_removed :
    ¬ ∀ (f : ForkDatabase NamedBlock), Opened f → ∀ calls first second k,
      let g := run (step named) f calls
      (g.find named first).isSome → (g.find named second).isSome → (g.find named k).isSome →
      ReflTransGen named.Parent first k → ReflTransGen named.Parent second k →
      ∃ l m, g.fetchBranchFrom named first second = .ok (l, m) := by
  intro h
  obtain ⟨l, m, hlm⟩ := h {} (.inl ⟨rfl, rfl⟩)
    [.push ⟨0, []⟩, .push ⟨1, [0]⟩, .push ⟨2, [1, 0]⟩, .remove [1, 0], .push ⟨1, [0]⟩] [2, 1, 0] [0] [0]
    (by decide +kernel) (by decide +kernel) (by decide +kernel)
    (.head ⟨⟨2, [1, 0]⟩, rfl, rfl⟩ (.single ⟨⟨1, [0]⟩, rfl, rfl⟩)) .refl
  have herror : (run (step named) {} [.push ⟨0, []⟩, .push ⟨1, [0]⟩, .push ⟨2, [1, 0]⟩, .remove [1, 0],
      .push ⟨1, [0]⟩]).fetchBranchFrom named [2, 1, 0] [0] = .error .noBranch := by rfl
  rw [herror] at hlm
  cases hlm

end ForkDatabase

end Khc.Fork
