import Khc.Fork.Retention

/-! Switches and the last irreversible block: when no irreversible block is popped, and the undo states reach the common
    ancestor. -/

namespace Khc.Fork

open Lib ForkItem ForkDatabase

section
variable {Block Id ρ : Type} {B : Blocks Block Id} {s u : ChainState Id ρ} {states states' : List (ChainState Id ρ)}
  {L : Nat}

/-- The states before `u` are above it and have the same irreversible block `L`, and `u` is reached unless its state was
    dropped. -/
def Guarded (B : Blocks Block Id) (L : Nat) (u : ChainState Id ρ) (states : List (ChainState Id ρ)) : Prop :=
  ∃ before after, states = before ++ after ∧ (∀ s ∈ before, s.lastIrreversibleBlockNum = L ∧
    u.headBlockNum B < s.headBlockNum B) ∧ ∀ s ∈ after.head?, s = u

/-- The first of the states is `u` or above it. -/
theorem Guarded.first (hg : Guarded B L u (s :: states)) :
    s = u ∨ s.lastIrreversibleBlockNum = L ∧ u.headBlockNum B < s.headBlockNum B := by
  obtain ⟨before, after, heq, hall, hhead⟩ := hg
  cases before with
  | nil => exact .inl (hhead s (by rw [← show s :: states = after from heq]; rfl))
  | cons v before =>
    obtain ⟨rfl, -⟩ := List.cons.inj heq
    exact .inr (hall s List.mem_cons_self)

theorem Guarded.head (hg : Guarded B L u (s :: states)) (hu : u.lastIrreversibleBlockNum = L) :
    s.lastIrreversibleBlockNum = L := by
  rcases hg.first with rfl | ⟨hlib, -⟩
  · exact hu
  · exact hlib

theorem Guarded.tail (hg : Guarded B L u (s :: states)) (hne : s ≠ u) : Guarded B L u states := by
  obtain ⟨before, after, heq, hall, hhead⟩ := hg
  cases before with
  | nil => exact absurd (hhead s (by rw [← show s :: states = after from heq]; rfl)) hne
  | cons v before =>
    obtain ⟨-, rfl⟩ := List.cons.inj heq
    exact ⟨before, after, rfl, fun s hs => hall s (List.mem_cons_of_mem _ hs), hhead⟩

theorem Guarded.cons (hg : Guarded B L u states) (hs : s.lastIrreversibleBlockNum = L)
    (hnum : u.headBlockNum B < s.headBlockNum B) : Guarded B L u (s :: states) := by
  obtain ⟨before, after, rfl, hall, hhead⟩ := hg
  refine ⟨s :: before, after, rfl, fun v hv => ?_, hhead⟩
  rcases List.mem_cons.mp hv with rfl | hv
  · exact ⟨hs, hnum⟩
  · exact hall v hv

theorem Guarded.of_isPrefix (hg : Guarded B L u states) (hp : states' <+: states) : Guarded B L u states' := by
  obtain ⟨before, after, rfl, hall, hhead⟩ := hg
  rw [List.prefix_iff_eq_take.mp hp, List.take_append]
  refine ⟨_, _, rfl, fun s hs => hall s (List.mem_of_mem_take hs), fun s hs => hhead s ?_⟩
  rw [List.head?_take] at hs
  split at hs
  · cases hs
  · exact hs

end

namespace Node
variable {Block Id ρ : Type} [DecidableEq Id] {B : Blocks Block Id} {E : Processing B ρ} {n n' t : Node Block Id ρ}
  {f : ForkDatabase Block} {h x y a c : ForkItem Block} {held first second l m : List (ForkItem Block)} {b : Block}
  {s u : ChainState Id ρ} {L N₀ k : Nat}

/-- Where a switch starts: nothing above the head of the chain was linked before, the linked blocks do not fork at or below
    the floor, the popped blocks have not moved the irreversible block, neither have those of the new branch before one that
    does not apply, and the blocks of both branches do not nest sessions too deep. -/
structure SwitchKeeps (E : Processing B ρ) (N₀ : Nat) (n : Node Block Id ρ) (first second : List (ForkItem Block)) :
    Prop where
  highest : ∀ x ∈ n.forkDb.index, B.blockNum x.block ≤ n.chain.headBlockNum B
  forks : ∀ x ∈ n.forkDb.index, ∀ y ∈ n.forkDb.index, B.blockNum x.block = B.blockNum y.block →
    B.blockNum x.block ≤ n.floor N₀ → x.block = y.block
  popped : ∀ t ∈ n.undo[second.length - 1]?, t.lastIrreversibleBlockNum = n.chain.lastIrreversibleBlockNum
  applied : ∀ t ∈ n.undo[second.length - 1]?, ∀ l x r s, first.reverse = l ++ x :: r →
    t.applyAll E (l.map (·.block)) = some s → s.applyBlock E x.block = none →
    s.lastIrreversibleBlockNum ≤ n.chain.lastIrreversibleBlockNum
  shallow : ∀ x ∈ first ++ second, Shallow E x.block

/-- Where a push keeps to the irreversible blocks. -/
def PushesAbove (E : Processing B ρ) (N₀ : Nat) (n : Node Block Id ρ) (p : Push Block) : Prop :=
  p.pending ≤ 2 ∧ ∀ f h, n.forkDb.pushBlock B p.block = .ok (f, h) →
    (B.previous h.block = n.chain.headBlockId → Shallow E p.block) ∧
    (B.previous h.block ≠ n.chain.headBlockId → n.chain.headBlockNum B < B.blockNum h.block →
      ∀ first second, f.fetchBranchFrom B (B.id h.block) n.chain.headBlockId = .ok (first, second) →
        SwitchKeeps E N₀ n first second)

/-! ### Where the branches part -/

/-- What the condition says about a switch that starts. -/
structure Parts (E : Processing B ρ) (N₀ : Nat) (n : Node Block Id ρ) (f : ForkDatabase Block)
    (x y a c : ForkItem Block) (l m : List (ForkItem Block)) : Prop where
  sound : Sound E { n with forkDb := f }
  index : x ∈ f.index ∧ y ∈ f.index
  first : x.trail = l ++ a.trail
  second : y.trail = m ++ c.trail
  siblings : B.previous a.block = B.previous c.block
  onChain : B.id y.block = n.chain.headBlockId
  above : n.floor N₀ < B.blockNum c.block

theorem Retains.parts (hn : Retains E N₀ [] n) (hf : n.forkDb.pushBlock B b = .ok (f, h))
    (hp : B.previous h.block ≠ n.chain.headBlockId) (hlt : n.chain.headBlockNum B < B.blockNum h.block)
    (hb : f.fetchBranchFrom B (B.id h.block) n.chain.headBlockId = .ok (first, second))
    (hhigh : ∀ x ∈ n.forkDb.index, B.blockNum x.block ≤ n.chain.headBlockNum B)
    (hforks : ∀ x ∈ n.forkDb.index, ∀ y ∈ n.forkDb.index, B.blockNum x.block = B.blockNum y.block →
      B.blockNum x.block ≤ n.floor N₀ → x.block = y.block) :
    ∃ x y a c l m, first = l ++ [a] ∧ second = m ++ [c] ∧ Parts E N₀ n f x y a c l m := by
  have hs := hn.sound.takes hf
  obtain ⟨x, y, hfx, hfy, hbr⟩ := fetchBranchFrom_eq_ok hb
  obtain ⟨l, a, m, c, rfl, rfl, hxt, hyt, hac, ha, hc, hne⟩ := hbr.ends
  obtain ⟨hxm, hxid⟩ := find_eq_some hfx
  obtain ⟨hym, hyid⟩ := find_eq_some hfy
  obtain ⟨item, hitem, rfl, hhead⟩ := pushBlock_eq_ok hf
  have hadr := hn.addressed.takes hitem
  have hxb : x.block = h.block := B.id_injective _ _ hxid
  have hynum : B.blockNum y.block = n.chain.headBlockNum B := by
    rw [blockNum_eq, hyid]
    rfl
  have hxi : x = item := by
    rcases mem_link hxm with hx | hx
    · have hle := hhigh x hx
      rw [hxb] at hle
      omega
    · exact hx
  have hxnum : B.blockNum x.block = n.chain.headBlockNum B + 1 := by
    rw [← hxb] at hlt
    rcases hitem.prev with ⟨-, hnone | hz⟩ | ⟨p, hpm, -, hid⟩
    · rcases mem_link hym with hy | rfl
      · rw [hn.addressed.empty hnone] at hy
        cases hy
      · rw [hxi] at hlt
        omega
    · have hone : B.blockNum x.block = 1 := by
        unfold Blocks.blockNum
        rw [hxi, hitem.block, hz, B.numFromId_zero]
      omega
    · have hpn := hhigh p hpm
      have hxp : B.blockNum x.block = B.blockNum p.block + 1 := by
        rw [blockNum_eq p.block, ← hid, hxi, hitem.block]
        rfl
      omega
  have hcnum : B.blockNum c.block ≤ n.chain.headBlockNum B := by
    have hyc := (hs.index y hym).blockNum_trail hyt
    omega
  have hacnum : B.blockNum a.block = B.blockNum c.block := by
    unfold Blocks.blockNum
    rw [hac]
  -- Both items are still linked, since they are below the new head.
  have hlinked : ∀ z, Leads [] (n.forkDb.link B item) z → B.blockNum z.block ≤ n.chain.headBlockNum B →
      (z ∈ (n.forkDb.link B item).index ∨ (n.forkDb.link B item).owned [] z) → z ∈ n.forkDb.index := by
    intro z hz hle hown
    have hmem : z ∈ (n.forkDb.link B item).index := by
      rcases hown with hz' | hown
      · exact hz'
      · rcases hadr.owned hz hown with hz' | hz'
        · exact hz'
        · obtain rfl := Option.some.inj (hhead.symm.trans hz')
          omega
    rcases mem_link hmem with hz' | rfl
    · exact hz'
    · rw [hxi] at hxnum
      omega
  have hleada : Leads [] (n.forkDb.link B item) a :=
    (leads_index hxm).trail (by rw [hxt]; exact List.mem_append_right _ (mem_trail_self a))
  have hleadc : Leads [] (n.forkDb.link B item) c :=
    (leads_index hym).trail (by rw [hyt]; exact List.mem_append_right _ (mem_trail_self c))
  have hain := hlinked a hleada (by omega) (by rcases ha with rfl | ha; exacts [.inl hxm, .inr ha])
  have hcin := hlinked c hleadc hcnum (by rcases hc with rfl | hc; exacts [.inl hym, .inr hc])
  refine ⟨x, y, a, c, l, m, rfl, rfl, hs, ⟨hxm, hym⟩, hxt, hyt, hac, hyid, ?_⟩
  have hdiff : a.block ≠ c.block := by
    refine hne (hs.index x hxm) (hs.index y hym) (by omega) ?_
    rw [hxb, hyid]
    exact hp
  by_contra hle
  exact hdiff (hforks a hain c hcin hacnum (by omega))

/-- There is an undo state for each block of the old branch. -/
theorem Parts.length_le (hn : Retains E N₀ [] n) (w : Parts E N₀ n f x y a c l m) : m.length < n.undo.length := by
  have hy := (w.sound.index y w.index.2).blockNum_trail w.second
  have hynum : B.blockNum y.block = n.chain.headBlockNum B := by
    rw [blockNum_eq, w.onChain]
    rfl
  have habove := w.above
  have hundo := hn.undo
  omega

/-- Further down the undo states, the head is lower and the irreversible block is not higher. -/
theorem Sound.descending (hs : n.Sound E) : (n.chain :: n.undo).Pairwise fun s t =>
    t.lastIrreversibleBlockNum ≤ s.lastIrreversibleBlockNum ∧ t.headBlockNum B < s.headBlockNum B := by
  let below : ChainState Id ρ → ChainState Id ρ → Prop := fun s t =>
    t.lastIrreversibleBlockNum ≤ s.lastIrreversibleBlockNum ∧ t.headBlockNum B < s.headBlockNum B
  have : Trans below below below := ⟨fun h₁ h₂ => ⟨h₂.1.trans h₁.1, h₂.2.trans h₁.2⟩⟩
  have hchain : (n.chain :: n.undo).IsChain below := by
    refine hs.built.imp ?_
    rintro s t ⟨b, -, hb⟩
    have hnum := ChainState.headBlockNum_applyBlock hb
    exact ⟨(ChainState.applyBlock_eq_some hb).2.2, by omega⟩
  exact List.isChain_iff_pairwise.mp hchain

theorem Sound.guarded {ts rest : List (ChainState Id ρ)} (hs : n.Sound E) (hu : n.undo = ts ++ u :: rest)
    (hlib : u.lastIrreversibleBlockNum = n.chain.lastIrreversibleBlockNum) :
    Guarded B n.chain.lastIrreversibleBlockNum u (n.chain :: n.undo) := by
  have hd := hs.descending
  rw [hu, ← List.cons_append] at hd ⊢
  refine ⟨n.chain :: ts, u :: rest, rfl, fun s hs => ?_, fun s hs => (Option.some.inj hs).symm⟩
  obtain ⟨hchain, -, hcross⟩ := List.pairwise_append.mp hd
  obtain ⟨hle, hnum⟩ := hcross s hs u List.mem_cons_self
  refine ⟨?_, hnum⟩
  rcases List.mem_cons.mp hs with rfl | hs
  · rfl
  · have hle' := ((List.pairwise_cons.mp hchain).1 s hs).1
    omega

theorem Retains.setHead (hn : Retains E N₀ held n) (hx : Leads held n.forkDb x) (hc : x.Chained B) :
    Retains E N₀ held { n with forkDb := { n.forkDb with head := some x } } :=
  hn.fork (hn.addressed.setHead hx) (hn.sound.setHead hc)

/-- A block is popped from above `u`. -/
theorem Retains.popBlock (hn : Retains E N₀ held n) (hg : Guarded B L u (n.chain :: n.undo))
    (hu : u.lastIrreversibleBlockNum = L) (hne : n.chain.headBlockId ≠ u.headBlockId) :
    (∀ n', n.popBlock B m = .ok n' →
      Retains E N₀ held n' ∧ Guarded B L u (n'.chain :: n'.undo) ∧ n'.undo.length + 1 = n.undo.length) ∧
      ∀ n', n.popBlock B m = .error n' → Retains E N₀ held n' := by
  rcases popBlock_cases B n m with he | ⟨h, p, hh, hp, ⟨-, he⟩ | ⟨s, undo, hundo, he⟩⟩
  · refine ⟨fun n' hn' => ?_, fun n' hn' => ?_⟩
    · cases he.symm.trans hn'
    · obtain rfl := Except.error.inj (he.symm.trans hn')
      exact hn
  · refine ⟨fun n' hn' => ?_, fun n' hn' => ?_⟩
    · cases he.symm.trans hn'
    · obtain rfl := Except.error.inj (he.symm.trans hn')
      refine hn.setHead ((leads_head hh).trail ?_) ((hn.sound.head h hh).prev hp).2
      rw [trail_of_prev hp]
      exact List.mem_cons_of_mem _ (mem_trail_self p)
  · refine ⟨fun n' hn' => ?_, fun n' hn' => ?_⟩
    · obtain rfl := Except.ok.inj (he.symm.trans hn')
      have hg' : Guarded B L u (s :: undo) := hundo ▸ hg.tail fun heq => hne (congrArg _ heq)
      refine ⟨hn.pop hundo ((hg'.head hu).trans (hg.head hu).symm) hh hp, hg', ?_⟩
      rw [hundo]
      rfl
    · cases he.symm.trans hn'

/-- Popping blocks until the head is that of `u`. -/
theorem Retains.popTo (hn : Retains E N₀ held n) (hg : Guarded B L u (n.chain :: n.undo))
    (hu : u.lastIrreversibleBlockNum = L) (hk : n.undo.length ≤ k) :
    (∀ n', Node.popTo B m u.headBlockId k n = .ok n' →
      Retains E N₀ held n' ∧ Guarded B L u (n'.chain :: n'.undo) ∧ n'.chain = u) ∧
      ∀ n', Node.popTo B m u.headBlockId k n = .error n' → Retains E N₀ held n' := by
  induction k generalizing n with
  | zero =>
    rw [Node.popTo]
    split
    next hid =>
      refine ⟨fun n' hn' => ?_, fun n' hn' => by cases hn'⟩
      obtain rfl := Except.ok.inj hn'
      refine ⟨hn, hg, ?_⟩
      rcases hg.first with heq | ⟨-, hnum⟩
      · exact heq
      · rw [ChainState.headBlockNum, ChainState.headBlockNum, hid] at hnum
        exact absurd hnum (lt_irrefl _)
    next hne =>
      obtain ⟨hok, herr⟩ := hn.popBlock hg hu hne (m := m)
      refine ⟨fun n' hn' => ?_, herr⟩
      have hlen := (hok n' hn').2.2
      omega
  | succ k ih =>
    rw [Node.popTo]
    split
    next hid =>
      refine ⟨fun n' hn' => ?_, fun n' hn' => by cases hn'⟩
      obtain rfl := Except.ok.inj hn'
      refine ⟨hn, hg, ?_⟩
      rcases hg.first with heq | ⟨-, hnum⟩
      · exact heq
      · rw [ChainState.headBlockNum, ChainState.headBlockNum, hid] at hnum
        exact absurd hnum (lt_irrefl _)
    next hne =>
      obtain ⟨hok, herr⟩ := hn.popBlock hg hu hne (m := m)
      refine ⟨fun n' hn' => ?_, fun n' hn' => ?_⟩
      · obtain ⟨n₁, hn₁, hn'⟩ := bind_eq_ok.mp hn'
        obtain ⟨hr₁, hg₁, hlen⟩ := hok n₁ hn₁
        exact (ih hr₁ hg₁ (by omega)).1 n' hn'
      · rcases bind_eq_error.mp hn' with hn' | ⟨n₁, hn₁, hn'⟩
        · exact herr n' hn'
        · obtain ⟨hr₁, hg₁, hlen⟩ := hok n₁ hn₁
          exact (ih hr₁ hg₁ (by omega)).2 n' hn'

/-! ### Going forward -/

theorem Retains.extendAll (hn : Retains E N₀ held n) (hl : ∀ x ∈ l, Shallow E x.block) :
    (∀ n', Node.extendAll E l n = .ok n' → Retains E N₀ held n') ∧
      ∀ e, Node.extendAll E l n = .error e → Retains E N₀ held e.1 := by
  induction l generalizing n with
  | nil =>
    refine ⟨fun n' hn' => ?_, fun e he => by cases he⟩
    obtain rfl := Except.ok.inj hn'
    exact hn
  | cons x l ih =>
    have hx := hl x List.mem_cons_self
    have hrest : ∀ y ∈ l, Shallow E y.block := fun y hy => hl y (List.mem_cons_of_mem _ hy)
    rw [Node.extendAll]
    rcases extend_cases n x.block with ⟨s, t, ha, he⟩ | ⟨n₁, -, he, hr⟩
    · rw [he]
      exact ih (hn.grown hx ha t) hrest
    · rw [he]
      refine ⟨fun n' hn' => ?_, fun e he => ?_⟩
      · cases hn'
      · obtain rfl := Except.error.inj he
        exact hn.refused hx hr

/-- Where the blocks of a branch stop applying. -/
theorem extendAll_eq_error {e : Node Block Id ρ × List (ForkItem Block)} (he : Node.extendAll E l n = .error e) :
    ∃ l₁ x l₂, l = l₁ ++ x :: l₂ ∧ n.chain.applyAll E (l₁.map (·.block)) = some e.1.chain ∧
      e.1.chain.applyBlock E x.block = none := by
  induction l generalizing n with
  | nil => cases he
  | cons x l ih =>
    rw [Node.extendAll] at he
    rcases extend_cases n x.block with ⟨s, t, ha, he'⟩ | ⟨n₁, ha, he', hr⟩
    · rw [he'] at he
      obtain ⟨l₁, y, l₂, rfl, hall, hy⟩ := ih he
      refine ⟨x :: l₁, y, l₂, rfl, ?_, hy⟩
      rw [List.map_cons, ChainState.applyAll, List.foldlM_cons, ha]
      exact hall
    · rw [he'] at he
      obtain rfl := Except.error.inj he
      exact ⟨[], x, l, rfl, congrArg some hr.chain.symm, hr.chain ▸ ha⟩

theorem lastIrreversible_le_of_extendAll {e : Node Block Id ρ × List (ForkItem Block)}
    (he : Node.extendAll E l n = .error e) : n.chain.lastIrreversibleBlockNum ≤ e.1.chain.lastIrreversibleBlockNum := by
  induction l generalizing n with
  | nil => cases he
  | cons x l ih =>
    rw [Node.extendAll] at he
    rcases extend_cases n x.block with ⟨s, t, ha, he'⟩ | ⟨n₁, ha, he', hr⟩
    · rw [he'] at he
      exact (ChainState.applyBlock_eq_some ha).2.2.trans (ih he)
    · rw [he'] at he
      obtain rfl := Except.error.inj he
      rw [hr.chain]

/-- The states above `u` stay guarded as long as the irreversible block does not move. -/
theorem guarded_extendAll {e : Node Block Id ρ × List (ForkItem Block)} (hg : Guarded B L u (n.chain :: n.undo))
    (hu : u.lastIrreversibleBlockNum = L) (he : Node.extendAll E l n = .error e)
    (hle : e.1.chain.lastIrreversibleBlockNum ≤ L) : Guarded B L u (e.1.chain :: e.1.undo) := by
  induction l generalizing n with
  | nil => cases he
  | cons x l ih =>
    rw [Node.extendAll] at he
    rcases extend_cases n x.block with ⟨s, t, ha, he'⟩ | ⟨n₁, ha, he', hr⟩
    · rw [he'] at he
      have hup := (ChainState.applyBlock_eq_some ha).2.2
      have hnum := ChainState.headBlockNum_applyBlock ha
      have hlast := lastIrreversible_le_of_extendAll he
      have hhead := hg.head hu
      refine ih ((hg.of_isPrefix isPrefix_grown).cons ?_ ?_) he
      · have hs : (Node.grown E n x.block t s).chain.lastIrreversibleBlockNum = s.lastIrreversibleBlockNum := rfl
        omega
      · show u.headBlockNum B < s.headBlockNum B
        rcases hg.first with heq | ⟨-, hlt⟩
        · rw [hnum, heq]
          omega
        · omega
    · rw [he'] at he
      obtain rfl := Except.error.inj he
      rw [hr.chain]
      exact hg.of_isPrefix (List.cons_prefix_cons.mpr ⟨rfl, hr.isPrefix_undo⟩)

/-! ### The switch -/

/-- What a switch leaves, whether it goes through or not. -/
theorem Retains.switchTo (hn : Retains E N₀ held n) (hg : Guarded B L u (n.chain :: n.undo))
    (hu : u.lastIrreversibleBlockNum = L) (hl : ∀ x ∈ first, Shallow E x.block) (hm : ∀ x ∈ second, Shallow E x.block)
    (hy : second.head? = some y) (hyheld : y ∈ held) (hyc : y.Chained B)
    (happ : ∀ l x r s, first.reverse = l ++ x :: r → u.applyAll E (l.map (·.block)) = some s →
      s.applyBlock E x.block = none → s.lastIrreversibleBlockNum ≤ L) :
    (∀ n', Node.switchTo E n first second u.headBlockId = .ok n' → Retains E N₀ held n') ∧
      ∀ e, Node.switchTo E n first second u.headBlockId = .error e → Retains E N₀ held e.node := by
  obtain ⟨hpop, hpope⟩ := hn.popTo hg hu le_rfl (m := first ++ second)
  have hfirst : ∀ x ∈ first.reverse, Shallow E x.block := fun x hx => hl x (List.mem_reverse.mp hx)
  have hsecond : ∀ x ∈ second.reverse, Shallow E x.block := fun x hx => hm x (List.mem_reverse.mp hx)
  unfold Node.switchTo
  cases hp : Node.popTo B (first ++ second) u.headBlockId n.undo.length n with
  | error n₁ =>
    refine ⟨nofun, fun e he => ?_⟩
    obtain rfl := Except.error.inj he
    exact hpope n₁ hp
  | ok n₁ =>
    obtain ⟨hr₁, hg₁, hc₁⟩ := hpop n₁ hp
    obtain ⟨hall, halle⟩ := hr₁.extendAll hfirst
    dsimp only
    cases ha : Node.extendAll E first.reverse n₁ with
    | ok n₂ =>
      refine ⟨fun n' hn' => ?_, nofun⟩
      obtain rfl := Except.ok.inj hn'
      exact hall n₂ ha
    | error r =>
      obtain ⟨n₂, invalid⟩ := r
      have hr₂ := halle _ ha
      have hg₂ : Guarded B L u (n₂.chain :: n₂.undo) := by
        obtain ⟨l', x, r, hsplit, happly, hnone⟩ := extendAll_eq_error ha
        exact guarded_extendAll hg₁ hu ha (happ l' x r _ hsplit (hc₁ ▸ happly) hnone)
      -- The items of the new branch are removed, and the head is set to that of the old one.
      let f := invalid.foldl (fun f x => f.remove B (B.id x.block)) n₂.forkDb
      have hr₃ : Retains E N₀ held { n₂ with forkDb := { f with head := some y } } := by
        refine hr₂.fork (hr₂.addressed.foldl_remove.setHead (leads_held hyheld)) ?_
        refine hr₂.sound.shrink rfl List.prefix_rfl rfl (fun x hx => (mem_foldl_remove.mp hx).1) fun x hx => ?_
        obtain rfl := Option.some.inj hx
        exact hyc
      have hback : (∀ n', switchBack E n₂ second (first ++ second) invalid u.headBlockId = .ok n' →
          Retains E N₀ held n') ∧ ∀ n', switchBack E n₂ second (first ++ second) invalid u.headBlockId = .error n' →
          Retains E N₀ held n' := by
        obtain ⟨hpop', hpope'⟩ := hr₃.popTo hg₂ hu le_rfl (m := first ++ second)
        unfold switchBack
        rw [hy]
        dsimp only
        refine ⟨fun n' hn' => ?_, fun n' hn' => ?_⟩
        · obtain ⟨n₄, hn₄, hn'⟩ := bind_eq_ok.mp hn'
          obtain ⟨hall', -⟩ := (hpop' n₄ hn₄).1.extendAll hsecond
          cases hb : Node.extendAll E second.reverse n₄ with
          | ok n₅ =>
            rw [hb] at hn'
            obtain rfl := Except.ok.inj hn'
            exact hall' n₅ hb
          | error r =>
            rw [hb] at hn'
            cases hn'
        · rcases bind_eq_error.mp hn' with hn' | ⟨n₄, hn₄, hn'⟩
          · exact hpope' n' hn'
          · obtain ⟨-, halle'⟩ := (hpop' n₄ hn₄).1.extendAll hsecond
            cases hb : Node.extendAll E second.reverse n₄ with
            | ok n₅ =>
              rw [hb] at hn'
              cases hn'
            | error r =>
              rw [hb] at hn'
              obtain rfl := Except.error.inj hn'
              exact halle' r hb
      refine ⟨fun n' hn' => ?_, fun e he => ?_⟩
      · dsimp only at hn'
        split at hn' <;> cases hn'
      · dsimp only at he
        split at he
        next n₃ hn₃ =>
          obtain rfl := Except.error.inj he
          exact hback.1 n₃ hn₃
        next n₃ hn₃ =>
          obtain rfl := Except.error.inj he
          exact hback.2 n₃ hn₃

/-- A push under the condition. -/
theorem Retains.pushBlock {p : Push Block} (hn : Retains E N₀ [] n) (hc : PushesAbove E N₀ n p) :
    (∀ r, Node.pushBlock E n p.block = .ok r → Retains E N₀ [] r.1) ∧
      ∀ e, Node.pushBlock E n p.block = .error e → Retains E N₀ [] e.node := by
  cases hf : n.forkDb.pushBlock B p.block with
  | error e =>
    rw [pushBlock_rejected hf]
    refine ⟨nofun, fun e he => ?_⟩
    obtain rfl := Except.error.inj he
    exact hn
  | ok r =>
    obtain ⟨f, h⟩ := r
    obtain ⟨hshallow, hswitch⟩ := hc.2 f h hf
    obtain ⟨item, hitem, hlink, hhead⟩ := pushBlock_eq_ok hf
    have hnf : Retains E N₀ [] { n with forkDb := f } :=
      hn.fork (hlink ▸ hn.addressed.takes hitem) (hn.sound.takes hf)
    by_cases hp : B.previous h.block = n.chain.headBlockId
    · cases ha : n.chain.applyBlock E p.block with
      | some s =>
        obtain ⟨t, ht⟩ := pushBlock_extends hf hp ha
        rw [ht]
        refine ⟨fun r hr => ?_, nofun⟩
        obtain rfl := Except.ok.inj hr
        exact hnf.grown (hshallow hp) ha t
      | none =>
        obtain ⟨n', hr', hn'⟩ := pushBlock_fails hf hp ha
        rw [hn']
        refine ⟨nofun, fun e he => ?_⟩
        obtain rfl := Except.error.inj he
        have hr := hnf.refused (hshallow hp) hr'
        exact hr.fork (hr.addressed.remove _)
          (hr.sound.shrink rfl List.prefix_rfl rfl (fun x hx => (mem_remove.mp hx).1) hr.sound.head)
    by_cases hlt : n.chain.headBlockNum B < B.blockNum h.block
    · cases hb : f.fetchBranchFrom B (B.id h.block) n.chain.headBlockId with
      | error e =>
        rw [pushBlock_unfetched hf hp hlt hb]
        refine ⟨nofun, fun e he => ?_⟩
        obtain rfl := Except.error.inj he
        exact hnf
      | ok r =>
        obtain ⟨first, second⟩ := r
        have hk := hswitch hp hlt first second hb
        obtain ⟨x, y, a, c, l, m, rfl, rfl, w⟩ := hn.parts hf hp hlt hb hk.highest hk.forks
        have hlen := w.length_le hn
        have hindex : (m ++ [c]).length - 1 = m.length := by simp
        have happ := hk.applied
        have hpopped := hk.popped
        rw [hindex, List.getElem?_eq_getElem hlen] at happ hpopped
        have hundo : n.undo = n.undo.take m.length ++ n.undo[m.length] :: n.undo.drop (m.length + 1) := by
          rw [← List.drop_eq_getElem_cons hlen, List.take_append_drop]
        have hyc := w.sound.index y w.index.2
        have hanc : n.undo[m.length].headBlockId = B.previous c.block := by
          have hlaid := laid_of_built hn.sound.built w.onChain hyc w.second hlen
          rw [hundo] at hlaid
          exact hlaid.ancestor (by rw [List.length_take]; omega)
        have hheld : Retains E N₀ ((l ++ [a]) ++ (m ++ [c])) { n with forkDb := f } := by
          refine hnf.fork (hnf.addressed.hold fun z hz => ?_) hnf.sound
          rcases List.mem_append.mp hz with hz | hz
          · exact (leads_index w.index.1).trail (mem_trail_of_path w.first hz)
          · exact (leads_index w.index.2).trail (mem_trail_of_path w.second hz)
        have hhead? := head?_of_trail w.second
        obtain ⟨hok, herr⟩ := hheld.switchTo (hn.sound.guarded hundo (hpopped _ rfl)) (hpopped _ rfl)
          (fun z hz => hk.shallow z (List.mem_append_left _ hz)) (fun z hz => hk.shallow z (List.mem_append_right _ hz))
          hhead? (List.mem_append_right _ (List.mem_of_mem_head? hhead?)) hyc (happ _ rfl)
        rw [hanc] at hok herr
        rw [pushBlock_switches hf hp hlt hb]
        cases hs : Node.switchTo E { n with forkDb := f } (l ++ [a]) (m ++ [c]) (B.previous c.block) with
        | ok n' =>
          refine ⟨fun r hr => ?_, nofun⟩
          obtain rfl := Except.ok.inj hr
          have hr := hok n' hs
          exact hr.fork hr.addressed.release hr.sound
        | error e =>
          refine ⟨nofun, fun e' he => ?_⟩
          obtain rfl := Except.error.inj he
          have hr := herr e hs
          exact hr.fork hr.addressed.release hr.sound
    · rw [pushBlock_stays hf hp (Nat.le_of_not_lt hlt)]
      refine ⟨fun r hr => ?_, nofun⟩
      obtain rfl := Except.ok.inj hr
      exact hnf

theorem Retains.step {p : Push Block} (hn : Retains E N₀ [] n) (hc : PushesAbove E N₀ n p) :
    Retains E N₀ [] (n.step E p) := by
  obtain ⟨hok, herr⟩ := hn.pushBlock hc
  unfold Node.step
  cases hp : Node.pushBlock E n p.block with
  | ok r => exact (hok r hp).pending hc.1
  | error e => exact (herr e hp).pending hc.1

end Node

end Khc.Fork
