import Khc.Block.Transactions
import Mathlib.Data.List.Nodup
import Mathlib.Data.List.TakeWhile
import Mathlib.Data.Option.Basic

/-! Replay protection: that no transaction is included twice in the current chain. The index of transactions forgets one
    when the head block's time has passed its expiration, and from then on the expiration check rejects it. -/

namespace Khc.Block

open Lib

section
variable {Tx Id σ : Type} {T : Transactions Tx Id} {d : Database Tx σ} {trx t : Tx}

theorem Database.mem_createTransaction :
    t ∈ (d.createTransaction T trx).transactionIndex ↔ t = trx ∨ t ∈ d.transactionIndex := by
  have hsplit := List.takeWhile_append_dropWhile (p := fun t => decide (T.expiration t ≤ T.expiration trx))
    (l := d.transactionIndex)
  simp only [createTransaction, List.mem_append, List.mem_cons]
  rw [← hsplit, List.mem_append, hsplit]
  tauto

/-- Only a transaction whose expiration the head block's time has passed is removed. -/
theorem Database.mem_clearExpiredTransactions (h : t ∈ d.transactionIndex) (hexp : d.headBlockTime ≤ T.expiration t) :
    t ∈ (d.clearExpiredTransactions T).transactionIndex := by
  have hsplit := List.takeWhile_append_dropWhile (p := fun trx => decide (d.headBlockTime > T.expiration trx))
    (l := d.transactionIndex)
  rw [← hsplit, List.mem_append] at h
  refine h.resolve_left fun htake => ?_
  have hpast := List.mem_takeWhile_imp htake
  exact absurd (of_decide_eq_true hpast) (not_lt.mpr hexp)

end

variable {Tx Id σ : Type} [DecidableEq Id] {T : Transactions Tx Id} {E : Processing Tx σ} {d d' : Database Tx σ}
  {trx : Tx} {b : SignedBlock Tx} {c : Chain Tx σ} {past txs : List Tx} {initialTimestamp : Nat} {rest : σ}
  {actions : List (Action Tx)}

namespace Database

theorem isKnownTransaction_iff {id : Id} :
    d.isKnownTransaction T id = true ↔ ∃ t ∈ d.transactionIndex, T.id t = id := by
  simp [isKnownTransaction]

theorem applyTransaction_inv (h : d.applyTransaction T E trx = some d') :
    d.isKnownTransaction T (T.id trx) = false ∧ d.checkExpiration T E trx = true ∧
      ∃ rest, d' = { d.createTransaction T trx with rest := rest } := by
  simp only [applyTransaction, Option.bind_eq_bind, Option.bind_eq_some_iff, Option.guard_eq_some'] at h
  obtain ⟨-, -, -, hnew, -, hexp, rest, -, hd⟩ := h
  exact ⟨hnew, hexp, rest, (Option.some.inj hd).symm⟩

theorem applyBlock_inv (h : d.applyBlock T E b = some d') : d.headBlockTime < b.timestamp ∧
    ∃ d₁ rest rest', b.transactions.foldlM (applyTransaction T E) d = some d₁ ∧
      d' = { ({ d₁ with headBlockNum := d₁.headBlockNum + 1, headBlockTime := b.timestamp, rest := rest } :
        Database Tx σ).clearExpiredTransactions T with rest := rest' } := by
  simp only [applyBlock, Option.bind_eq_bind, Option.bind_eq_some_iff, Option.guard_eq_some'] at h
  obtain ⟨-, -, -, htime, d₁, htxs, rest, -, rest', -, hd⟩ := h
  exact ⟨htime, d₁, rest, rest', htxs, (Option.some.inj hd).symm⟩

/-- The index has every past transaction that the expiration check can let pass, and none is there twice. -/
structure Remembers (T : Transactions Tx Id) (d : Database Tx σ) (past : List Tx) : Prop where
  known : ∀ t ∈ past, d.headBlockNum = 0 ∨ d.headBlockTime ≤ T.expiration t → ∃ t' ∈ d.transactionIndex, T.id t' = T.id t
  nodup : (past.map T.id).Nodup

/-- What passes the expiration check is known if it is included. -/
theorem Remembers.isKnown (h : d.Remembers T past) (hexp : d.checkExpiration T E trx = true) {t : Tx} (ht : t ∈ past)
    (hid : T.id t = T.id trx) : d.isKnownTransaction T (T.id trx) = true := by
  rw [isKnownTransaction_iff, ← hid]
  refine h.known t ht ?_
  rw [T.expiration_eq t trx hid]
  simp only [checkExpiration, decide_eq_true_eq] at hexp
  exact hexp.imp_right And.right

theorem Remembers.applyTransaction (h : d.Remembers T past) (hs : d.applyTransaction T E trx = some d') :
    d'.Remembers T (past ++ [trx]) := by
  obtain ⟨hnew, hexp, rest, rfl⟩ := applyTransaction_inv hs
  have hfresh : T.id trx ∉ past.map T.id := fun hmem => by
    obtain ⟨t, ht, hid⟩ := List.mem_map.mp hmem
    have hknown := h.isKnown hexp ht hid
    rw [hnew] at hknown
    cases hknown
  constructor
  case known =>
    intro t ht hlive
    rcases List.mem_append.mp ht with ht | ht
    · obtain ⟨t', ht', hid⟩ := h.known t ht hlive
      exact ⟨t', mem_createTransaction.mpr (.inr ht'), hid⟩
    · obtain rfl := List.mem_singleton.mp ht
      exact ⟨t, mem_createTransaction.mpr (.inl rfl), rfl⟩
  case nodup =>
    rw [List.map_append, List.map_singleton, List.nodup_append]
    refine ⟨h.nodup, List.nodup_singleton _, fun a ha b hb hab => hfresh ?_⟩
    rwa [← List.mem_singleton.mp hb, ← hab]

theorem Remembers.applyTransactions (h : d.Remembers T past)
    (hs : txs.foldlM (Database.applyTransaction T E) d = some d') :
    d'.Remembers T (past ++ txs) ∧ d'.headBlockTime = d.headBlockTime := by
  induction txs generalizing d past with
  | nil =>
    obtain rfl := Option.some.inj hs
    rw [List.append_nil]
    exact ⟨h, rfl⟩
  | cons trx txs ih =>
    rw [List.foldlM_cons, Option.bind_eq_bind, Option.bind_eq_some_iff] at hs
    obtain ⟨d₁, h₁, hs⟩ := hs
    obtain ⟨-, -, rest, hd₁⟩ := applyTransaction_inv h₁
    obtain ⟨hrem, htime⟩ := ih (h.applyTransaction h₁) hs
    rw [List.append_assoc] at hrem
    exact ⟨hrem, htime.trans (by rw [hd₁]; rfl)⟩

/-- A transaction that the cleared index lacks fails the check from then on. -/
theorem Remembers.applyBlock (h : d.Remembers T past) (hs : d.applyBlock T E b = some d') :
    d'.Remembers T (past ++ b.transactions) := by
  obtain ⟨htime, d₁, rest, rest', htxs, rfl⟩ := applyBlock_inv hs
  obtain ⟨hrem, hsame⟩ := h.applyTransactions htxs
  refine ⟨fun t ht hlive => ?_, hrem.nodup⟩
  have hexp : b.timestamp ≤ T.expiration t := hlive.resolve_left (Nat.succ_ne_zero _)
  obtain ⟨t', ht', hid⟩ := hrem.known t ht (.inr (by rw [hsame]; exact (Nat.le_of_lt htime).trans hexp))
  refine ⟨t', mem_clearExpiredTransactions ht' ?_, hid⟩
  rw [T.expiration_eq t' t hid]
  exact hexp

end Database

/-! ### The chain -/

namespace Chain

/-- The chain was grown block by block. -/
inductive Grown (T : Transactions Tx Id) (E : Processing Tx σ) (g : Chain Tx σ) : Chain Tx σ → Prop
  | start : Grown T E g g
  | push {c : Chain Tx σ} {b : SignedBlock Tx} {d : Database Tx σ} (h : Grown T E g c)
      (hb : c.database.applyBlock T E b = some d) : Grown T E g ⟨d, (b, c.database) :: c.blocks⟩

theorem Grown.step {g : Chain Tx σ} (hg : g.blocks = []) (h : Grown T E g c) (a : Action Tx) :
    Grown T E g (c.step T E a) := by
  cases a with
  | push b =>
    cases hb : c.database.applyBlock T E b with
    | none =>
      simp only [Chain.step, hb]
      exact h
    | some d =>
      simp only [Chain.step, hb]
      exact h.push hb
  | pop =>
    cases h with
    | start =>
      simp only [Chain.step, hg]
      exact .start
    | push h hb => exact h

theorem Grown.remembers {g : Chain Tx σ} (hg : g.database.Remembers T g.included) (h : Grown T E g c) :
    c.database.Remembers T c.included := by
  induction h with
  | start => exact hg
  | push h hb ih =>
    have hincluded := ih.applyBlock hb
    simpa only [included, List.reverse_cons, List.flatMap_append, List.flatMap_singleton] using hincluded

end Chain

/-- No transaction is twice in the chain, and while a block is applied, what passes the expiration check is known if it
    is included. -/
structure ReplayProtected (T : Transactions Tx Id) (E : Processing Tx σ) (c : Chain Tx σ) : Prop where
  once : (c.included.map T.id).Nodup
  known : ∀ txs d, txs.foldlM (Database.applyTransaction T E) c.database = some d → ∀ trx,
    d.checkExpiration T E trx = true → ∀ t ∈ c.included ++ txs, T.id t = T.id trx → d.isKnownTransaction T (T.id trx) = true

/-- In every run of blocks that are pushed and popped, no transaction is included twice. -/
theorem included_once (T : Transactions Tx Id) (E : Processing Tx σ) (initialTimestamp : Nat) (rest : σ)
    (actions : List (Action Tx)) : ReplayProtected T E ((genesis initialTimestamp rest).run T E actions) := by
  have hgrown : Chain.Grown T E (genesis initialTimestamp rest) ((genesis initialTimestamp rest).run T E actions) :=
    run_invariant_all (fun c a h => h.step rfl a) .start
  have hnone : (genesis initialTimestamp rest : Chain Tx σ).included = [] := rfl
  have hrem := hgrown.remembers (by
    rw [hnone]
    exact ⟨fun t ht => absurd ht List.not_mem_nil, List.nodup_nil⟩)
  constructor
  case once => exact hrem.nodup
  case known =>
    intro txs d htxs trx hexp t ht hid
    exact (hrem.applyTransactions htxs).1.isKnown hexp ht hid

end Khc.Block
