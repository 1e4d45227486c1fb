import Khc.Lib.Except
import Mathlib.Tactic.Ring

/-! Codecs: a writer and a reader of bytes that undo each other, and the numbers below 2^32 in groups of seven bits. -/

namespace Khc.Lib

abbrev Bytes := List UInt8

variable {ε α : Type}

/-- The reader gets back what the writer wrote, and the writer writes again what the reader has read, at the same depth. -/
structure Codec (ε α : Type) where
  pack : Nat → α → Except ε Bytes
  unpack : Nat → Bytes → Except ε (α × Bytes)
  unpack_pack : ∀ {depth x bytes}, pack depth x = .ok bytes → ∀ rest, unpack depth (bytes ++ rest) = .ok (x, rest)
  pack_unpack : ∀ {depth s x rest}, unpack depth s = .ok (x, rest) → ∃ bytes, pack depth x = .ok bytes ∧ s = bytes ++ rest

/-- The same for the numbers below 2^32, which are written at any depth. -/
structure Varint (ε : Type) where
  pack : Nat → Bytes
  unpack : Bytes → Except ε (Nat × Bytes)
  unpack_pack : ∀ {n}, n < 2 ^ 32 → ∀ rest, unpack (pack n ++ rest) = .ok (n, rest)
  pack_unpack : ∀ {s n rest}, unpack s = .ok (n, rest) → n < 2 ^ 32 ∧ s = pack n ++ rest

/-! ### Groups of seven bits -/

namespace Varint
variable {e : ε} {fuel n : Nat} {s rest : Bytes}

/-- The lowest group first, and the high bit of every byte but the last set -/
def write : Nat → Nat → Bytes
  | 0, n => [n.toUInt8]
  | fuel + 1, n => if n < 128 then [n.toUInt8] else (n % 128 + 128).toUInt8 :: write fuel (n / 128)

/-- The shortest form only -/
def read (e : ε) : Bytes → Except ε (Nat × Bytes)
  | [] => .error e
  | b :: s =>
    if b.toNat < 128 then .ok (b.toNat, s)
    else do
      let (n, rest) ← read e s
      ensure (n ≠ 0) e
      return (b.toNat - 128 + 128 * n, rest)

theorem toNat_toUInt8 (h : n < 256) : n.toUInt8.toNat = n := by
  simp [Nat.mod_eq_of_lt h]

theorem toUInt8_toNat (b : UInt8) : b.toNat.toUInt8 = b := by
  simp

theorem read_write (h : n < 128 ^ (fuel + 1)) (rest : Bytes) : read e (write fuel n ++ rest) = .ok (n, rest) := by
  have hlast : n < 128 → read e ([n.toUInt8] ++ rest) = .ok (n, rest) := by
    intro hn
    rw [List.singleton_append, read, toNat_toUInt8 (by omega), if_pos hn]
  induction fuel generalizing n with
  | zero => exact hlast (by simpa using h)
  | succ fuel ih =>
    rw [write]
    split
    · exact hlast ‹_›
    · rename_i hn
      have hdiv : n / 128 < 128 ^ (fuel + 1) := Nat.div_lt_of_lt_mul (by rw [pow_succ] at h; omega)
      have hrest := ih hdiv fun hlt => by rw [List.singleton_append, read, toNat_toUInt8 (by omega), if_pos hlt]
      have hvalue : n % 128 + 128 - 128 + 128 * (n / 128) = n := by omega
      rw [List.cons_append, read, toNat_toUInt8 (by omega), if_neg (by omega)]
      exact bind_eq_ok.mpr ⟨_, hrest, bind_eq_ok.mpr ⟨(), ensure_eq_ok.mpr (by omega), by rw [hvalue]; rfl⟩⟩

theorem write_read (h : read e s = .ok (n, rest)) (hn : n < 128 ^ (fuel + 1)) : s = write fuel n ++ rest := by
  induction s generalizing n fuel with
  | nil => cases h
  | cons b s ih =>
    rw [read] at h
    split at h
    · rename_i hb
      obtain ⟨rfl, rfl⟩ := Prod.mk.inj (Except.ok.inj h)
      cases fuel with
      | zero => rw [write, toUInt8_toNat, List.singleton_append]
      | succ fuel => rw [write, if_pos hb, toUInt8_toNat, List.singleton_append]
    · rename_i hb
      simp only [bind_eq_ok, ensure_eq_ok, pure_eq_ok, Prod.mk.injEq] at h
      obtain ⟨⟨m, rest'⟩, hread, _, hm, rfl, rfl⟩ := h
      have hlt := b.toNat_lt
      cases fuel with
      | zero =>
        rw [zero_add, pow_one] at hn
        omega
      | succ fuel =>
        have hmod : (b.toNat - 128 + 128 * m) % 128 + 128 = b.toNat := by omega
        have hdiv : (b.toNat - 128 + 128 * m) / 128 = m := by omega
        rw [write, if_neg (by omega), hmod, hdiv, toUInt8_toNat, List.cons_append, ← ih hread]
        rw [pow_succ] at hn
        omega

/-- At most five bytes -/
def groups (e : ε) : Varint ε where
  pack := write 4
  unpack s := do
    let (n, rest) ← read e s
    ensure (n < 2 ^ 32) e
    return (n, rest)
  unpack_pack := by
    intro n hn rest
    have hread : read e (write 4 n ++ rest) = .ok (n, rest) := read_write (by omega) rest
    exact bind_eq_ok.mpr ⟨_, hread, bind_eq_ok.mpr ⟨(), ensure_eq_ok.mpr hn, rfl⟩⟩
  pack_unpack := by
    intro s n rest h
    simp only [bind_eq_ok, ensure_eq_ok, pure_eq_ok, Prod.mk.injEq] at h
    obtain ⟨⟨m, rest'⟩, hread, _, hm, rfl, rfl⟩ := h
    exact ⟨hm, write_read hread (by omega)⟩

end Varint

end Khc.Lib
