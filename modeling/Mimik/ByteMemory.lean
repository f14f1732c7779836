/-
# Memory of bytes

A memory is a function from addresses to bytes.  Numbers of several bytes are stored
with the lowest byte first.  The lemmas say what a load reads after a store: the stored
number at the same place, and what was there before at every other place.

Nothing here mentions a particular program.
-/
import Mathlib.Tactic.Common
import Mathlib.Algebra.Group.Nat.Defs

/-- A byte at every address. -/
abbrev ByteMemory := ℕ → BitVec 8

namespace ByteMemory

variable {m m' : ByteMemory} {a b n k v : ℕ}

/-- The number in the `n` bytes from `a` on. -/
def load (m : ByteMemory) (a : ℕ) : ℕ → ℕ
  | 0 => 0
  | n + 1 => (m a).toNat + 256 * load m (a + 1) n

/-- The number `v` in the `n` bytes from `a` on. -/
def store (m : ByteMemory) (a n v : ℕ) : ByteMemory := fun b =>
  if a ≤ b ∧ b < a + n then BitVec.ofNat 8 (v / 256 ^ (b - a)) else m b

/-- A number of `n` bytes is bounded. -/
theorem load_lt (m : ByteMemory) (a n : ℕ) : m.load a n < 256 ^ n := by
  induction n generalizing a with
  | zero => exact Nat.one_pos
  | succ n ih =>
    have hbyte := (m a).isLt
    have hrest := ih (a + 1)
    rw [load, Nat.pow_succ]
    omega

/-- A load depends on the bytes it reads. -/
theorem load_congr (h : ∀ b, a ≤ b → b < a + n → m b = m' b) : m.load a n = m'.load a n := by
  induction n generalizing a with
  | zero => rfl
  | succ n ih =>
    rw [load, load, h a (Nat.le_refl a) (by omega),
      ih fun b hle hlt => h b (by omega) (by omega)]

/-- A load of many bytes is two loads. -/
theorem load_add (m : ByteMemory) (a n k : ℕ) :
    m.load a (n + k) = m.load a n + 256 ^ n * m.load (a + n) k := by
  induction n generalizing a with
  | zero => rw [Nat.zero_add, load, Nat.zero_add, Nat.pow_zero, Nat.one_mul, Nat.add_zero]
  | succ n ih =>
    rw [Nat.succ_add, load, load, ih (a + 1), Nat.add_right_comm a 1 n, Nat.pow_succ',
      Nat.mul_assoc, Nat.mul_add, ← Nat.add_assoc, ← Nat.add_assoc]

/-- Bytes that are 0 make the number 0. -/
theorem load_zero (h : ∀ b, a ≤ b → b < a + n → m b = 0) : m.load a n = 0 := by
  induction n generalizing a with
  | zero => rfl
  | succ n ih =>
    rw [load, h a (Nat.le_refl a) (by omega), ih fun b hle hlt => h b (by omega) (by omega)]
    rfl

theorem store_of_mem (hle : a ≤ b) (hlt : b < a + n) :
    m.store a n v b = BitVec.ofNat 8 (v / 256 ^ (b - a)) := if_pos ⟨hle, hlt⟩

/-- A store leaves other bytes alone. -/
theorem store_of_not_mem (h : b < a ∨ a + n ≤ b) : m.store a n v b = m b :=
  if_neg (by omega)

/-- The bytes of a number, from the lowest one on. -/
theorem load_of_bytes (h : ∀ i < n, m (a + i) = BitVec.ofNat 8 (v / 256 ^ i)) :
    m.load a n = v % 256 ^ n := by
  induction n generalizing a v with
  | zero => rw [load, Nat.pow_zero, Nat.mod_one]
  | succ n ih =>
    have hfirst := h 0 (Nat.succ_pos n)
    rw [Nat.add_zero, Nat.pow_zero, Nat.div_one] at hfirst
    have hrest : m.load (a + 1) n = v / 256 % 256 ^ n := by
      refine ih fun i hi => ?_
      rw [Nat.add_assoc, Nat.add_comm 1 i, h (i + 1) (by omega), Nat.pow_succ,
        Nat.div_div_eq_div_mul, Nat.mul_comm 256]
    have hbyte : (BitVec.ofNat 8 v).toNat = v % 256 := BitVec.toNat_ofNat v 8
    rw [load, hfirst, hrest, hbyte, Nat.pow_succ', Nat.mod_mul]

/-- **What was stored is loaded.** -/
theorem load_store (hv : v < 256 ^ n) : (m.store a n v).load a n = v := by
  rw [load_of_bytes fun i hi => ?_, Nat.mod_eq_of_lt hv]
  rw [store_of_mem (by omega) (by omega), Nat.add_sub_cancel_left]

/-- **A store elsewhere is not loaded.** -/
theorem load_store_of_disjoint (h : b + k ≤ a ∨ a + n ≤ b) :
    (m.store a n v).load b k = m.load b k :=
  load_congr fun _ hle hlt => store_of_not_mem (by omega)

end ByteMemory
