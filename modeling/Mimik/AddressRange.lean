/-
# Ranges of addresses

An address is a word, and the addresses go round: behind the last one comes the first.
The place of an address `a` in a range that starts at `p` is the offset `a - p`.  A
memory has a cell at every address.  Two effects on a range are defined at once for all
its cells, `fill` and `move`; the lemmas put them together from pieces, and say when a
loop that copies one cell after the other has the effect of `move`.

Nothing here mentions a particular program.
-/
import Mathlib.Tactic.Common
import Mathlib.Logic.Function.Basic
import Mathlib.Algebra.Group.Nat.Defs

namespace AddressRange

variable {w : ℕ} {β : Type*}

/-! ## Offsets -/

/-- The address `a` is one of the `n` from `p` on. -/
def InRange (p : BitVec w) (n : ℕ) (a : BitVec w) : Prop := (a - p).toNat < n

/-- The address at an offset. -/
theorem add_offset (p a : BitVec w) : p + BitVec.ofNat w (a - p).toNat = a := by
  rw [BitVec.ofNat_toNat, BitVec.setWidth_eq, BitVec.add_comm, BitVec.sub_add_cancel]

/-- The offset of an address that is given by an offset. -/
theorem offset_add (p : BitVec w) {k : ℕ} (hk : k < 2 ^ w) :
    (p + BitVec.ofNat w k - p).toNat = k := by
  rw [BitVec.add_comm, BitVec.add_sub_cancel, BitVec.toNat_ofNat, Nat.mod_eq_of_lt hk]

/-- The first address of a range. -/
theorem offset_lt_one (p a : BitVec w) : (a - p).toNat < 1 ↔ a = p := by
  have hzero : (a - p).toNat = 0 ↔ a - p = 0#w := by
    rw [← BitVec.toNat_inj, BitVec.toNat_zero]
  rw [Nat.lt_one_iff, hzero, BitVec.sub_eq_iff_eq_add, BitVec.zero_add]

/-- The offset from a later start. -/
theorem offset_sub {p a : BitVec w} {k : ℕ} (hk : k ≤ (a - p).toNat) :
    (a - (p + BitVec.ofNat w k)).toNat = (a - p).toNat - k := by
  have hlt := (a - p).isLt
  have hk' : (BitVec.ofNat w k).toNat = k := by
    rw [BitVec.toNat_ofNat, Nat.mod_eq_of_lt (by omega)]
  have hle : BitVec.ofNat w k ≤ a - p := by
    rw [BitVec.le_def, hk']
    exact hk
  rw [← BitVec.sub_sub, BitVec.toNat_sub_of_le hle, hk']

/-- Two ranges of `n` addresses have none in common. -/
def Apart (p q : BitVec w) (n : ℕ) : Prop := ∀ a, ¬ (InRange p n a ∧ InRange q n a)

/-! ## The cells of a range -/

/-- The `n` cells from `p` on. -/
def cells (m : BitVec w → β) (p : BitVec w) (n : ℕ) : List β :=
  (List.range n).map fun k => m (p + BitVec.ofNat w k)

@[simp] theorem length_cells (m : BitVec w → β) (p : BitVec w) (n : ℕ) :
    (cells m p n).length = n := by
  rw [cells, List.length_map, List.length_range]

/-- **Two ranges, one behind the other, are read as one.** -/
theorem cells_add (m : BitVec w → β) (p : BitVec w) (k n : ℕ) :
    cells m p (k + n) = cells m p k ++ cells m (p + BitVec.ofNat w k) n := by
  unfold cells
  rw [List.range_add, List.map_append, List.map_map]
  congr 1
  apply List.map_congr_left
  intro i _
  rw [Function.comp_apply, BitVec.ofNat_add, BitVec.add_assoc]

/-- Cells that are the same in two memories. -/
theorem cells_congr {m m' : BitVec w → β} {p : BitVec w} {n : ℕ}
    (h : ∀ k < n, m (p + BitVec.ofNat w k) = m' (p + BitVec.ofNat w k)) :
    cells m p n = cells m' p n := by
  unfold cells
  apply List.map_congr_left
  intro k hk
  exact h k (List.mem_range.mp hk)

/-! ## Filling a range -/

/-- The memory with `c` in the `n` cells from `p` on. -/
def fill (m : BitVec w → β) (p : BitVec w) (n : ℕ) (c : β) : BitVec w → β := fun a =>
  if (a - p).toNat < n then c else m a

theorem fill_zero (m : BitVec w → β) (p : BitVec w) (c : β) : fill m p 0 c = m :=
  funext fun _ => if_neg (Nat.not_lt_zero _)

/-- One cell. -/
theorem fill_one (m : BitVec w → β) (p : BitVec w) (c : β) :
    fill m p 1 c = Function.update m p c := by
  funext a
  rw [fill, Function.update_apply]
  exact if_congr (offset_lt_one p a) rfl rfl

/-- **Two ranges, one behind the other, are filled as one.** -/
theorem fill_fill (m : BitVec w → β) (p : BitVec w) (k n : ℕ) (c : β) :
    fill (fill m p k c) (p + BitVec.ofNat w k) n c = fill m p (k + n) c := by
  funext a
  simp only [fill]
  by_cases hk : k ≤ (a - p).toNat
  · rw [offset_sub hk, if_neg (by omega : ¬ (a - p).toNat < k)]
    exact if_congr (by omega) rfl rfl
  · rw [if_pos (by omega : (a - p).toNat < k), if_pos (by omega : (a - p).toNat < k + n), ite_self]

/-- A range that is filled up to `k` and then further has not changed behind `k` exactly
when the cells there had the value before. -/
theorem fill_eq_fill_iff (m : BitVec w → β) (p : BitVec w) (k n : ℕ) (c : β) :
    fill m p (k + n) c = fill m p k c ↔
      ∀ a, k ≤ (a - p).toNat → (a - p).toNat < k + n → m a = c := by
  constructor
  · intro h a hle hlt
    have ha := congrFun h a
    rw [fill, fill, if_pos hlt, if_neg (by omega)] at ha
    exact ha.symm
  · intro h
    funext a
    simp only [fill]
    by_cases hk : (a - p).toNat < k
    · rw [if_pos hk, if_pos (by omega)]
    · rw [if_neg hk]
      split
      next hlt => exact (h a (by omega) hlt).symm
      next => rfl

/-! ## Moving a range -/

/-- The memory with the former cells from `src` on in the `n` cells from `dst` on. -/
def move (m : BitVec w → β) (dst src : BitVec w) (n : ℕ) : BitVec w → β := fun a =>
  if (a - dst).toNat < n then m (src + (a - dst)) else m a

theorem move_zero (m : BitVec w → β) (dst src : BitVec w) : move m dst src 0 = m :=
  funext fun _ => if_neg (Nat.not_lt_zero _)

/-- A cell outside the range is as before. -/
theorem move_of_not_inRange {m : BitVec w → β} {dst src a : BitVec w} {n : ℕ}
    (ha : ¬ InRange dst n a) : move m dst src n a = m a := if_neg ha

/-- The cell at an offset. -/
theorem move_at {m : BitVec w → β} {dst src : BitVec w} {n k : ℕ} (hk : k < n)
    (hw : k < 2 ^ w) :
    move m dst src n (dst + BitVec.ofNat w k) = m (src + BitVec.ofNat w k) := by
  rw [move, offset_add dst hw, if_pos hk, BitVec.add_comm dst, BitVec.add_sub_cancel]

/-- One cell. -/
theorem move_one (m : BitVec w → β) (dst src : BitVec w) :
    move m dst src 1 = Function.update m dst (m src) := by
  funext a
  rw [move, Function.update_apply, if_congr (offset_lt_one dst a) rfl rfl]
  split
  next h => rw [h, BitVec.sub_self, BitVec.add_zero]
  next => rfl

/-- The offset from a later start, for an address before it. -/
theorem le_offset_of_lt {p a : BitVec w} {k n : ℕ} (hk : (a - p).toNat < k) (hn : k + n ≤ 2 ^ w) :
    n ≤ (a - (p + BitVec.ofNat w k)).toNat := by
  rw [← BitVec.sub_sub, BitVec.toNat_sub, BitVec.toNat_ofNat]
  rcases Nat.eq_zero_or_pos n with rfl | hpos
  · exact Nat.zero_le _
  · rw [Nat.mod_eq_of_lt (by omega : k < 2 ^ w), Nat.mod_eq_of_lt (by omega)]
    omega

/-- **A range is moved in two pieces**, when the first piece does not write what the second
one reads. -/
theorem move_move {m : BitVec w → β} {dst src : BitVec w} {k n : ℕ} (hw : k + n ≤ 2 ^ w)
    (h : ∀ i, k ≤ i → i < k + n → ¬ InRange dst k (src + BitVec.ofNat w i)) :
    move (move m dst src k) (dst + BitVec.ofNat w k) (src + BitVec.ofNat w k) n =
      move m dst src (k + n) := by
  funext a
  by_cases hk : k ≤ (a - dst).toNat
  · have hsum : src + BitVec.ofNat w k + (a - (dst + BitVec.ofNat w k)) = src + (a - dst) := by
      rw [← BitVec.sub_sub, BitVec.add_assoc, BitVec.add_comm (BitVec.ofNat w k),
        BitVec.sub_add_cancel]
    simp only [move, offset_sub hk, hsum]
    rw [if_neg (by omega : ¬ (a - dst).toNat < k)]
    by_cases hn : (a - dst).toNat < k + n
    · have hread := h (a - dst).toNat hk hn
      rw [BitVec.ofNat_toNat, BitVec.setWidth_eq, InRange] at hread
      rw [if_pos (by omega), if_pos hn, if_neg hread]
    · rw [if_neg (by omega), if_neg hn]
  · have hbehind := le_offset_of_lt (Nat.lt_of_not_le hk) hw
    rw [move, if_neg (by omega), move, move, if_pos (by omega), if_pos (by omega)]

/-- A range that grows by one cell. -/
theorem move_succ (m : BitVec w → β) (dst src : BitVec w) {n : ℕ} (hn : n < 2 ^ w) :
    move m dst src (n + 1) =
      Function.update (move m dst src n) (dst + BitVec.ofNat w n) (m (src + BitVec.ofNat w n)) := by
  funext a
  by_cases ha : a = dst + BitVec.ofNat w n
  · rw [ha, Function.update_self, move_at (Nat.lt_succ_self n) hn]
  · have hne : (a - dst).toNat ≠ n := fun h => ha (by rw [← h, add_offset])
    rw [Function.update_of_ne ha, move, move]
    exact if_congr (by omega) rfl rfl

/-- A cell that is neither read nor written may be written first. -/
theorem move_update {m : BitVec w → β} {dst src a : BitVec w} {n : ℕ} (v : β)
    (hdst : ¬ InRange dst n a) (hsrc : ∀ k < n, src + BitVec.ofNat w k ≠ a) :
    move (Function.update m a v) dst src n = Function.update (move m dst src n) a v := by
  funext b
  by_cases hb : b = a
  · rw [hb, move_of_not_inRange hdst, Function.update_self, Function.update_self]
  · rw [Function.update_of_ne hb, move, move, Function.update_of_ne hb]
    split
    next h =>
      have hread := hsrc _ h
      rw [BitVec.ofNat_toNat, BitVec.setWidth_eq] at hread
      rw [Function.update_of_ne hread]
    next => rfl

/-! ## The order of a copy -/

/-- From the first cell up, no cell is written before it is read. -/
def Ascends (dst src : BitVec w) (n : ℕ) : Prop :=
  ∀ i < n, ∀ j < i, src + BitVec.ofNat w i ≠ dst + BitVec.ofNat w j

/-- From the last cell down, no cell is written before it is read. -/
def Descends (dst src : BitVec w) (n : ℕ) : Prop :=
  ∀ j < n, ∀ i < j, src + BitVec.ofNat w i ≠ dst + BitVec.ofNat w j

section Order

variable {p q dst src : BitVec w} {n k : ℕ}

/-- An address that is given by its offset is in the range. -/
theorem inRange_add (p : BitVec w) (hk : k < n) : InRange p n (p + BitVec.ofNat w k) := by
  rw [InRange, BitVec.add_comm, BitVec.add_sub_cancel, BitVec.toNat_ofNat]
  exact Nat.lt_of_le_of_lt (Nat.mod_le _ _) hk

/-- Addresses of ranges that are apart are different. -/
theorem Apart.ne (h : Apart p q n) {i j : ℕ} (hi : i < n) (hj : j < n) :
    q + BitVec.ofNat w i ≠ p + BitVec.ofNat w j := by
  intro heq
  refine h (q + BitVec.ofNat w i) ⟨?_, inRange_add q hi⟩
  rw [heq]
  exact inRange_add p hj

theorem Apart.ascends (h : Apart dst src n) : Ascends dst src n :=
  fun _ hi _ hj => h.ne hi (Nat.lt_trans hj hi)

theorem Apart.descends (h : Apart dst src n) : Descends dst src n :=
  fun _ hj _ hi => h.ne (Nat.lt_trans hi hj) hj

/-- Two ranges that are apart fill half of all addresses at most. -/
theorem Apart.two_mul_le (h : Apart p q n) : 2 * n ≤ 2 ^ w := by
  rcases Nat.eq_zero_or_pos n with rfl | hpos
  · exact Nat.zero_le _
  · have hself : ∀ r : BitVec w, InRange r n r := fun r => by
      rw [InRange, BitVec.sub_self, BitVec.toNat_zero]
      exact hpos
    have hp : n ≤ (q - p).toNat := Nat.le_of_not_lt fun hlt => h q ⟨hlt, hself q⟩
    have hq : n ≤ (p - q).toNat := Nat.le_of_not_lt fun hlt => h p ⟨hself p, hlt⟩
    have hlt := (q - p).isLt
    have hneg : p - q = -(q - p) := by
      rw [BitVec.neg_sub, BitVec.sub_eq_add_neg, BitVec.add_comm]
    rw [hneg, BitVec.toNat_neg, Nat.mod_eq_of_lt (by omega)] at hq
    omega

theorem Ascends.mono (h : Ascends dst src n) (hk : k ≤ n) : Ascends dst src k :=
  fun i hi => h i (Nat.lt_of_lt_of_le hi hk)

/-- The rest of the range. -/
theorem Ascends.tail (h : Ascends dst src (k + n)) :
    Ascends (dst + BitVec.ofNat w k) (src + BitVec.ofNat w k) n := by
  intro i hi j hj
  rw [BitVec.add_assoc, BitVec.add_assoc, ← BitVec.ofNat_add, ← BitVec.ofNat_add]
  exact h (k + i) (by omega) (k + j) (by omega)

/-- Upwards, a range may be moved in two pieces. -/
theorem Ascends.move_move (h : Ascends dst src (k + n)) (hw : k + n ≤ 2 ^ w)
    (m : BitVec w → β) :
    move (move m dst src k) (dst + BitVec.ofNat w k) (src + BitVec.ofNat w k) n =
      move m dst src (k + n) := by
  refine AddressRange.move_move hw fun i hki hi hin => ?_
  exact h i hi _ (Nat.lt_of_lt_of_le hin hki) (add_offset dst _).symm

end Order

end AddressRange
