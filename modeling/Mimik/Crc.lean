/-
# Cyclic redundancy checks

A register of `w` bits is divided by a polynomial, the lowest bit first: a step moves the
register down by one place, and adds the polynomial when a 1 falls out.  A byte of a message is
added to the low end of the register before its eight steps (`updateByte`).

The steps are linear (`steps_xor`), so that a message that fits in a wider register can be added
to it at once (`steps_word`), and where the polynomial has its highest bit no step forgets
anything (`steps_injective`).

Nothing here mentions a particular program.
-/
import Mathlib.Tactic.Common
import Mathlib.Data.List.GetD
import Mathlib.Data.Nat.Notation
import Mathlib.Logic.Function.Basic

namespace Crc

variable {v w : ℕ} {poly : BitVec w} {crc : BitVec w} {b : BitVec 8} {n : ℕ}

/-! ## Steps -/

/-- The division of one bit. -/
def step (poly crc : BitVec w) : BitVec w :=
  if crc.getLsbD 0 then crc >>> 1 ^^^ poly else crc >>> 1

/-- The division of `n` bits. -/
def steps (poly : BitVec w) : ℕ → BitVec w → BitVec w
  | 0, crc => crc
  | n + 1, crc => steps poly n (step poly crc)

/-- The division of a byte. -/
def updateByte (poly crc : BitVec w) (b : BitVec 8) : BitVec w :=
  steps poly 8 (crc ^^^ b.setWidth w)

/-- The division of a message. -/
def update (poly crc : BitVec w) (bytes : List (BitVec 8)) : BitVec w :=
  bytes.foldl (updateByte poly) crc

@[simp] theorem update_nil : update poly crc [] = crc := rfl

@[simp] theorem update_cons (bytes : List (BitVec 8)) :
    update poly crc (b :: bytes) = update poly (updateByte poly crc b) bytes := rfl

/-- **The division of a message goes on where it stopped.** -/
theorem update_append (bytes bytes' : List (BitVec 8)) :
    update poly crc (bytes ++ bytes') = update poly (update poly crc bytes) bytes' := by
  unfold update
  exact List.foldl_append

theorem steps_add (k n : ℕ) (crc : BitVec w) :
    steps poly (k + n) crc = steps poly n (steps poly k crc) := by
  induction k generalizing crc with
  | zero => rw [Nat.zero_add, steps]
  | succ k ih => rw [Nat.succ_add, steps, steps, ih]

/-! ## Linearity -/

theorem step_xor (x y : BitVec w) : step poly (x ^^^ y) = step poly x ^^^ step poly y := by
  unfold step
  rw [BitVec.getLsbD_xor, BitVec.ushiftRight_xor_distrib]
  cases x.getLsbD 0 <;> cases y.getLsbD 0
  · simp
  · simp [BitVec.xor_assoc]
  · simp only [Bool.xor_false, if_true, Bool.false_eq_true, if_false]
    ac_rfl
  · simp only [Bool.xor_self, Bool.false_eq_true, if_false, if_true]
    -- the polynomial is added twice
    have hpoly : poly ^^^ poly = 0#w := BitVec.xor_self
    calc x >>> 1 ^^^ y >>> 1 = x >>> 1 ^^^ y >>> 1 ^^^ (poly ^^^ poly) := by
          rw [hpoly, BitVec.xor_zero]
      _ = x >>> 1 ^^^ poly ^^^ (y >>> 1 ^^^ poly) := by ac_rfl

/-- **The division is linear.** -/
theorem steps_xor (n : ℕ) (x y : BitVec w) :
    steps poly n (x ^^^ y) = steps poly n x ^^^ steps poly n y := by
  induction n generalizing x y with
  | zero => rfl
  | succ n ih => rw [steps, steps, steps, step_xor, ih]

/-- A register with zeros at the low end moves down. -/
theorem steps_of_low (x : BitVec w) (h : ∀ i < n, x.getLsbD i = false) :
    steps poly n x = x >>> n := by
  induction n generalizing x with
  | zero => rw [steps, BitVec.ushiftRight_zero]
  | succ n ih =>
    have hstep : step poly x = x >>> 1 := by
      unfold step
      rw [h 0 (Nat.succ_pos n), if_neg Bool.false_ne_true]
    have hlow : ∀ i < n, (x >>> 1).getLsbD i = false := by
      intro i hi
      rw [BitVec.getLsbD_ushiftRight]
      exact h (1 + i) (by omega)
    rw [steps, hstep, ih _ hlow, ← BitVec.shiftRight_add, Nat.add_comm]

/-- A wider register takes the same step. -/
theorem step_setWidth (hwv : w ≤ v) (crc : BitVec w) :
    step (poly.setWidth v) (crc.setWidth v) = (step poly crc).setWidth v := by
  have hlow : (crc.setWidth v).getLsbD 0 = crc.getLsbD 0 := by
    rw [BitVec.getLsbD_setWidth]
    by_cases hv : 0 < v
    · rw [decide_eq_true hv, Bool.true_and]
    · rw [BitVec.getLsbD_of_ge crc 0 (by omega), Bool.and_false]
  have hdown : crc.setWidth v >>> 1 = (crc >>> 1).setWidth v :=
    (BitVec.setWidth_ushiftRight hwv).symm
  unfold step
  rw [hlow, hdown]
  split
  · rw [BitVec.setWidth_xor]
  · rfl

theorem steps_setWidth (hwv : w ≤ v) (n : ℕ) (crc : BitVec w) :
    steps (poly.setWidth v) n (crc.setWidth v) = (steps poly n crc).setWidth v := by
  induction n generalizing crc with
  | zero => rfl
  | succ n ih => rw [steps, steps, step_setWidth hwv, ih]

/-! ## Messages as words -/

/-- The word with the bytes of a message, the first one at the low end. -/
def word (v : ℕ) : List (BitVec 8) → BitVec v
  | [] => 0
  | b :: bytes => b.setWidth v ^^^ word v bytes <<< 8

/-- The bits of a word are those of its bytes. -/
theorem getLsbD_word (bytes : List (BitVec 8)) (i : ℕ) :
    (word v bytes).getLsbD i = (decide (i < v) && (bytes.getD (i / 8) 0).getLsbD (i % 8)) := by
  induction bytes generalizing i with
  | nil =>
    rw [word, List.getD_nil, BitVec.ofNat_eq_ofNat, BitVec.getLsbD_zero, BitVec.ofNat_eq_ofNat,
      BitVec.getLsbD_zero, Bool.and_false]
  | cons b bytes ih =>
    rw [word, BitVec.getLsbD_xor, BitVec.getLsbD_setWidth, BitVec.getLsbD_shiftLeft]
    by_cases hi : i < 8
    · rw [Nat.div_eq_of_lt hi, Nat.mod_eq_of_lt hi, List.getD_cons_zero, decide_eq_true hi,
        Bool.not_true, Bool.and_false, Bool.false_and, Bool.xor_false]
    · obtain ⟨k, rfl⟩ := Nat.exists_eq_add_of_le' (Nat.le_of_not_lt hi)
      rw [BitVec.getLsbD_of_ge b _ (Nat.le_of_not_lt hi), decide_eq_false hi, Nat.add_sub_cancel,
        ih, Nat.add_div_right k (by decide), Nat.add_mod_right, List.getD_cons_succ]
      by_cases hk : k + 8 < v
      · rw [decide_eq_true hk, decide_eq_true (by omega : k < v)]
        simp
      · rw [decide_eq_false hk]
        simp

/-- A word has zeros behind its bytes. -/
theorem getLsbD_word_of_le {bytes : List (BitVec 8)} {i : ℕ} (hi : 8 * bytes.length ≤ i) :
    (word v bytes).getLsbD i = false := by
  rw [getLsbD_word, List.getD_eq_default _ _ (by omega), BitVec.ofNat_eq_ofNat,
    BitVec.getLsbD_zero, Bool.and_false]

/-- **A word is the word of its bytes.** -/
theorem word_bytes (n : ℕ) (hn : v ≤ 8 * n) (x : BitVec v) :
    word v ((List.range n).map fun k => x.extractLsb' (8 * k) 8) = x := by
  apply BitVec.eq_of_getLsbD_eq
  intro i hi
  have hk : i / 8 < n := by omega
  rw [getLsbD_word, decide_eq_true hi, Bool.true_and, List.getD_eq_getElem _ _ (by simpa using hk),
    List.getElem_map, List.getElem_range, BitVec.getLsbD_extractLsb',
    decide_eq_true (Nat.mod_lt i (by decide)), Bool.true_and, Nat.div_add_mod]

/-- The bytes behind the first one, when all of them fit. -/
theorem word_shiftRight {bytes : List (BitVec 8)} (hlen : 8 * (bytes.length + 1) ≤ v) :
    word v bytes <<< 8 >>> 8 = word v bytes := by
  ext i hi
  rw [BitVec.getElem_ushiftRight, BitVec.getLsbD_shiftLeft, Nat.add_sub_cancel_left,
    ← BitVec.getLsbD_eq_getElem]
  by_cases hlast : 8 + i < v
  · rw [decide_eq_true hlast, decide_eq_false (by omega), Bool.not_false, Bool.true_and,
      Bool.true_and]
  · -- the last eight places are behind the bytes
    rw [getLsbD_word_of_le (by omega), Bool.and_false]

/-- **A message that fits in a register is divided at once.** -/
theorem steps_word (hwv : w ≤ v) (hw : 8 ≤ w) (bytes : List (BitVec 8))
    (hlen : 8 * bytes.length ≤ v) (crc : BitVec w) :
    steps (poly.setWidth v) (8 * bytes.length) (crc.setWidth v ^^^ word v bytes) =
      (update poly crc bytes).setWidth v := by
  induction bytes generalizing crc with
  | nil =>
    unfold word
    rw [List.length_nil, Nat.mul_zero, steps, update_nil]
    exact BitVec.xor_zero
  | cons b bytes ih =>
    rw [List.length_cons] at hlen
    have hbyte : (b.setWidth w).setWidth v = b.setWidth v :=
      BitVec.setWidth_setWidth fun h => by omega
    have hsplit : crc.setWidth v ^^^ word v (b :: bytes) =
        (crc ^^^ b.setWidth w).setWidth v ^^^ word v bytes <<< 8 := by
      rw [word, BitVec.setWidth_xor, hbyte, BitVec.xor_assoc]
    have hrest : steps (poly.setWidth v) 8 (word v bytes <<< 8) = word v bytes := by
      rw [steps_of_low _ fun i hi => ?_, word_shiftRight hlen]
      rw [BitVec.getLsbD_shiftLeft, decide_eq_true hi, Bool.not_true, Bool.and_false,
        Bool.false_and]
    have hcount : 8 * (b :: bytes).length = 8 + 8 * bytes.length := by
      rw [List.length_cons]
      omega
    rw [hcount, steps_add, hsplit, steps_xor, steps_setWidth hwv, hrest, update_cons,
      ← ih (by omega)]
    rfl

/-- Two messages of one length that fit are the same when their words are. -/
theorem eq_of_word_eq {bytes bytes' : List (BitVec 8)} (hlen : bytes.length = bytes'.length)
    (hfit : 8 * bytes.length ≤ v) (h : word v bytes = word v bytes') : bytes = bytes' := by
  refine List.ext_getElem hlen fun k hk hk' => ?_
  apply BitVec.eq_of_getLsbD_eq
  intro j hj
  have hlt : 8 * k + j < v := by omega
  have hdiv : (8 * k + j) / 8 = k := by omega
  have hmod : (8 * k + j) % 8 = j := by omega
  have hbit : (word v bytes).getLsbD (8 * k + j) = (word v bytes').getLsbD (8 * k + j) := by
    rw [h]
  rwa [getLsbD_word, getLsbD_word, decide_eq_true hlt, Bool.true_and, Bool.true_and, hdiv, hmod,
    List.getD_eq_getElem _ _ hk, List.getD_eq_getElem _ _ hk'] at hbit

/-! ## What is detected -/

/-- A step forgets nothing, when the polynomial has its highest bit. -/
theorem step_injective (hpoly : poly.msb = true) : Function.Injective (step poly) := by
  intro x y h
  -- the bit that falls out is the highest one afterwards
  have hmsb : ∀ z : BitVec w, (step poly z).msb = z.getLsbD 0 := by
    intro z
    unfold step
    split
    next hz => rw [BitVec.msb_xor, BitVec.msb_ushiftRight, hpoly, hz]; rfl
    next hz => rw [BitVec.msb_ushiftRight, eq_false_of_ne_true hz]; rfl
  have hlow : x.getLsbD 0 = y.getLsbD 0 := by rw [← hmsb, ← hmsb, h]
  have hdown : x >>> 1 = y >>> 1 := by
    unfold step at h
    rw [hlow] at h
    split at h
    · exact (BitVec.xor_left_inj poly).mp h
    · exact h
  apply BitVec.eq_of_getLsbD_eq
  intro i _
  cases i with
  | zero => exact hlow
  | succ i =>
    rw [Nat.add_comm, ← BitVec.getLsbD_ushiftRight, hdown, BitVec.getLsbD_ushiftRight]

theorem steps_injective (hpoly : poly.msb = true) (n : ℕ) :
    Function.Injective (steps poly n) := by
  induction n with
  | zero => exact fun _ _ h => h
  | succ n ih => exact fun _ _ h => step_injective hpoly (ih h)

/-- What is different stays different when the message goes on. -/
theorem update_injective (hpoly : poly.msb = true) (bytes : List (BitVec 8)) :
    Function.Injective fun crc => update poly crc bytes := by
  induction bytes with
  | nil => exact fun _ _ h => h
  | cons b bytes ih =>
    intro x y h
    have hbyte : updateByte poly x b = updateByte poly y b := ih h
    exact (BitVec.xor_left_inj _).mp (steps_injective hpoly 8 hbyte)

/-- **A change within the width of the register is detected.** -/
theorem update_burst (hpoly : poly.msb = true) (hw : 8 ≤ w) {bytes bytes' : List (BitVec 8)}
    (hlen : bytes.length = bytes'.length) (hfit : 8 * bytes.length ≤ w) (hne : bytes ≠ bytes')
    (before after : List (BitVec 8)) (crc : BitVec w) :
    update poly crc (before ++ bytes ++ after) ≠ update poly crc (before ++ bytes' ++ after) := by
  have hword : ∀ (crc : BitVec w) (l : List (BitVec 8)), 8 * l.length ≤ w →
      update poly crc l = steps poly (8 * l.length) (crc ^^^ word w l) := by
    intro crc l hl
    have h : steps (poly.setWidth w) (8 * l.length) (crc.setWidth w ^^^ word w l) =
        (update poly crc l).setWidth w := steps_word (Nat.le_refl w) hw l hl crc
    rw [BitVec.setWidth_eq, BitVec.setWidth_eq, BitVec.setWidth_eq] at h
    exact h.symm
  intro h
  rw [update_append, update_append, update_append, update_append] at h
  have hmid := update_injective hpoly after h
  have hfit' : 8 * bytes'.length ≤ w := by omega
  rw [hword _ bytes hfit, hword _ bytes' hfit', hlen] at hmid
  have hxor := steps_injective hpoly _ hmid
  exact hne (eq_of_word_eq hlen hfit ((BitVec.xor_right_inj _).mp hxor))

end Crc
