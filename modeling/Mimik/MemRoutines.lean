/-
# Filling and copying memory (`mem/mem.c`)

A memory has a byte at every address of 64 bits, and an access through a pointer that is
not `NULL` succeeds.  A `size_t` object at an address is the eight bytes from there on,
the lowest first.

`mem_set` and `mem_copy` work in words first and count the words they have done, not the
bytes, off the size: for each word the byte loop does seven bytes too many.  In
`mem_copy_reverse` the size is counted down before it is used as an index.  The results
say what each of the three does to the whole memory, and when it is what it should be.
-/
import Mimik.AddressRange
import Mimik.Basic
import Mathlib.Tactic.IntervalCases

namespace Mimik.Mem

open AddressRange

/-- A byte at each address. -/
abbrev Memory := BitVec 64 → BitVec 8

/-! ## Words -/

/-- `sizeof(size_t)`. -/
def wordSize : ℕ := 8

/-- The `size_t` at an address. -/
def loadWord (m : Memory) (a : BitVec 64) : BitVec 64 :=
  m (a + 7) ++ m (a + 6) ++ m (a + 5) ++ m (a + 4) ++ m (a + 3) ++ m (a + 2) ++ m (a + 1) ++ m a

/-- A write of the `size_t` at an address. -/
def storeWord (m : Memory) (a v : BitVec 64) : Memory := fun b =>
  if (b - a).toNat < wordSize then v.extractLsb' (8 * (b - a).toNat) 8 else m b

/-! ## `mem_set` -/

/-- The loop that makes `c_big`, after `sBig` rounds. -/
def cBigAfter (c : BitVec 8) : ℕ → BitVec 64
  | 0 => 0
  | sBig + 1 => cBigAfter c sBig <<< 8 ||| c.setWidth 64

/-- The loop over words: the memory, and the pointer behind the last one. -/
def setBig (cBig : BitVec 64) : ℕ → Memory → BitVec 64 → Memory × BitVec 64
  | 0, m, big => (m, big)
  | sBig + 1, m, big => setBig cBig sBig (storeWord m big cBig) (big + 8#64)

/-- The loop over bytes. -/
def setBytes (c : BitVec 8) : ℕ → Memory → BitVec 64 → Memory
  | 0, m, _ => m
  | s + 1, m, b => setBytes c s (Function.update m b c) (b + 1#64)

/-- `mem_set`. -/
def memSet (m : Memory) (p : BitVec 64) (c : BitVec 8) (s : BitVec 64) : Except Fault Memory := do
  assert (p != 0) "p != NULL"
  let cBig := cBigAfter c wordSize
  let sBig := s / 8
  assert (sBig ≤ s) "s_big <= s"
  -- the number of words, not of their bytes
  let s := s - sBig
  let (m, big) := setBig cBig sBig.toNat m p
  return setBytes c s.toNat m big

/-! ## `mem_copy` and `mem_copy_reverse` -/

/-- The loop over words: the memory, and the pointers behind the last ones. -/
def copyBig : ℕ → Memory → BitVec 64 → BitVec 64 → Memory × BitVec 64 × BitVec 64
  | 0, m, bigDst, bigSrc => (m, bigDst, bigSrc)
  | szBig + 1, m, bigDst, bigSrc =>
    copyBig szBig (storeWord m bigDst (loadWord m bigSrc)) (bigDst + 8#64) (bigSrc + 8#64)

/-- The loop over bytes. -/
def copyBytes : ℕ → Memory → BitVec 64 → BitVec 64 → Memory
  | 0, m, _, _ => m
  | sz + 1, m, bdst, bsrc => copyBytes sz (Function.update m bdst (m bsrc)) (bdst + 1#64)
    (bsrc + 1#64)

/-- `mem_copy`. -/
def memCopy (m : Memory) (dst src sz : BitVec 64) : Except Fault Memory := do
  assert (dst != 0) "dst != NULL"
  assert (src != 0) "src != NULL"
  let szBig := sz / 8
  assert (szBig ≤ sz) "sz_big <= sz"
  let sz := sz - szBig
  let (m, bdst, bsrc) := copyBig szBig.toNat m dst src
  return copyBytes sz.toNat m bdst bsrc

/-- The loop of `mem_copy_reverse`.  In its body `sz` is already counted down. -/
def copyDown (bdst bsrc : BitVec 64) : ℕ → Memory → Memory
  | 0, m => m
  | sz + 1, m =>
    let i := BitVec.ofNat 64 sz - 1#64
    copyDown bdst bsrc sz (Function.update m (bdst + i) (m (bsrc + i)))

/-- `mem_copy_reverse`. -/
def memCopyReverse (m : Memory) (dst src sz : BitVec 64) : Except Fault Memory := do
  assert (dst != 0) "bdst != NULL"
  assert (src != 0) "bsrc != NULL"
  return copyDown dst src sz.toNat m

/-! ## Words and their bytes -/

/-- The bytes of a word. -/
theorem storeWord_eq {m m' : Memory} {a v : BitVec 64}
    (hbyte : ∀ k < 8, v.extractLsb' (8 * k) 8 = m' (a + BitVec.ofNat 64 k))
    (hother : ∀ b, ¬ InRange a 8 b → m b = m' b) : storeWord m a v = m' := by
  funext b
  rw [storeWord]
  split
  next h => rw [hbyte _ h, add_offset]
  next h => exact hother b h

/-- All bytes of `c_big` are `c`. -/
theorem extractLsb'_cBig (c : BitVec 8) {k : ℕ} (hk : k < 8) :
    (cBigAfter c wordSize).extractLsb' (8 * k) 8 = c := by
  ext i hi
  simp only [wordSize, cBigAfter, BitVec.getElem_extractLsb', BitVec.getLsbD_or,
    BitVec.getLsbD_shiftLeft, BitVec.getLsbD_setWidth]
  interval_cases k <;> simp [hi] <;> grind

/-- A word of `c_big` fills its eight bytes. -/
theorem storeWord_cBig (m : Memory) (a : BitVec 64) (c : BitVec 8) :
    storeWord m a (cBigAfter c wordSize) = fill m a 8 c := by
  refine storeWord_eq (fun k hk => ?_) fun b hb => (if_neg hb).symm
  rw [extractLsb'_cBig c hk, fill, offset_add a (by omega), if_pos hk]

/-- A byte of a word that was loaded. -/
theorem extractLsb'_loadWord (m : Memory) (a : BitVec 64) {k : ℕ} (hk : k < 8) :
    (loadWord m a).extractLsb' (8 * k) 8 = m (a + BitVec.ofNat 64 k) := by
  ext i hi
  rw [BitVec.getElem_extractLsb', loadWord]
  simp only [BitVec.getLsbD_append]
  interval_cases k <;> simp [hi, BitVec.getLsbD_eq_getElem] <;> grind

/-- A word that is copied is its eight bytes, read before the first is written. -/
theorem storeWord_loadWord (m : Memory) (dst src : BitVec 64) :
    storeWord m dst (loadWord m src) = move m dst src 8 := by
  refine storeWord_eq (fun k hk => ?_) fun b hb => (move_of_not_inRange hb).symm
  rw [extractLsb'_loadWord m src hk, move_at hk (by omega)]

/-! ## What `mem_set` fills -/

/-- The loop over words. -/
theorem setBig_eq (c : BitVec 8) (n : ℕ) (m : Memory) (big : BitVec 64) :
    setBig (cBigAfter c wordSize) n m big =
      (fill m big (8 * n) c, big + BitVec.ofNat 64 (8 * n)) := by
  induction n generalizing m big with
  | zero => rw [setBig, Nat.mul_zero, fill_zero, BitVec.add_zero]
  | succ n ih =>
    have hsum : 8 * (n + 1) = 8 + 8 * n := by omega
    rw [setBig, storeWord_cBig, ih, hsum, ← fill_fill, BitVec.ofNat_add, BitVec.add_assoc]

/-- The loop over bytes. -/
theorem setBytes_eq (c : BitVec 8) (n : ℕ) (m : Memory) (b : BitVec 64) :
    setBytes c n m b = fill m b n c := by
  induction n generalizing m b with
  | zero => rw [setBytes, fill_zero]
  | succ n ih =>
    rw [setBytes, ih, Nat.add_comm, ← fill_fill m b 1 n, fill_one]

/-- The number of words of a size, and what is left when it is taken off. -/
theorem toNat_words (s : BitVec 64) :
    (s / 8).toNat = s.toNat / 8 ∧ (s - s / 8).toNat = s.toNat - s.toNat / 8 ∧ s / 8 ≤ s := by
  have hdiv : (s / 8).toNat = s.toNat / 8 := BitVec.toNat_udiv
  have hle : s / 8 ≤ s := by
    rw [BitVec.le_def, hdiv]
    exact Nat.div_le_self _ _
  exact ⟨hdiv, by rw [BitVec.toNat_sub_of_le hle, hdiv], hle⟩

/-- **What `mem_set` does**: behind the range it fills seven bytes for each word of it. -/
theorem memSet_eq (m : Memory) {p : BitVec 64} (c : BitVec 8) (s : BitVec 64) (hp : p ≠ 0) :
    memSet m p c s = .ok (fill m p (s.toNat + 7 * (s.toNat / 8)) c) := by
  obtain ⟨hdiv, hsub, hle⟩ := toNat_words s
  have hsum : 8 * (s.toNat / 8) + (s.toNat - s.toNat / 8) = s.toNat + 7 * (s.toNat / 8) := by
    omega
  have hne : (p != 0) = true := bne_iff_ne.mpr hp
  rw [← hsum, ← fill_fill, memSet]
  simp only [hne, hle, decide_true, assert_true, bind, Except.bind, pure, Except.pure, setBig_eq,
    setBytes_eq, hdiv, hsub]

/-- `mem_set` returns, and memory is filled byte by byte. -/
def FillsExactly (m : Memory) (p : BitVec 64) (c : BitVec 8) (s : BitVec 64) : Prop :=
  ∃ m', memSet m p c s = .ok m' ∧ (∀ a, InRange p s.toNat a → m' a = c) ∧
    ∀ a, ¬ InRange p s.toNat a → m' a = m a

/-- **`mem_set` fills exactly its range** when it is not called with `NULL` and the seven
bytes for each word that it writes behind the range are `c` already. -/
theorem fillsExactly_iff (m : Memory) (p : BitVec 64) (c : BitVec 8) (s : BitVec 64) :
    FillsExactly m p c s ↔ p ≠ 0 ∧
      ∀ a, s.toNat ≤ (a - p).toNat → (a - p).toNat < s.toNat + 7 * (s.toNat / 8) → m a = c := by
  by_cases hp : p = 0
  · subst hp
    exact iff_of_false (fun ⟨_, h, _⟩ => by cases h) fun h => h.1 rfl
  · rw [← fill_eq_fill_iff, FillsExactly, memSet_eq m c s hp, and_iff_right hp]
    constructor
    · rintro ⟨m', hm, hin, hout⟩
      cases hm
      funext a
      by_cases ha : InRange p s.toNat a
      · exact (hin a ha).trans (if_pos ha).symm
      · exact (hout a ha).trans (if_neg ha).symm
    · intro h
      rw [h]
      exact ⟨_, rfl, fun a ha => if_pos ha, fun a ha => if_neg ha⟩

/-- **Sixteen bytes are cleared, and fourteen more.** -/
theorem not_fillsExactly : ¬ FillsExactly (fun _ => 0xff) 0x1000 0 16 := by
  rintro ⟨m', hm, -, hout⟩
  rw [memSet_eq _ 0 16 (by decide)] at hm
  cases hm
  have hkept := hout 0x1010 (by rw [InRange]; decide)
  exact absurd hkept (by decide)

/-! ## What the loops of `mem_copy` do -/

/-- The loop over words. -/
theorem copyBig_eq {n : ℕ} {dst src : BitVec 64} (h : Ascends dst src (8 * n))
    (hn : 8 * n ≤ 2 ^ 64) (m : Memory) :
    copyBig n m dst src = (move m dst src (8 * n), dst + BitVec.ofNat 64 (8 * n),
      src + BitVec.ofNat 64 (8 * n)) := by
  induction n generalizing m dst src with
  | zero => rw [copyBig, Nat.mul_zero, move_zero, BitVec.add_zero, BitVec.add_zero]
  | succ n ih =>
    have hsum : 8 * (n + 1) = 8 + 8 * n := by omega
    rw [hsum] at h hn ⊢
    rw [copyBig, storeWord_loadWord, ih h.tail (by omega), ← h.move_move hn, BitVec.ofNat_add,
      ← BitVec.add_assoc, ← BitVec.add_assoc]

/-- The loop over bytes. -/
theorem copyBytes_eq {n : ℕ} {dst src : BitVec 64} (h : Ascends dst src n) (hn : n ≤ 2 ^ 64)
    (m : Memory) : copyBytes n m dst src = move m dst src n := by
  induction n generalizing m dst src with
  | zero => rw [copyBytes, move_zero]
  | succ n ih =>
    rw [Nat.add_comm] at h hn
    rw [copyBytes, ← move_one, ih h.tail (by omega), h.move_move hn, Nat.add_comm]

/-- The loop over bytes, interrupted. -/
theorem copyBytes_add (n k : ℕ) (m : Memory) (dst src : BitVec 64) :
    copyBytes (n + k) m dst src =
      copyBytes k (copyBytes n m dst src) (dst + BitVec.ofNat 64 n) (src + BitVec.ofNat 64 n) := by
  induction n generalizing m dst src with
  | zero => rw [copyBytes, Nat.zero_add, BitVec.add_zero, BitVec.add_zero]
  | succ n ih =>
    rw [Nat.add_right_comm, copyBytes, copyBytes, ih, Nat.add_comm n 1, BitVec.ofNat_add,
      ← BitVec.add_assoc, ← BitVec.add_assoc]

/-- Other bytes are as before. -/
theorem copyBytes_of_not_inRange {n : ℕ} {dst src a : BitVec 64} (hn : n ≤ 2 ^ 64) (m : Memory)
    (ha : ¬ InRange dst n a) : copyBytes n m dst src a = m a := by
  induction n generalizing m dst src with
  | zero => rfl
  | succ n ih =>
    rw [InRange] at ha
    have hne : a ≠ dst := by
      rintro rfl
      rw [BitVec.sub_self] at ha
      exact ha (Nat.succ_pos n)
    have hafter : ¬ InRange (dst + 1#64) n a := by
      rw [InRange, offset_sub (by omega)]
      omega
    rw [copyBytes, ih (by omega) _ hafter, Function.update_of_ne hne]

/-- **A copy leaves memory as it is** exactly when every byte is the one it is copied from. -/
theorem copyBytes_eq_self_iff {n : ℕ} (hn : n ≤ 2 ^ 64) (m : Memory) (dst src : BitVec 64) :
    copyBytes n m dst src = m ↔
      ∀ k < n, m (dst + BitVec.ofNat 64 k) = m (src + BitVec.ofNat 64 k) := by
  induction n generalizing m dst src with
  | zero => exact iff_of_true rfl fun k hk => absurd hk (Nat.not_lt_zero k)
  | succ n ih =>
    have hfirst : ¬ InRange (dst + 1#64) n dst := by
      have hle := le_offset_of_lt (p := dst) (a := dst) (k := 1) (n := n)
        (by rw [BitVec.sub_self, BitVec.toNat_zero]; exact Nat.one_pos) (by omega)
      rw [InRange]
      omega
    have hshift : (∀ k < n, m (dst + 1#64 + BitVec.ofNat 64 k) =
      m (src + 1#64 + BitVec.ofNat 64 k)) ↔
        ∀ k < n, m (dst + BitVec.ofNat 64 (k + 1)) = m (src + BitVec.ofNat 64 (k + 1)) := by
      refine forall₂_congr fun k _ => ?_
      rw [Nat.add_comm k, BitVec.ofNat_add, ← BitVec.add_assoc, ← BitVec.add_assoc]
    have hsame : m dst = m src → Function.update m dst (m src) = m := fun h => by
      rw [← h, Function.update_eq_self]
    rw [copyBytes]
    constructor
    · intro h
      have hdst : m dst = m src := by
        have heq := congrFun h dst
        rw [copyBytes_of_not_inRange (by omega) _ hfirst, Function.update_self] at heq
        exact heq.symm
      rw [hsame hdst, ih (by omega), hshift] at h
      intro k hk
      cases k with
      | zero => rw [BitVec.add_zero, BitVec.add_zero, hdst]
      | succ k => exact h k (by omega)
    · intro h
      have hdst := h 0 (Nat.succ_pos n)
      rw [BitVec.add_zero, BitVec.add_zero] at hdst
      rw [hsame hdst, ih (by omega), hshift]
      exact fun k hk => h (k + 1) (by omega)

/-! ## What `mem_copy` copies -/

/-- A copy routine returns, with the former bytes of the source in the range and every other
byte as before. -/
def CopiesExactly (copy : Memory → BitVec 64 → BitVec 64 → BitVec 64 → Except Fault Memory)
    (m : Memory) (dst src sz : BitVec 64) : Prop :=
  ∃ m', copy m dst src sz = .ok m' ∧
    (∀ k < sz.toNat, m' (dst + BitVec.ofNat 64 k) = m (src + BitVec.ofNat 64 k)) ∧
    ∀ a, ¬ InRange dst sz.toNat a → m' a = m a

/-- The range is moved, and nothing else. -/
theorem copiesExactly_iff_move {copy : Memory → BitVec 64 → BitVec 64 → BitVec 64 →
    Except Fault Memory} {m : Memory} {dst src sz : BitVec 64} :
    CopiesExactly copy m dst src sz ↔ copy m dst src sz = .ok (move m dst src sz.toNat) := by
  constructor
  · rintro ⟨m', hm, hin, hout⟩
    rw [hm, Except.ok.injEq]
    funext a
    by_cases ha : InRange dst sz.toNat a
    · rw [← add_offset dst a, hin _ ha, move_at ha (a - dst).isLt]
    · rw [hout a ha, move_of_not_inRange ha]
  · intro h
    exact ⟨_, h, fun k hk => move_at hk (Nat.lt_trans hk sz.isLt),
      fun a ha => move_of_not_inRange ha⟩

/-- **What `mem_copy` does**: behind the range it copies seven bytes for each word of it. -/
theorem memCopy_eq (m : Memory) {dst src sz : BitVec 64} (hdst : dst ≠ 0) (hsrc : src ≠ 0)
    (h : Apart dst src sz.toNat) :
    memCopy m dst src sz = .ok (copyBytes (7 * (sz.toNat / 8)) (move m dst src sz.toNat)
      (dst + BitVec.ofNat 64 sz.toNat) (src + BitVec.ofNat 64 sz.toNat)) := by
  obtain ⟨hdiv, hsub, hle⟩ := toNat_words sz
  have hfits := h.two_mul_le
  have hne : (dst != 0) = true ∧ (src != 0) = true := ⟨bne_iff_ne.mpr hdst, bne_iff_ne.mpr hsrc⟩
  -- the byte loop first does the bytes behind the last word
  have hrest : sz.toNat - sz.toNat / 8 =
      (sz.toNat - 8 * (sz.toNat / 8)) + 7 * (sz.toNat / 8) := by omega
  have hsum : sz.toNat = 8 * (sz.toNat / 8) + (sz.toNat - 8 * (sz.toNat / 8)) := by omega
  have hasc : Ascends dst src (8 * (sz.toNat / 8) + (sz.toNat - 8 * (sz.toNat / 8))) :=
    hsum ▸ h.ascends
  have hwords := copyBig_eq (hasc.mono (Nat.le_add_right _ _)) (by omega) m
  have hbytes : copyBytes (sz.toNat - sz.toNat / 8) (move m dst src (8 * (sz.toNat / 8)))
      (dst + BitVec.ofNat 64 (8 * (sz.toNat / 8))) (src + BitVec.ofNat 64 (8 * (sz.toNat / 8))) =
      copyBytes (7 * (sz.toNat / 8)) (move m dst src sz.toNat)
        (dst + BitVec.ofNat 64 sz.toNat) (src + BitVec.ofNat 64 sz.toNat) := by
    rw [hrest, copyBytes_add, copyBytes_eq hasc.tail (by omega), hasc.move_move (by omega),
      BitVec.add_assoc, BitVec.add_assoc, ← BitVec.ofNat_add, ← hsum]
  rw [memCopy]
  simp only [hne, hle, decide_true, assert_true, bind, Except.bind, pure, Except.pure, hdiv, hwords,
    hsub, hbytes]

/-- **`mem_copy` is exact** on ranges that are apart when it is not called with `NULL` and each
byte that it copies behind the range is there already. -/
theorem memCopy_exactly_iff (m : Memory) {dst src sz : BitVec 64} (h : Apart dst src sz.toNat) :
    CopiesExactly memCopy m dst src sz ↔ dst ≠ 0 ∧ src ≠ 0 ∧
      ∀ k, sz.toNat ≤ k → k < sz.toNat + 7 * (sz.toNat / 8) →
        m (dst + BitVec.ofNat 64 k) = move m dst src sz.toNat (src + BitVec.ofNat 64 k) := by
  rw [copiesExactly_iff_move]
  by_cases hdst : dst = 0
  · subst hdst
    exact iff_of_false (fun h => by cases h) fun h => h.1 rfl
  by_cases hsrc : src = 0
  · subst hsrc
    refine iff_of_false (fun h => ?_) fun h => h.2.1 rfl
    have hne : (dst != 0) = true := bne_iff_ne.mpr hdst
    rw [memCopy, hne] at h
    cases h
  rw [and_iff_right hdst, and_iff_right hsrc, memCopy_eq m hdst hsrc h, Except.ok.injEq,
    copyBytes_eq_self_iff (by omega)]
  have hfits := h.two_mul_le
  have hbehind : ∀ k < 7 * (sz.toNat / 8),
      move m dst src sz.toNat (dst + BitVec.ofNat 64 sz.toNat + BitVec.ofNat 64 k) =
        m (dst + BitVec.ofNat 64 (sz.toNat + k)) := by
    intro k hk
    rw [BitVec.add_assoc, ← BitVec.ofNat_add, move_of_not_inRange]
    rw [InRange, offset_add dst (by omega)]
    omega
  constructor
  · intro hcopy k hle hlt
    have hk := hcopy (k - sz.toNat) (by omega)
    rw [hbehind _ (by omega), BitVec.add_assoc, ← BitVec.ofNat_add, Nat.add_sub_cancel' hle] at hk
    exact hk
  · intro hcopy k hk
    rw [hbehind k hk, BitVec.add_assoc, ← BitVec.ofNat_add]
    exact hcopy _ (Nat.le_add_right _ _) (by omega)

/-! ## What `mem_copy_reverse` copies -/

/-- **What the loop does**: from the last byte but one down to the first, and then the byte
before the first. -/
theorem copyDown_eq {n : ℕ} {dst src : BitVec 64} (h : Descends dst src n) (hn : n < 2 ^ 64)
    (m : Memory) : copyDown dst src (n + 1) m =
      Function.update (move m dst src n) (dst - 1#64) (move m dst src n (src - 1#64)) := by
  induction n generalizing m with
  | zero =>
    have hlast : ∀ p : BitVec 64, p + (BitVec.ofNat 64 0 - 1#64) = p - 1#64 := fun p => by
      rw [BitVec.zero_sub, BitVec.sub_eq_add_neg]
    rw [copyDown, copyDown, move_zero]
    simp only [hlast]
  | succ n ih =>
    have hindex : BitVec.ofNat 64 (n + 1) - 1#64 = BitVec.ofNat 64 n := by
      rw [BitVec.ofNat_add, BitVec.add_sub_cancel]
    have hout : ¬ InRange dst n (dst + BitVec.ofNat 64 n) := by
      rw [InRange, offset_add dst (by omega)]
      exact Nat.lt_irrefl n
    rw [copyDown]
    simp only [hindex]
    rw [ih (fun j hj => h j (by omega)) (by omega),
      move_update _ hout fun i hi => h n (Nat.lt_succ_self n) i hi,
        ← move_succ m dst src (by omega)]

/-- A range lies in the address space above another start. -/
def Above (dst src : BitVec 64) (n : ℕ) : Prop := src < dst ∧ dst.toNat + n ≤ 2 ^ 64

/-- Downwards a range may be copied to a place above it. -/
theorem Above.descends {dst src : BitVec 64} {n : ℕ} (h : Above dst src n) :
    Descends dst src n := by
  intro j hj i hi heq
  have hlt := BitVec.lt_def.mp h.1
  have hle := h.2
  have hnat := congrArg BitVec.toNat heq
  rw [BitVec.toNat_add, BitVec.toNat_add, BitVec.toNat_ofNat, BitVec.toNat_ofNat] at hnat
  omega

/-- The byte before the source is not written but for the last round. -/
theorem before_not_inRange {dst src : BitVec 64} {n : ℕ} (hsrc : src ≠ 0) (hn : n + 1 < 2 ^ 64)
    (h : Apart dst src (n + 1) ∨ Above dst src (n + 1)) : ¬ InRange dst n (src - 1#64) := by
  have hpos : src.toNat ≠ 0 := fun h => hsrc (BitVec.eq_of_toNat_eq h)
  rw [InRange]
  rcases h with h | ⟨hlt, hle⟩
  · have hself : InRange src (n + 1) src := by
      rw [InRange, BitVec.sub_self]
      exact Nat.succ_pos n
    intro hin
    refine h src ⟨?_, hself⟩
    rw [InRange]
    bv_omega
  · bv_omega

/-- **`mem_copy_reverse` is exact** when it is not called with `NULL`, and the last byte of the
range, which it leaves out, and the byte before the range, which it writes, are there already. -/
theorem memCopyReverse_exactly_iff (m : Memory) {dst src sz : BitVec 64}
    (h : Apart dst src sz.toNat ∨ Above dst src sz.toNat) :
    CopiesExactly memCopyReverse m dst src sz ↔ dst ≠ 0 ∧ src ≠ 0 ∧
      (sz = 0 ∨ m (dst + (sz - 1#64)) = m (src + (sz - 1#64)) ∧
        m (dst - 1#64) = m (src - 1#64)) := by
  rw [copiesExactly_iff_move]
  by_cases hdst : dst = 0
  · subst hdst
    exact iff_of_false (fun h => by cases h) fun h => h.1 rfl
  have hne : (dst != 0) = true := bne_iff_ne.mpr hdst
  by_cases hsrc : src = 0
  · subst hsrc
    refine iff_of_false (fun h => ?_) fun h => h.2.1 rfl
    rw [memCopyReverse, hne] at h
    cases h
  have hne' : (src != 0) = true := bne_iff_ne.mpr hsrc
  have hrun : memCopyReverse m dst src sz = .ok (copyDown dst src sz.toNat m) := by
    rw [memCopyReverse, hne, hne']
    rfl
  rw [and_iff_right hdst, and_iff_right hsrc, hrun, Except.ok.injEq]
  have hlt := sz.isLt
  rcases hn : sz.toNat with _ | n
  · exact iff_of_true (by rw [copyDown, move_zero]) (.inl (BitVec.eq_of_toNat_eq hn))
  · rw [hn] at h hlt
    have hsz : sz ≠ 0 := by
      rintro rfl
      cases hn
    have hlast : sz - 1#64 = BitVec.ofNat 64 n := by
      have hsum : sz = BitVec.ofNat 64 (n + 1) := by
        rw [← hn, BitVec.ofNat_toNat, BitVec.setWidth_eq]
      rw [hsum, BitVec.ofNat_add, BitVec.add_sub_cancel]
    have hdesc : Descends dst src n := fun j hj =>
      (h.elim Apart.descends Above.descends) j (Nat.lt_succ_of_lt hj)
    have hbefore := before_not_inRange hsrc hlt h
    have hbehind : ¬ InRange dst n (dst + BitVec.ofNat 64 n) := by
      rw [InRange, offset_add dst (by omega)]
      exact Nat.lt_irrefl n
    have hfirst : ¬ InRange dst (n + 1) (dst - 1#64) := by
      rw [InRange]
      bv_omega
    have hapart : dst + BitVec.ofNat 64 n ≠ dst - 1#64 := fun heq => hfirst <| by
      rw [← heq]
      exact inRange_add dst (Nat.lt_succ_self n)
    rw [or_iff_right hsz, hlast, copyDown_eq hdesc (by omega), move_of_not_inRange hbefore]
    constructor
    · intro hcopy
      constructor
      · have hend := congrFun hcopy (dst + BitVec.ofNat 64 n)
        rw [Function.update_of_ne hapart, move_of_not_inRange hbehind,
          move_at (Nat.lt_succ_self n) (by omega)] at hend
        exact hend
      · have hstart := congrFun hcopy (dst - 1#64)
        rw [Function.update_self, move_of_not_inRange hfirst] at hstart
        exact hstart.symm
    · rintro ⟨hend, hstart⟩
      have hout : ¬ InRange dst n (dst - 1#64) := fun h => hfirst (Nat.lt_succ_of_lt h)
      have hkeep : m (src - 1#64) = move m dst src n (dst - 1#64) := by
        rw [move_of_not_inRange hout, hstart]
      have hkeep' : m (src + BitVec.ofNat 64 n) = move m dst src n (dst + BitVec.ofNat 64 n) := by
        rw [move_of_not_inRange hbehind, hend]
      rw [move_succ m dst src (by omega), hkeep, hkeep', Function.update_eq_self,
        Function.update_eq_self]

/-- **When the copies are exact.**  `mem_copy` on ranges that are apart: when each byte that it
copies behind the range is there already.  `mem_copy_reverse` on ranges that are apart, or on a
destination above the source: when there is nothing to copy, or the last byte of the range and
the byte before it are there already.  Neither accepts `NULL`. -/
theorem copiesExactly_iff (m : Memory) (dst src sz : BitVec 64) :
    (Apart dst src sz.toNat →
      (CopiesExactly memCopy m dst src sz ↔ dst ≠ 0 ∧ src ≠ 0 ∧
        ∀ k, sz.toNat ≤ k → k < sz.toNat + 7 * (sz.toNat / 8) →
          m (dst + BitVec.ofNat 64 k) = move m dst src sz.toNat (src + BitVec.ofNat 64 k))) ∧
    (Apart dst src sz.toNat ∨ Above dst src sz.toNat →
      (CopiesExactly memCopyReverse m dst src sz ↔ dst ≠ 0 ∧ src ≠ 0 ∧
        (sz = 0 ∨ m (dst + (sz - 1#64)) = m (src + (sz - 1#64)) ∧
          m (dst - 1#64) = m (src - 1#64)))) :=
  ⟨memCopy_exactly_iff m, memCopyReverse_exactly_iff m⟩

/-- Eight bytes at two places. -/
theorem apart_eight : Apart (0x2000 : BitVec 64) 0x1001 (8 : BitVec 64).toNat := by
  rintro a ⟨hdst, hsrc⟩
  rw [InRange] at hdst hsrc
  bv_omega

/-- On clear memory both copies of eight bytes are exact. -/
theorem copiesExactly_clear :
    CopiesExactly memCopy (fun _ => 0) 0x2000 0x1001 8 ∧
      CopiesExactly memCopyReverse (fun _ => 0) 0x2000 0x1001 8 := by
  obtain ⟨hcopy, hreverse⟩ := copiesExactly_iff (fun _ => 0) 0x2000 0x1001 8
  refine ⟨(hcopy apart_eight).mpr ⟨by decide, by decide, fun k _ _ => ?_⟩,
    (hreverse (.inl apart_eight)).mpr ⟨by decide, by decide, .inr ⟨rfl, rfl⟩⟩⟩
  rw [move, ite_self]

/-- **Neither copy of eight bytes is exact** where every byte is another than its neighbour. -/
theorem not_copiesExactly :
    ¬ CopiesExactly memCopy (fun a => a.setWidth 8) 0x2000 0x1001 8 ∧
      ¬ CopiesExactly memCopyReverse (fun a => a.setWidth 8) 0x2000 0x1001 8 := by
  constructor
  · rw [memCopy_exactly_iff _ apart_eight]
    rintro ⟨-, -, h⟩
    exact absurd (h 8 (by decide) (by decide)) (by decide)
  · rw [memCopyReverse_exactly_iff _ (.inl apart_eight)]
    rintro ⟨-, -, h | ⟨h, -⟩⟩
    · exact absurd h (by decide)
    · exact absurd h (by decide)

end Mimik.Mem
