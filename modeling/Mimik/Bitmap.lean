/-
# Bitmaps (`structs/bitmap.c`)

A `struct bitmap` describes a bit set that lives elsewhere: the bytes are reached
through the pointer `map`.  The bytes of all bitmaps together are a function of
the pointer and of the position, so that two bitmaps with one pointer share their
bits, as in the source.
-/
import Mimik.Basic

namespace Mimik

/-- `SNOCHANGE`. -/
def snochange : Status := 10

/-- The bytes that pointers of type `P` lead to. -/
abbrev Bytes (P : Type) := P → ℕ → BitVec 8

/-- `struct bitmap`. -/
structure Bitmap (P : Type) where
  bytes : ℕ
  size : ℕ
  unset : ℕ
  map : P

variable {P : Type} [DecidableEq P]

/-- `bitmap_from`: a bitmap of `sz` bits whose bytes have just been cleared. -/
def bitmapFrom (m : Bytes P) (sz : ℕ) (ptr : P) : Bitmap P × Bytes P :=
  let bytes := wrap64 (sz + 7) >>> 3
  ({ bytes := bytes, size := sz, unset := sz, map := ptr },
    fun p i => if p = ptr ∧ i < bytes then 0 else m p i)

omit [DecidableEq P] in
/-- `bitmap_get`. -/
def bitmapGet (m : Bytes P) (b : Bitmap P) (i : ℕ) : Status :=
  if b.size ≤ i then -einval
  else
    let byte := i >>> 3
    let bit := i &&& 7
    (((m b.map byte).toNat >>> bit &&& 1 : ℕ) : ℤ)

/-- `bitmap_set`. -/
def bitmapSet (m : Bytes P) (b : Bitmap P) (i : ℕ) (v : Bool) : Status × Bitmap P × Bytes P :=
  if b.size ≤ i then (-einval, b, m)
  else
    let byte := i >>> 3
    let bit := i &&& 7
    if (m b.map byte).toNat >>> bit &&& 1 = v.toNat then (snochange, b, m)
    else
      let mask := 1#8 <<< bit
      let store (x : BitVec 8) : Bytes P :=
        Function.update m b.map (Function.update (m b.map) byte x)
      if v then
        (success, { b with unset := pred64 b.unset }, store (m b.map byte ||| mask))
      else
        (success, { b with unset := wrap64 (b.unset + 1) }, store (m b.map byte &&& ~~~mask))

/-! ## The bits of a bitmap -/

omit [DecidableEq P] in
/-- The bit at position `i` of the bytes behind `ptr`. -/
def bitAt (m : Bytes P) (ptr : P) (i : ℕ) : Bool := (m ptr (i / 8)).getLsbD (i % 8)

omit [DecidableEq P] in
/-- The expression of the source that reads a bit. -/
theorem readBit_eq (m : Bytes P) (ptr : P) (i : ℕ) :
    (m ptr (i >>> 3)).toNat >>> (i &&& 7) &&& 1 = (bitAt m ptr i).toNat := by
  have hbit : i &&& 7 = i % 8 := Nat.and_two_pow_sub_one_eq_mod i 3
  rw [hbit, Nat.shiftRight_eq_div_pow, Nat.shiftRight_eq_div_pow, Nat.and_one_is_mod, bitAt,
    BitVec.getLsbD, Nat.toNat_testBit]

omit [DecidableEq P] in
/-- `bitmap_get` reads the bit, within the size. -/
theorem bitmapGet_eq {m : Bytes P} {b : Bitmap P} {i : ℕ} (hi : i < b.size) :
    bitmapGet m b i = if bitAt m b.map i then 1 else 0 := by
  rw [bitmapGet, if_neg (by omega)]
  simp only [readBit_eq]
  cases bitAt m b.map i <;> rfl

omit [DecidableEq P] in
/-- Beyond the size `bitmap_get` fails. -/
theorem bitmapGet_of_le {m : Bytes P} {b : Bitmap P} {i : ℕ} (hi : b.size ≤ i) :
    bitmapGet m b i = -einval := if_pos hi

/-- A bit that has the requested value is left alone. -/
theorem bitmapSet_nochange {m : Bytes P} {b : Bitmap P} {i : ℕ} {v : Bool} (hi : i < b.size)
    (hv : bitAt m b.map i = v) : bitmapSet m b i v = (snochange, b, m) := by
  rw [bitmapSet, if_neg (by omega)]
  simp only [readBit_eq]
  rw [if_pos (by rw [hv])]

/-- **A bit is flipped, and it alone.** -/
theorem bitmapSet_change {m : Bytes P} {b : Bitmap P} {i : ℕ} {v : Bool} (hi : i < b.size)
    (hv : bitAt m b.map i ≠ v) :
    ∃ b' m', bitmapSet m b i v = (success, b', m') ∧ b'.map = b.map ∧ b'.size = b.size ∧
      (∀ j, bitAt m' b.map j = if j = i then v else bitAt m b.map j) ∧
      ∀ ptr ≠ b.map, m' ptr = m ptr := by
  have hbyte : i >>> 3 = i / 8 := Nat.shiftRight_eq_div_pow i 3
  have hbit : i &&& 7 = i % 8 := Nat.and_two_pow_sub_one_eq_mod i 3
  have hne : (bitAt m b.map i).toNat ≠ v.toNat := by
    revert hv
    cases bitAt m b.map i <;> cases v <;> simp
  have hstore : ∀ (x : BitVec 8),
      (∀ k < 8, x.getLsbD k = if k = i % 8 then v else (m b.map (i / 8)).getLsbD k) →
      (∀ j, bitAt (Function.update m b.map (Function.update (m b.map) (i / 8) x)) b.map j =
        if j = i then v else bitAt m b.map j) ∧
      ∀ ptr ≠ b.map, Function.update m b.map (Function.update (m b.map) (i / 8) x) ptr =
        m ptr := by
    intro x hx
    refine ⟨fun j => ?_, fun ptr hptr => Function.update_of_ne hptr _ _⟩
    rw [bitAt, Function.update_self]
    by_cases hj : j / 8 = i / 8
    · rw [hj, Function.update_self, hx _ (Nat.mod_lt _ (by omega)), bitAt, hj]
      have hiff : j % 8 = i % 8 ↔ j = i := by omega
      simp only [hiff]
    · rw [Function.update_of_ne hj, if_neg (by rintro rfl; exact hj rfl), bitAt]
  rw [← readBit_eq] at hne
  rw [bitmapSet, if_neg (by omega)]
  simp only [if_neg hne]
  rw [hbyte, hbit]
  cases v with
  | true =>
    rw [if_pos rfl]
    exact ⟨_, _, rfl, rfl, rfl, hstore _ fun k hk => (getLsbD_mask _ (Or.inr hk)).1⟩
  | false =>
    rw [if_neg Bool.false_ne_true]
    exact ⟨_, _, rfl, rfl, rfl, hstore _ fun k hk => (getLsbD_mask _ (Or.inr hk)).2⟩

/-- **`bitmap_set` within the size.**  Afterwards the bit has the requested value, no
other bit is touched, and the call succeeds exactly when the bit had another value. -/
theorem bitmapSet_spec (m : Bytes P) (b : Bitmap P) {i : ℕ} (v : Bool) (hi : i < b.size) :
    ∃ sts b' m', bitmapSet m b i v = (sts, b', m') ∧ b'.map = b.map ∧ b'.size = b.size ∧
      (sts = success ↔ bitAt m b.map i = !v) ∧
      (∀ j, bitAt m' b.map j = if j = i then v else bitAt m b.map j) ∧
      ∀ ptr ≠ b.map, m' ptr = m ptr := by
  by_cases hv : bitAt m b.map i = v
  · refine ⟨_, _, _, bitmapSet_nochange hi hv, rfl, rfl, ?_, ?_, fun _ _ => rfl⟩
    · rw [hv]
      cases v <;> simp [snochange, success]
    · intro j
      split
      next hj => rw [hj, hv]
      next => rfl
  · obtain ⟨b', m', hset, hmap, hsize, hbits, hother⟩ := bitmapSet_change hi hv
    refine ⟨_, b', m', hset, hmap, hsize, ?_, hbits, hother⟩
    revert hv
    cases bitAt m b.map i <;> cases v <;> simp

/-- The count of clear bits follows the bit that is set. -/
theorem bitmapSet_unset (m : Bytes P) (b : Bitmap P) (i : ℕ) (v : Bool) :
    (bitmapSet m b i v).2.1.unset =
      if (bitmapSet m b i v).1 = success then
        if v then pred64 b.unset else wrap64 (b.unset + 1)
      else b.unset := by
  rw [bitmapSet]
  split
  next => rfl
  next =>
    simp only
    split
    next => rfl
    next => cases v <;> rfl

/-- All bits of a fresh bitmap are clear, and other bytes are as before. -/
theorem bitmapFrom_spec (m : Bytes P) (sz : ℕ) (ptr : P) (hsz : sz + 7 < 2 ^ 64) :
    (bitmapFrom m sz ptr).1.map = ptr ∧ (bitmapFrom m sz ptr).1.size = sz ∧
      (∀ i < sz, bitAt (bitmapFrom m sz ptr).2 ptr i = false) ∧
      ∀ p ≠ ptr, (bitmapFrom m sz ptr).2 p = m p := by
  refine ⟨rfl, rfl, ?_, ?_⟩
  · intro i hi
    have hbyte : i / 8 < wrap64 (sz + 7) >>> 3 := by
      rw [wrap64_of_lt hsz, Nat.shiftRight_eq_div_pow]
      omega
    simp only [bitAt, bitmapFrom, hbyte, and_self, if_true]
    exact BitVec.getLsbD_zero
  · intro p hp
    funext i
    simp only [bitmapFrom, hp, false_and, if_false]

end Mimik
