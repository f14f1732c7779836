/-
# Bitmaps after any calls (`structs/bitmap.c`)

A bitmap keeps two accounts of its bits: the bits themselves, packed into bytes, and the
number of those that are clear.  `SetRun` is a bitmap in the middle of a sequence of calls,
with the calls that were made and what they returned.  Whatever the calls are, the bits are
what the last successful calls asked for, and the two accounts agree (`bitmap_faithful`).
-/
import Mimik.Bitmap
import Mathlib.Data.Finset.Card
import Mathlib.Data.Finset.Range

namespace Mimik

open Finset

variable {P : Type} [DecidableEq P]

/-- A call of `bitmap_set` that has returned. -/
structure SetCall where
  index : ℕ
  value : Bool
  status : Status

/-- A bitmap, the bytes, and the calls that were made, the last one first. -/
structure SetRun (P : Type) where
  bitmap : Bitmap P
  bytes : Bytes P
  calls : List SetCall

namespace SetRun

/-- A bitmap from `bitmap_from`. -/
def start (m : Bytes P) (sz : ℕ) (ptr : P) : SetRun P where
  bitmap := (bitmapFrom m sz ptr).1
  bytes := (bitmapFrom m sz ptr).2
  calls := []

/-- A call of `bitmap_set`. -/
def set (r : SetRun P) (i : ℕ) (v : Bool) : SetRun P :=
  let (sts, b, m) := bitmapSet r.bytes r.bitmap i v
  { bitmap := b, bytes := m, calls := { index := i, value := v, status := sts } :: r.calls }

/-- A sequence of calls. -/
def sets (r : SetRun P) (calls : List (ℕ × Bool)) : SetRun P :=
  calls.foldl (fun r call => r.set call.1 call.2) r

/-- A bit of the bitmap, or of the bytes behind it. -/
def bit (r : SetRun P) (i : ℕ) : Bool := bitAt r.bytes r.bitmap.map i

/-- The value of the last successful call on a bit. -/
def lastSet (r : SetRun P) (i : ℕ) : Bool :=
  ((r.calls.find? fun call => call.index = i && call.status = success).map SetCall.value).getD false

/-- The bits that are clear. -/
def clearBits (r : SetRun P) : Finset ℕ := {i ∈ range r.bitmap.size | r.bit i = false}

/-- **The two accounts**: what `bitmap_set` keeps. -/
structure Faithful (r : SetRun P) : Prop where
  small : r.bitmap.size < 2 ^ 64
  bits : ∀ i < r.bitmap.size, r.bit i = r.lastSet i
  unset : r.bitmap.unset = #r.clearBits

variable {r : SetRun P} {i j : ℕ} {v : Bool}

/-- A call that succeeds is the last one on its bit. -/
theorem lastSet_set (r : SetRun P) (i : ℕ) (v : Bool) (j : ℕ) :
    (r.set i v).lastSet j =
      if (bitmapSet r.bytes r.bitmap i v).1 = success ∧ j = i then v else r.lastSet j := by
  unfold lastSet set
  by_cases hcall : (bitmapSet r.bytes r.bitmap i v).1 = success ∧ j = i
  · simp [hcall.1, hcall.2]
  · have hskip : (decide (i = j) &&
        decide ((bitmapSet r.bytes r.bitmap i v).1 = success)) = false := by
      grind
    rw [if_neg hcall, List.find?_cons_of_neg (by simp [hskip])]

/-- A call beyond the size. -/
theorem bitmapSet_beyond {m : Bytes P} {b : Bitmap P} (hi : b.size ≤ i) :
    bitmapSet m b i v = (-einval, b, m) := if_pos hi

theorem start_faithful (m : Bytes P) {sz : ℕ} (ptr : P) (hsz : sz + 7 < 2 ^ 64) :
    (start m sz ptr).Faithful := by
  obtain ⟨-, -, hclear, -⟩ := bitmapFrom_spec m sz ptr hsz
  refine ⟨by show sz < 2 ^ 64; omega, hclear, ?_⟩
  have hall : (start m sz ptr).clearBits = range sz := filter_true_of_mem fun i hi =>
    hclear i (mem_range.mp hi)
  rw [hall, card_range]
  rfl

/-- What the source promises of a call: it fails exactly beyond the size, it says that nothing
changes exactly when the bit has the value, and then nothing does; a call that succeeds changes
the one bit. -/
structure SetRight (r : SetRun P) (i : ℕ) (v : Bool) : Prop where
  refused : (bitmapSet r.bytes r.bitmap i v).1 = -einval ↔ r.bitmap.size ≤ i
  nochange : (bitmapSet r.bytes r.bitmap i v).1 = snochange ↔ i < r.bitmap.size ∧ r.bit i = v
  kept : (bitmapSet r.bytes r.bitmap i v).1 ≠ success →
    (bitmapSet r.bytes r.bitmap i v).2 = (r.bitmap, r.bytes)
  flipped : (bitmapSet r.bytes r.bitmap i v).1 = success →
    ∀ j, (r.set i v).bit j = if j = i then v else r.bit j

/-- The three outcomes of a call. -/
theorem set_cases (r : SetRun P) (i : ℕ) (v : Bool) :
    (r.bitmap.size ≤ i ∧ bitmapSet r.bytes r.bitmap i v = (-einval, r.bitmap, r.bytes)) ∨
      (i < r.bitmap.size ∧ r.bit i = v ∧
        bitmapSet r.bytes r.bitmap i v = (snochange, r.bitmap, r.bytes)) ∨
      (i < r.bitmap.size ∧ r.bit i = !v ∧ (bitmapSet r.bytes r.bitmap i v).1 = success ∧
        (r.set i v).bitmap.size = r.bitmap.size ∧
        ∀ j, (r.set i v).bit j = if j = i then v else r.bit j) := by
  rcases Nat.lt_or_ge i r.bitmap.size with hi | hi
  · by_cases hv : r.bit i = v
    · exact .inr (.inl ⟨hi, hv, bitmapSet_nochange hi hv⟩)
    · obtain ⟨b', m', hset, hmap, hsize, hbits, -⟩ := bitmapSet_change hi hv
      have hnot : r.bit i = !v := by
        revert hv
        cases r.bit i <;> cases v <;> simp
      refine .inr (.inr ⟨hi, hnot, by rw [hset], ?_, ?_⟩)
      · unfold set
        rw [hset]
        exact hsize
      · unfold bit set
        rw [hset]
        simpa only [hmap] using hbits
  · exact .inl ⟨hi, bitmapSet_beyond hi⟩

theorem setRight (r : SetRun P) (i : ℕ) (v : Bool) : r.SetRight i v := by
  rcases set_cases r i v with ⟨hi, hset⟩ | ⟨hi, hv, hset⟩ | ⟨hi, hv, hset, -, hbits⟩
  · refine ⟨by simp [hset, hi], ?_, by simp [hset], by simp [hset, einval, success]⟩
    simp [hset, einval, snochange, Nat.not_lt.mpr hi]
  · refine ⟨?_, by simp [hset, hi, hv], by simp [hset], by simp [hset, snochange, success]⟩
    simp [hset, einval, snochange, Nat.not_le.mpr hi]
  · refine ⟨?_, ?_, by simp [hset], fun _ => hbits⟩
    · simp [hset, einval, success, Nat.not_le.mpr hi]
    · simp [hset, snochange, success, hv]

/-- A call that does not succeed only goes on the record. -/
theorem Faithful.same (h : r.Faithful) {sts : Status} (hsts : sts ≠ success)
    (hset : bitmapSet r.bytes r.bitmap i v = (sts, r.bitmap, r.bytes)) : (r.set i v).Faithful := by
  have hbitmap : (r.set i v).bitmap = r.bitmap := by simp [set, hset]
  have hbits : ∀ j, (r.set i v).bit j = r.bit j := by simp [bit, set, hset]
  refine ⟨by rw [hbitmap]; exact h.small, fun j hj => ?_, ?_⟩
  · rw [hbitmap] at hj
    rw [lastSet_set, hset, if_neg fun hcall => hsts hcall.1, hbits, h.bits j hj]
  · rw [hbitmap, h.unset]
    simp [clearBits, hbitmap, hbits]

/-- **A step** keeps the two accounts. -/
theorem Faithful.set (h : r.Faithful) (i : ℕ) (v : Bool) : (r.set i v).Faithful := by
  rcases set_cases r i v with ⟨hi, hset⟩ | ⟨hi, hv, hset⟩ | ⟨hi, hv, hset, hsize, hbits⟩
  · exact h.same (by decide) hset
  · exact h.same (by decide) hset
  · refine ⟨by rw [hsize]; exact h.small, fun j hj => ?_, ?_⟩
    · rw [hsize] at hj
      rw [hbits, lastSet_set]
      by_cases hji : j = i
      · simp [hji, hset]
      · simp [hji, h.bits j hj]
    · have hunset : (r.set i v).bitmap.unset =
          if v then pred64 r.bitmap.unset else wrap64 (r.bitmap.unset + 1) := by
        have hcount := bitmapSet_unset r.bytes r.bitmap i v
        rw [if_pos hset] at hcount
        exact hcount
      have hle : #r.clearBits ≤ r.bitmap.size :=
        (card_filter_le _ _).trans_eq (card_range r.bitmap.size)
      have hsmall := h.small
      rw [hunset, h.unset]
      cases v with
      | true =>
        have hmem : i ∈ r.clearBits := by simp [clearBits, hi, hv]
        have herase : (r.set i true).clearBits = r.clearBits.erase i := by
          ext j
          simp only [clearBits, hsize, hbits, mem_filter, mem_range, mem_erase]
          grind
        have hpos : 0 < #r.clearBits := card_pos.mpr ⟨i, hmem⟩
        rw [herase, card_erase_of_mem hmem, if_pos rfl, pred64, if_neg (by omega)]
      | false =>
        have hmem : i ∉ r.clearBits := by simp [clearBits, hv]
        have hinsert : (r.set i false).clearBits = insert i r.clearBits := by
          ext j
          simp only [clearBits, hsize, hbits, mem_filter, mem_range, mem_insert]
          grind
        have hlt : #r.clearBits < r.bitmap.size := by
          have hsub : #(insert i r.clearBits) ≤ #(range r.bitmap.size) := by
            rw [← hinsert, ← hsize]
            exact card_filter_le _ _
          rw [card_insert_of_notMem hmem, card_range] at hsub
          omega
        rw [hinsert, card_insert_of_notMem hmem, if_neg Bool.false_ne_true,
          wrap64_of_lt (by omega)]

/-- **A run** keeps them. -/
theorem Faithful.sets (h : r.Faithful) (calls : List (ℕ × Bool)) : (r.sets calls).Faithful := by
  induction calls generalizing r with
  | nil => exact h
  | cons call calls ih => exact ih (h.set call.1 call.2)

/-- The size stays. -/
theorem size_sets (r : SetRun P) (calls : List (ℕ × Bool)) :
    (r.sets calls).bitmap.size = r.bitmap.size := by
  induction calls generalizing r with
  | nil => rfl
  | cons call calls ih =>
    rw [SetRun.sets, List.foldl_cons]
    refine (ih (r.set call.1 call.2)).trans ?_
    rcases set_cases r call.1 call.2 with ⟨-, hset⟩ | ⟨-, -, hset⟩ | ⟨-, -, -, hsize, -⟩
    · simp [SetRun.set, hset]
    · simp [SetRun.set, hset]
    · exact hsize

/-- **Bitmaps are faithful**, after any calls on a fresh bitmap. -/
theorem bitmap_faithful (m : Bytes P) (ptr : P) {sz : ℕ} (hsz : sz < 2 ^ 64 - 7)
    (calls : List (ℕ × Bool)) :
    (∀ i < sz, bitmapGet ((start m sz ptr).sets calls).bytes
        ((start m sz ptr).sets calls).bitmap i =
        if ((start m sz ptr).sets calls).lastSet i then 1 else 0) ∧
      ((start m sz ptr).sets calls).bitmap.unset =
        #{i ∈ range sz | bitmapGet ((start m sz ptr).sets calls).bytes
          ((start m sz ptr).sets calls).bitmap i = 0} ∧
      ∀ i v, ((start m sz ptr).sets calls).SetRight i v := by
  have hstart : (start m sz ptr).Faithful := start_faithful m ptr (by omega)
  obtain ⟨-, hbits, hunset⟩ := hstart.sets calls
  have hsize : ((start m sz ptr).sets calls).bitmap.size = sz := size_sets _ calls
  rw [hsize] at hbits
  refine ⟨fun i hi => ?_, ?_, setRight _⟩
  · rw [bitmapGet_eq (by rw [hsize]; exact hi)]
    exact congrArg (fun bit : Bool => if bit then (1 : Status) else 0) (hbits i hi)
  · rw [hunset, clearBits, hsize]
    congr 1
    refine filter_congr fun i hi => ?_
    rw [bitmapGet_eq (by rw [hsize]; exact mem_range.mp hi), bit]
    cases bitAt _ _ i <;> simp

theorem bitmap_faithful_three :
    ((start (fun _ _ => 0xff#8) 3 ()).sets
      [(0, true), (2, true), (0, false)]).bitmap.unset = 2 := by
  have hfaithful := (bitmap_faithful (fun _ _ => 0xff#8) () (show 3 < 2 ^ 64 - 7 by decide)
    [(0, true), (2, true), (0, false)]).2.1
  rw [hfaithful]
  decide

end SetRun

end Mimik
