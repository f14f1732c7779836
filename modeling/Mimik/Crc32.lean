/-
# CRC-32C of a buffer (`util/crc32-arch.h`)

`crc32c` gives a buffer to the instructions `crc32q` and `crc32b`: eight bytes at a time, and the
last ones on their own.  Of `%rax` the instructions use and set the half that is `crc`.

However the bytes fall into words, the result is the one of all bytes in their order
(`crc32c_eq`).  So the checksum of a message can be made in parts, and one that differs from
another in at most four bytes in a row has another checksum (`crc32c_burst`).
-/
import Mimik.Crc
import Mimik.MemRoutines

namespace Mimik.Mem

open AddressRange

/-- `ALIGNDOWN(val, align)`. -/
def alignDown (val align : BitVec 64) : BitVec 64 := val &&& ~~~(align - 1)

/-- The polynomial of CRC-32C, with its highest power at the low end. -/
def castagnoli : BitVec 32 := 0x82f63b78#32

/-- `crc32b`. -/
def crc32b (crc : BitVec 32) (b : BitVec 8) : BitVec 32 := Crc.updateByte castagnoli crc b

-- the check value of CRC-32C, before its last complement
example : [0x31, 0x32, 0x33, 0x34, 0x35, 0x36, 0x37, 0x38, 0x39].foldl crc32b 0xffffffff#32 =
    ~~~0xe3069283#32 := by
  decide +kernel

/-- The bytes of a word, the lowest first. -/
def bytesOfWord (q : BitVec 64) : List (BitVec 8) :=
  (List.range wordSize).map fun k => q.extractLsb' (8 * k) 8

/-- `crc32q`. -/
def crc32q (crc : BitVec 32) (q : BitVec 64) : BitVec 32 := (bytesOfWord q).foldl crc32b crc

/-- The loop over words.  It is left when `q` is 0. -/
def crcWords (m : Memory) :
    ℕ → BitVec 32 → BitVec 64 → BitVec 64 → Except Fault (BitVec 32 × BitVec 64)
  | 0, _, _, _ => .error .outOfFuel
  | fuel + 1, crc, pq, q =>
    if 0 < q then crcWords m fuel (crc32q crc (loadWord m pq)) (pq + 8#64) (q - 8#64)
    else return (crc, pq)

/-- The loop over bytes. -/
def crcBytes (m : Memory) : ℕ → BitVec 32 → BitVec 64 → BitVec 32
  | 0, crc, _ => crc
  | len + 1, crc, pb => crcBytes m len (crc32b crc (m pb)) (pb + 1#64)

/-- `crc32c`. -/
def crc32c (fuel : ℕ) (m : Memory) (crc : BitVec 32) (buf len : BitVec 64) :
    Except Fault (BitVec 32) := do
  let (crc, pb) ← crcWords m fuel crc buf (alignDown len 8)
  return crcBytes m (len &&& 7).toNat crc pb

/-! ## The bytes are taken in their order -/

variable {m m' m₁ m₂ : Memory} {crc : BitVec 32} {buf p pq pb len n k : BitVec 64} {fuel : ℕ}

/-- The bytes of a word in memory. -/
theorem bytesOfWord_loadWord (m : Memory) (a : BitVec 64) :
    bytesOfWord (loadWord m a) = cells m a 8 := by
  unfold bytesOfWord cells wordSize
  apply List.map_congr_left
  intro k hk
  exact extractLsb'_loadWord m a (List.mem_range.mp hk)

/-- The loop over `n` words. -/
theorem crcWords_eq (n : ℕ) (hn : 8 * n < 2 ^ 64) (crc : BitVec 32) (pq : BitVec 64) (fuel : ℕ) :
    crcWords m fuel crc pq (BitVec.ofNat 64 (8 * n)) =
      if n < fuel then .ok ((cells m pq (8 * n)).foldl crc32b crc, pq + BitVec.ofNat 64 (8 * n))
      else .error .outOfFuel := by
  induction n generalizing crc pq fuel with
  | zero =>
    cases fuel with
    | zero => rfl
    | succ fuel =>
      rw [crcWords, if_neg (by decide), if_pos (Nat.succ_pos fuel)]
      simp [cells]
      rfl
  | succ n ih =>
    cases fuel with
    | zero => rfl
    | succ fuel =>
      have hpos : 0 < BitVec.ofNat 64 (8 * (n + 1)) := by
        rw [BitVec.lt_def, BitVec.toNat_ofNat, Nat.mod_eq_of_lt hn]
        exact Nat.succ_pos _
      have hcount : BitVec.ofNat 64 (8 * (n + 1)) = 8#64 + BitVec.ofNat 64 (8 * n) := by
        rw [Nat.mul_succ, Nat.add_comm, BitVec.ofNat_add]
      have hless : BitVec.ofNat 64 (8 * (n + 1)) - 8#64 = BitVec.ofNat 64 (8 * n) := by
        rw [hcount, BitVec.add_comm, BitVec.add_sub_cancel]
      have hcells : cells m pq (8 * (n + 1)) = cells m pq 8 ++ cells m (pq + 8#64) (8 * n) := by
        rw [Nat.mul_succ, Nat.add_comm, cells_add]
      have hword : crc32q crc (loadWord m pq) = (cells m pq 8).foldl crc32b crc := by
        rw [crc32q, bytesOfWord_loadWord]
      rw [crcWords, if_pos hpos, hless, ih (by omega), hword, ← List.foldl_append, ← hcells,
        BitVec.add_assoc, ← hcount]
      simp only [Nat.add_lt_add_iff_right]

/-- The loop over bytes. -/
theorem crcBytes_eq (n : ℕ) (crc : BitVec 32) (pb : BitVec 64) :
    crcBytes m n crc pb = (cells m pb n).foldl crc32b crc := by
  induction n generalizing crc pb with
  | zero => rfl
  | succ n ih =>
    have hcells : cells m pb (n + 1) = m pb :: cells m (pb + 1#64) n := by
      rw [Nat.add_comm, cells_add]
      simp [cells]
    rw [crcBytes, ih, hcells, List.foldl_cons]

/-- The bytes in the words of a length, and the bytes behind them. -/
theorem alignDown_eight (len : BitVec 64) :
    alignDown len 8 = BitVec.ofNat 64 (8 * (len.toNat / 8)) ∧
      (len &&& 7).toNat = len.toNat % 8 := by
  constructor
  · have hmask : ~~~(8#64 - 1) = BitVec.allOnes 64 <<< 3 := by decide
    have hdown : alignDown len 8 = len >>> 3 <<< 3 := by
      rw [BitVec.shiftLeft_ushiftRight, ← hmask]
      rfl
    apply BitVec.eq_of_toNat_eq
    rw [hdown, BitVec.toNat_shiftLeft, BitVec.toNat_ushiftRight, BitVec.toNat_ofNat,
      Nat.shiftRight_eq_div_pow, Nat.shiftLeft_eq, Nat.mul_comm]
  · exact Nat.and_two_pow_sub_one_eq_mod len.toNat 3

/-- **What `crc32c` computes**: the update by each byte of the buffer, in their order. -/
theorem crc32c_eq (fuel : ℕ) (m : Memory) (crc : BitVec 32) (buf len : BitVec 64) :
    crc32c fuel m crc buf len =
      if len.toNat / 8 < fuel then .ok ((cells m buf len.toNat).foldl crc32b crc)
      else .error .outOfFuel := by
  obtain ⟨hwords, hbytes⟩ := alignDown_eight len
  have hlt := len.isLt
  have hcells : cells m buf len.toNat = cells m buf (8 * (len.toNat / 8)) ++
      cells m (buf + BitVec.ofNat 64 (8 * (len.toNat / 8))) (len.toNat % 8) := by
    rw [← cells_add, Nat.div_add_mod]
  rw [crc32c, hwords, hbytes, crcWords_eq _ (by omega)]
  by_cases hfuel : len.toNat / 8 < fuel
  · rw [if_pos hfuel, if_pos hfuel, hcells, List.foldl_append]
    show Except.ok _ = _
    rw [crcBytes_eq]
  · rw [if_neg hfuel, if_neg hfuel]
    rfl

/-- A buffer that is read in two parts, wherever the parts are. -/
theorem crc32c_append {a b : BitVec 64}
    (hbytes : cells m buf len.toNat = cells m₁ a n.toNat ++ cells m₂ b k.toNat)
    (hfuel : len.toNat / 8 < fuel) :
    (crc32c fuel m₁ crc a n >>= fun crc => crc32c fuel m₂ crc b k) = crc32c fuel m crc buf len := by
  have hlen : len.toNat = n.toNat + k.toNat := by
    have h := congrArg List.length hbytes
    rwa [List.length_append, length_cells, length_cells, length_cells] at h
  have hn : n.toNat / 8 < fuel := lt_of_le_of_lt (Nat.div_le_div_right (by omega)) hfuel
  have hk : k.toNat / 8 < fuel := lt_of_le_of_lt (Nat.div_le_div_right (by omega)) hfuel
  rw [crc32c_eq fuel m₁, if_pos hn, crc32c_eq fuel m, if_pos hfuel, hbytes, List.foldl_append]
  show crc32c fuel m₂ _ b k = _
  rw [crc32c_eq, if_pos hk]

/-- `crc32c` takes the bytes one after the other, and it does not matter in how many calls. -/
structure FoldsBytes (crc : BitVec 32) : Prop where
  folds (m : Memory) (buf len : BitVec 64) {fuel : ℕ} (hfuel : len.toNat / 8 < fuel) :
    crc32c fuel m crc buf len = .ok ((cells m buf len.toNat).foldl crc32b crc)
  splits {m m₁ m₂ : Memory} {buf a b len n k : BitVec 64}
    (hbytes : cells m buf len.toNat = cells m₁ a n.toNat ++ cells m₂ b k.toNat)
    {fuel : ℕ} (hfuel : len.toNat / 8 < fuel) :
    (crc32c fuel m₁ crc a n >>= fun crc => crc32c fuel m₂ crc b k) = crc32c fuel m crc buf len

/-- **CRC-32C does not depend on how the data is split.** -/
theorem crc32c_foldsBytes (crc : BitVec 32) : FoldsBytes crc where
  folds m buf len fuel hfuel := by rw [crc32c_eq, if_pos hfuel]
  splits hbytes _ hfuel := crc32c_append hbytes hfuel

/-- A buffer that is read up to some byte, and then from there on. -/
theorem crc32c_resume (m : Memory) (crc : BitVec 32) (buf : BitVec 64) (hn : n ≤ len)
    (hfuel : len.toNat / 8 < fuel) :
    (crc32c fuel m crc buf n >>= fun crc => crc32c fuel m crc (buf + n) (len - n)) =
      crc32c fuel m crc buf len := by
  refine crc32c_append ?_ hfuel
  have hsum : len.toNat = n.toNat + (len - n).toNat := by
    rw [BitVec.toNat_sub_of_le hn, Nat.add_sub_cancel' hn]
  rw [hsum, cells_add, BitVec.ofNat_toNat, BitVec.setWidth_eq]

/-! ## Division -/

/-- The bytes of a buffer are divided by the polynomial. -/
theorem foldl_crc32b (bytes : List (BitVec 8)) :
    bytes.foldl crc32b crc = Crc.update castagnoli crc bytes := rfl

/-- The eight updates of `crc32q` are one division, of the word and the register that is added
to its low end. -/
theorem crc32q_eq (crc : BitVec 32) (q : BitVec 64) :
    crc32q crc q =
      (Crc.steps (castagnoli.setWidth 64) 64 (crc.setWidth 64 ^^^ q)).setWidth 32 := by
  have hword : Crc.word 64 (bytesOfWord q) = q := Crc.word_bytes 8 (Nat.le_refl 64) q
  have hsteps : Crc.steps (castagnoli.setWidth 64) (8 * (bytesOfWord q).length)
      (crc.setWidth 64 ^^^ Crc.word 64 (bytesOfWord q)) =
        (Crc.update castagnoli crc (bytesOfWord q)).setWidth 64 :=
    Crc.steps_word (by decide) (by decide) _ (Nat.le_refl 64) crc
  have hback : ∀ x : BitVec 32, (x.setWidth 64).setWidth 32 = x := by
    intro x
    rw [BitVec.setWidth_setWidth_of_le x (by decide), BitVec.setWidth_eq]
  rw [hword] at hsteps
  rw [crc32q, foldl_crc32b, ← hback (Crc.update _ _ _), ← hsteps]
  rfl

/-- **Two buffers that differ, but only in four bytes in a row, have different checksums.** -/
theorem crc32c_burst {j : ℕ} (hfuel : len.toNat / 8 < fuel)
    (hsame : ∀ i < len.toNat, i < j ∨ j + 4 ≤ i →
      m (buf + BitVec.ofNat 64 i) = m' (buf + BitVec.ofNat 64 i))
    (hne : ∃ i < len.toNat, m (buf + BitVec.ofNat 64 i) ≠ m' (buf + BitVec.ofNat 64 i)) :
    crc32c fuel m crc buf len ≠ crc32c fuel m' crc buf len := by
  obtain ⟨i, hi, hne⟩ := hne
  have hj : j ≤ i ∧ i < j + 4 := by
    by_contra hout
    exact hne (hsame i hi (by omega))
  -- `n` bytes before the burst, `r` bytes behind it
  obtain ⟨n, r, hsum, hn, hr⟩ : ∃ n r, len.toNat = j + n + r ∧ n ≤ 4 ∧ (r = 0 ∨ n = 4) :=
    ⟨min 4 (len.toNat - j), len.toNat - (j + 4), by omega, by omega, by omega⟩
  have hcells : ∀ m : Memory, cells m buf len.toNat =
      cells m buf j ++ cells m (buf + BitVec.ofNat 64 j) n ++
        cells m (buf + BitVec.ofNat 64 (j + n)) r := by
    intro m
    rw [← cells_add, ← cells_add, hsum]
  have hbefore : cells m' buf j = cells m buf j :=
    cells_congr fun a ha => (hsame a (by omega) (.inl ha)).symm
  have hafter : cells m' (buf + BitVec.ofNat 64 (j + n)) r =
      cells m (buf + BitVec.ofNat 64 (j + n)) r := by
    apply cells_congr
    intro a ha
    rw [BitVec.add_assoc, ← BitVec.ofNat_add]
    exact (hsame (j + n + a) (by omega) (.inr (by omega))).symm
  have hburst : cells m (buf + BitVec.ofNat 64 j) n ≠ cells m' (buf + BitVec.ofNat 64 j) n := by
    intro h
    have hget : ∀ m : Memory, (cells m (buf + BitVec.ofNat 64 j) n)[i - j]? =
        some (m (buf + BitVec.ofNat 64 i)) := by
      intro m
      have hi' : i - j < n := by omega
      have hoff : buf + BitVec.ofNat 64 j + BitVec.ofNat 64 (i - j) = buf + BitVec.ofNat 64 i := by
        rw [BitVec.add_assoc, ← BitVec.ofNat_add, Nat.add_sub_cancel' hj.1]
      rw [cells, List.getElem?_map, List.getElem?_range hi', Option.map_some, hoff]
    have hbyte := hget m
    rw [h, hget m', Option.some.injEq] at hbyte
    exact hne hbyte.symm
  rw [crc32c_eq, if_pos hfuel, crc32c_eq, if_pos hfuel, foldl_crc32b, foldl_crc32b, hcells m,
    hcells m', hbefore, hafter]
  intro h
  refine Crc.update_burst (by decide) (by decide) ?_ ?_ hburst _ _ _ (Except.ok.inj h)
  · rw [length_cells, length_cells]
  · rw [length_cells]
    omega

end Mimik.Mem
