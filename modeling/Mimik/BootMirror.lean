/-
# The higher half (`arch/x86_64/boot/paging.S`)

`map_higher_half` runs in 64-bit mode, with page tables that map themselves: the addresses
that it loads from and stores to are those of memory.  It decodes the address of the kernel
in the low half and in the higher half in parallel, one index a round, shifting each of them
out of one register into another; and in every table on the way of the low address it copies
the entry of the low address to the place of the high one.

For the next table it clears the lowest twelve bits of the entry and keeps the highest
twelve, which are no part of an address.  So it comes to the next table when these are clear,
as `setup_paging` leaves them, and to no table at all otherwise.

The reserved bits of `%cr3` are clear.
-/
import Mimik.BootPaging
import Mimik.KernelRemap

namespace Mimik.Boot

open Mimik.Vm

attribute [local irreducible] higherHalf

/-! ## The routine -/

/-- `shldq $n, src, dst`. -/
def shld (n : ℕ) (src dst : BitVec 64) : BitVec 64 := dst <<< n ||| src >>> (64 - n)

/-- `andq $~0xfff`. -/
def andPage64 (a : BitVec 64) : BitVec 64 := a &&& ~~~0xfff#64

/-- A load of eight bytes.  What has more than 52 bits is no address of memory. -/
def load64 (mem : ByteMemory) (a : BitVec 64) : Except Fault (BitVec 64) :=
  if a.toNat < 2 ^ 52 then .ok (BitVec.ofNat 64 (mem.load a.toNat 8)) else .error (.wild "(%rsi)")

/-- A store of eight bytes. -/
def store64 (mem : ByteMemory) (a v : BitVec 64) : Except Fault ByteMemory :=
  if a.toNat < 2 ^ 52 then .ok (mem.store a.toNat 8 v.toNat) else .error (.wild "(%rdi)")

/-- Memory and the registers that the loop uses. -/
structure MirrorState where
  mem : ByteMemory
  rax : BitVec 64
  r8 : BitVec 64
  r9 : BitVec 64
  r10 : BitVec 64
  r11 : BitVec 64

/-- A round of the loop at label `0`. -/
def mirrorRound (s : MirrorState) : Except Fault MirrorState := do
  let r10 := shld 9 s.r8 s.r10
  let r8 := s.r8 <<< 9
  let r10 := r10 &&& 0x1ff#64
  let rdi := s.rax + r10 * 8#64
  let r11 := shld 9 s.r9 s.r11
  let r9 := s.r9 <<< 9
  let r11 := r11 &&& 0x1ff#64
  let rsi := s.rax + r11 * 8#64
  let rax ← load64 s.mem rsi
  let rax := andPage64 rax
  -- `movsq`
  let entry ← load64 s.mem rsi
  let mem ← store64 s.mem rdi entry
  return { mem, rax, r8, r9, r10, r11 }

/-- The loop, for `rcx` rounds. -/
def mirrorLoop : ℕ → MirrorState → Except Fault MirrorState
  | 0, s => .ok s
  | rcx + 1, s => do
    let s ← mirrorRound s
    mirrorLoop rcx s

/-- `map_higher_half`; `%r10` and `%r11` have any value. -/
def mapHigherHalf (kernelPaddrStart : ℕ) (mem : ByteMemory) (cr3 r10 r11 : BitVec 64) :
    Except Fault ByteMemory := do
  let rax := andPage64 cr3
  let r8 := BitVec.ofNat 64 (kernelPaddrStart + higherHalf)
  let r10 := shld 16 r8 r10
  let r8 := r8 <<< 16
  let r9 := BitVec.ofNat 64 kernelPaddrStart
  let r11 := shld 16 r9 r11
  let r9 := r9 <<< 16
  let s ← mirrorLoop 3 { mem, rax, r8, r9, r10, r11 }
  return s.mem

/-! ## Registers -/

/-- **An index is shifted out.**  What the double shift leaves in the lowest nine bits are the
highest nine bits of what is left of the address. -/
theorem toNat_shld (x y : BitVec 64) {n : ℕ} (hn : n ≤ 55) :
    (shld 9 (x <<< n) y &&& 0x1ff#64).toNat = x.toNat >>> (55 - n) % 512 := by
  have hbits : shld 9 (x <<< n) y &&& 0x1ff#64 = x >>> (55 - n) &&& 0x1ff#64 := by
    apply BitVec.eq_of_getLsbD_eq
    intro j hj
    have hmask : (0x1ff#64).getLsbD j = decide (j < 9) := by
      revert j
      decide
    simp only [shld, BitVec.getLsbD_and, BitVec.getLsbD_or, BitVec.getLsbD_shiftLeft,
      BitVec.getLsbD_ushiftRight, hmask]
    by_cases hlow : j < 9
    · have hge : ¬ 64 - 9 + j < n := by omega
      have hlt : 64 - 9 + j < 64 := by omega
      have hsub : 64 - 9 + j - n = 55 - n + j := by omega
      simp [hlow, hge, hlt, hsub]
    · simp [hlow]
  rw [hbits, BitVec.toNat_and, BitVec.toNat_ushiftRight]
  exact Nat.and_two_pow_sub_one_eq_mod _ 9

/-- The page of an entry, with the highest bits. -/
theorem toNat_andPage64 (e : BitVec 64) : (andPage64 e).toNat = e.toNat / 2 ^ 12 * 2 ^ 12 := by
  apply Nat.eq_of_testBit_eq
  intro j
  rw [Nat.testBit_mul_two_pow, Nat.testBit_div_two_pow, BitVec.testBit_toNat]
  by_cases hj : j < 64
  · have hmask : (~~~0xfff#64).getLsbD j = decide (12 ≤ j) := by
      revert j
      decide
    rw [andPage64, BitVec.getLsbD_and, hmask]
    by_cases h12 : 12 ≤ j
    · rw [Nat.sub_add_cancel h12, BitVec.testBit_toNat]
      simp [h12]
    · simp [h12]
  · have h12 : 12 ≤ j := by omega
    rw [BitVec.getLsbD_of_ge _ _ (by omega), Nat.sub_add_cancel h12, BitVec.testBit_toNat,
      BitVec.getLsbD_of_ge _ _ (by omega)]
    simp

/-- It is the table that the entry leads to when these are clear. -/
theorem andPage64_eq {e : BitVec 64} (he : e.toNat < 2 ^ 52) : andPage64 e = ptePaddr e := by
  apply BitVec.eq_of_toNat_eq
  rw [toNat_andPage64, toNat_ptePaddr, Nat.mod_eq_of_lt he]

/-! ## Rounds -/

variable {mem : ByteMemory} {root pdp pd pt p q : PAddr} {i j l : ℕ} {k : ℕ}

/-- The address of an entry of a table. -/
theorem toNat_slot (hp : p.toNat % 0x1000 = 0) {r : BitVec 64} (hr : r.toNat = i) (hi : i < 512) :
    (p + r * 8#64).toNat = p.toNat + 8 * i := by
  have hlt := p.isLt
  rw [BitVec.toNat_add, BitVec.toNat_mul, hr]
  have h8 : (8#64).toNat = 8 := rfl
  rw [h8]
  omega

/-- An entry is copied within a table. -/
def copyEntry (mem : ByteMemory) (p : PAddr) (i j : ℕ) : ByteMemory :=
  mem.store (p.toNat + 8 * j) 8 (mem.load (p.toNat + 8 * i) 8)

/-- Tables after an entry was copied. -/
theorem tablesOf_copyEntry (hp : p.toNat % 0x1000 = 0) (hq : q.toNat % 0x1000 = 0) (hj : j < 512)
    (hl : l < 512) : tablesOf (copyEntry mem p i j) q l =
      if q = p ∧ l = j then tablesOf mem p i else tablesOf mem q l := by
  split
  next heq =>
    obtain ⟨rfl, rfl⟩ := heq
    rw [tablesOf, copyEntry, ByteMemory.load_store (ByteMemory.load_lt mem _ 8), tablesOf]
  next hne =>
    rw [tablesOf, copyEntry, ByteMemory.load_store_of_disjoint, tablesOf]
    by_cases hpq : q = p
    · have hlj : l ≠ j := fun h => hne ⟨hpq, h⟩
      rw [hpq]
      omega
    · have hdiff : q.toNat ≠ p.toNat := fun h => hpq (BitVec.eq_of_toNat_eq h)
      omega

/-- The highest `n` bits of the two addresses have been shifted out. -/
structure Decodes (high low : BitVec 64) (n : ℕ) (s : MirrorState) : Prop where
  r8 : s.r8 = high <<< n
  r9 : s.r9 = low <<< n

/-- **A round**, in a table of memory, copies the entry of one index to the place of the other,
and goes on to the table of the entry. -/
theorem mirrorRound_copies {s : MirrorState} {high low : BitVec 64} {n : ℕ} (hn : n ≤ 55)
    (hs : Decodes high low n s) (hrax : s.rax = p) (hp : p.toNat % 0x1000 = 0)
    (hlt : p.toNat < 2 ^ 52) (hi : low.toNat >>> (55 - n) % 512 = i)
    (hj : high.toNat >>> (55 - n) % 512 = j) :
    ∃ s', mirrorRound s = .ok s' ∧ Decodes high low (n + 9) s' ∧
      s'.mem = copyEntry s.mem p i j ∧ s'.rax = andPage64 (tablesOf s.mem p i) := by
  obtain ⟨h8, h9⟩ := hs
  have hi' : i < 512 := hi ▸ Nat.mod_lt _ (by decide)
  have hj' : j < 512 := hj ▸ Nat.mod_lt _ (by decide)
  have hrsi : (p + (shld 9 s.r9 s.r11 &&& 0x1ff#64) * 8#64).toNat = p.toNat + 8 * i :=
    toNat_slot hp (by rw [h9, toNat_shld low _ hn, hi]) hi'
  have hrdi : (p + (shld 9 s.r8 s.r10 &&& 0x1ff#64) * 8#64).toNat = p.toNat + 8 * j :=
    toNat_slot hp (by rw [h8, toNat_shld high _ hn, hj]) hj'
  have hvalue : (BitVec.ofNat 64 (s.mem.load (p.toNat + 8 * i) 8)).toNat =
      s.mem.load (p.toNat + 8 * i) 8 :=
    Nat.mod_eq_of_lt (ByteMemory.load_lt s.mem _ 8)
  have hload : load64 s.mem (p + (shld 9 s.r9 s.r11 &&& 0x1ff#64) * 8#64) =
      .ok (tablesOf s.mem p i) := by
    rw [load64, hrsi, if_pos (by omega), tablesOf]
  have hstore : store64 s.mem (p + (shld 9 s.r8 s.r10 &&& 0x1ff#64) * 8#64)
      (tablesOf s.mem p i) = .ok (copyEntry s.mem p i j) := by
    rw [store64, hrdi, if_pos (by omega), tablesOf, hvalue, copyEntry]
  refine ⟨{ mem := copyEntry s.mem p i j, rax := andPage64 (tablesOf s.mem p i),
            r8 := s.r8 <<< 9, r9 := s.r9 <<< 9, r10 := shld 9 s.r8 s.r10 &&& 0x1ff#64,
            r11 := shld 9 s.r9 s.r11 &&& 0x1ff#64 }, ?_, ⟨?_, ?_⟩, rfl, rfl⟩
  · rw [mirrorRound, hrax]
    simp only [hload, hstore, bind, Except.bind, pure, Except.pure]
  · show s.r8 <<< 9 = _
    rw [h8, ← BitVec.shiftLeft_add]
  · show s.r9 <<< 9 = _
    rw [h9, ← BitVec.shiftLeft_add]

/-- A round at what is no address faults. -/
theorem mirrorRound_fault {s : MirrorState} (hal : s.rax.toNat % 0x1000 = 0)
    (hrax : 2 ^ 52 ≤ s.rax.toNat) : mirrorRound s = .error (.wild "(%rsi)") := by
  have hrsi := toNat_slot (r := shld 9 s.r9 s.r11 &&& 0x1ff#64) hal rfl (by
    rw [BitVec.toNat_and]
    exact lt_of_le_of_lt Nat.and_le_right (by decide))
  rw [mirrorRound]
  simp only [load64, hrsi]
  rw [if_neg (by omega)]
  rfl

/-! ## Walks -/

/-- The walk of the start of the kernel goes through four tables. -/
structure LowWalk (mem : ByteMemory) (root : PAddr) (k : ℕ) (pdp pd pt : PAddr) : Prop where
  pml4_present : present (tablesOf mem root (k >>> 39 % 512)) = true
  pml4_next : ptePaddr (tablesOf mem root (k >>> 39 % 512)) = pdp
  pdp_present : present (tablesOf mem pdp (k >>> 30 % 512)) = true
  pdp_next : ptePaddr (tablesOf mem pdp (k >>> 30 % 512)) = pd
  pd_present : present (tablesOf mem pd (k >>> 21 % 512)) = true
  pd_next : ptePaddr (tablesOf mem pd (k >>> 21 % 512)) = pt
  distinct : [root, pdp, pd, pt].Nodup

/-- The highest bits of the first two entries of the walk are clear. -/
def HighClear (mem : ByteMemory) (root pdp : PAddr) (k : ℕ) : Prop :=
  (tablesOf mem root (k >>> 39 % 512)).toNat < 2 ^ 52 ∧
    (tablesOf mem pdp (k >>> 30 % 512)).toNat < 2 ^ 52

/-- The addresses in the region of the kernel are translated as before, and those in the higher
half as they are. -/
def Mirrors (k : ℕ) (mem : ByteMemory) (cr3 r10 r11 : BitVec 64) : Prop :=
  ∃ mem', mapHigherHalf k mem cr3 r10 r11 = .ok mem' ∧ ∀ v, v / 2 ^ 21 = k / 2 ^ 21 →
    leafOf mem' (ptePaddr cr3).toNat v = leafOf mem (ptePaddr cr3).toNat v ∧
    leafOf mem' (ptePaddr cr3).toNat (higherHalf + v) = leafOf mem (ptePaddr cr3).toNat v

/-- A walk goes on in the table that its first entry leads to. -/
theorem leaf_next {T : Tables} {path : List ℕ} (hpres : present (T p i) = true)
    (hnext : ptePaddr (T p i) = q) (hpath : path ≠ []) :
    pageTables.leaf T p (i :: path) = pageTables.leaf T q path := by
  subst hnext
  rw [Radix.leaf_cons hpath, if_pos (show pageTables.present _ = true from hpres)]
  rfl

/-- The leaf entry of a walk through four tables. -/
theorem leaf_of_walk {T : Tables} {a b c d : ℕ} (ha : present (T root a) = true)
    (ha' : ptePaddr (T root a) = pdp) (hb : present (T pdp b) = true)
    (hb' : ptePaddr (T pdp b) = pd) (hc : present (T pd c) = true)
    (hc' : ptePaddr (T pd c) = pt) :
    pageTables.leaf T root [a, b, c, d] = pageTables.entry T (pt, d) := by
  rw [leaf_next ha ha' (List.cons_ne_nil _ _), leaf_next hb hb' (List.cons_ne_nil _ _),
    leaf_next hc hc' (List.cons_ne_nil _ _)]
  rfl

/-- Tables start at pages. -/
theorem ptePaddr_aligned (e : Pte) : (ptePaddr e).toNat % 0x1000 = 0 ∧
    (ptePaddr e).toNat < 2 ^ 52 := by
  rw [toNat_ptePaddr]
  omega

/-- A copy within another table leaves an entry. -/
theorem tablesOf_copyEntry_of_ne (hp : p.toNat % 0x1000 = 0) (hq : q.toNat % 0x1000 = 0)
    (hne : q ≠ p) (j l : ℕ) :
    tablesOf (copyEntry mem p i (j % 512)) q (l % 512) = tablesOf mem q (l % 512) := by
  rw [tablesOf_copyEntry hp hq (Nat.mod_lt _ (by decide)) (Nat.mod_lt _ (by decide)),
    if_neg fun h => hne h.1]

/-- The entry that is copied is in both places. -/
theorem tablesOf_copyEntry_self (hp : p.toNat % 0x1000 = 0) {i j l : ℕ} (hl : l = i ∨ l = j) :
    tablesOf (copyEntry mem p (i % 512) (j % 512)) p (l % 512) = tablesOf mem p (i % 512) := by
  rw [tablesOf_copyEntry hp hp (Nat.mod_lt _ (by decide)) (Nat.mod_lt _ (by decide))]
  rcases hl with rfl | rfl
  · exact ite_self _
  · exact if_pos ⟨rfl, rfl⟩

/-- Memory after `map_higher_half`. -/
def mirrored (mem : ByteMemory) (root pdp pd : PAddr) (k : ℕ) : ByteMemory :=
  copyEntry (copyEntry (copyEntry mem root (k >>> 39 % 512) ((k + higherHalf) >>> 39 % 512))
    pdp (k >>> 30 % 512) ((k + higherHalf) >>> 30 % 512))
    pd (k >>> 21 % 512) ((k + higherHalf) >>> 21 % 512)

/-- The tables of the walk. -/
theorem LowWalk.aligned (h : LowWalk mem root k pdp pd pt) :
    (pdp.toNat % 0x1000 = 0 ∧ pdp.toNat < 2 ^ 52) ∧ (pd.toNat % 0x1000 = 0 ∧ pd.toNat < 2 ^ 52) ∧
      pt.toNat % 0x1000 = 0 :=
  ⟨h.pml4_next ▸ ptePaddr_aligned _, h.pdp_next ▸ ptePaddr_aligned _,
    (h.pd_next ▸ ptePaddr_aligned _ : pt.toNat % 0x1000 = 0 ∧ pt.toNat < 2 ^ 52).1⟩

/-- The tables of the walk differ. -/
theorem LowWalk.ne (h : LowWalk mem root k pdp pd pt) :
    (pdp ≠ root ∧ pd ≠ root ∧ pt ≠ root) ∧ (pd ≠ pdp ∧ pt ≠ pdp) ∧ pt ≠ pd := by
  have hdistinct := h.distinct
  simp only [List.nodup_cons, List.mem_cons, List.not_mem_nil, or_false, not_or] at hdistinct
  obtain ⟨⟨h₁, h₂, h₃⟩, ⟨h₄, h₅⟩, h₆, -⟩ := hdistinct
  exact ⟨⟨Ne.symm h₁, Ne.symm h₂, Ne.symm h₃⟩, ⟨Ne.symm h₄, Ne.symm h₅⟩, Ne.symm h₆⟩

/-- **The copied entries** make two walks of the one, to the same leaf entries. -/
theorem LowWalk.leaf_mirrored (h : LowWalk mem root k pdp pd pt)
    (hroot : root.toNat % 0x1000 = 0) {u : ℕ} (hu : u = k ∨ u = k + higherHalf) (d : ℕ) :
    pageTables.leaf (tablesOf (mirrored mem root pdp pd k)) root
        [u >>> 39 % 512, u >>> 30 % 512, u >>> 21 % 512, d % 512] =
      pageTables.leaf (tablesOf mem) root
        [k >>> 39 % 512, k >>> 30 % 512, k >>> 21 % 512, d % 512] := by
  obtain ⟨⟨hpdp, -⟩, ⟨hpd, -⟩, hpt⟩ := h.aligned
  obtain ⟨⟨hne₁, hne₂, hne₃⟩, ⟨hne₄, hne₅⟩, hne₆⟩ := h.ne
  have hindex : ∀ n, u >>> n = k >>> n ∨ u >>> n = (k + higherHalf) >>> n := fun n =>
    hu.imp (congrArg (· >>> n)) (congrArg (· >>> n))
  have hfirst : tablesOf (mirrored mem root pdp pd k) root (u >>> 39 % 512) =
      tablesOf mem root (k >>> 39 % 512) := by
    rw [mirrored, tablesOf_copyEntry_of_ne hpd hroot hne₂.symm,
      tablesOf_copyEntry_of_ne hpdp hroot hne₁.symm, tablesOf_copyEntry_self hroot (hindex 39)]
  have hsecond : tablesOf (mirrored mem root pdp pd k) pdp (u >>> 30 % 512) =
      tablesOf mem pdp (k >>> 30 % 512) := by
    rw [mirrored, tablesOf_copyEntry_of_ne hpd hpdp hne₄.symm,
      tablesOf_copyEntry_self hpdp (hindex 30), tablesOf_copyEntry_of_ne hroot hpdp hne₁]
  have hthird : tablesOf (mirrored mem root pdp pd k) pd (u >>> 21 % 512) =
      tablesOf mem pd (k >>> 21 % 512) := by
    rw [mirrored, tablesOf_copyEntry_self hpd (hindex 21), tablesOf_copyEntry_of_ne hpdp hpd hne₄,
      tablesOf_copyEntry_of_ne hroot hpd hne₂]
  have hlast : tablesOf (mirrored mem root pdp pd k) pt (d % 512) = tablesOf mem pt (d % 512) := by
    rw [mirrored, tablesOf_copyEntry_of_ne hpd hpt hne₆, tablesOf_copyEntry_of_ne hpdp hpt hne₅,
      tablesOf_copyEntry_of_ne hroot hpt hne₃]
  rw [leaf_of_walk h.pml4_present h.pml4_next h.pdp_present h.pdp_next h.pd_present h.pd_next,
    leaf_of_walk ((congrArg present hfirst).trans h.pml4_present)
      ((congrArg ptePaddr hfirst).trans h.pml4_next)
      ((congrArg present hsecond).trans h.pdp_present)
      ((congrArg ptePaddr hsecond).trans h.pdp_next)
      ((congrArg present hthird).trans h.pd_present)
      ((congrArg ptePaddr hthird).trans h.pd_next)]
  simp only [Radix.entry, hlast]

/-- The two addresses. -/
theorem shifted_index (hk : k < 2 ^ 31) (n : ℕ) :
    (BitVec.ofNat 64 k).toNat >>> n % 512 = k >>> n % 512 ∧
      (BitVec.ofNat 64 (k + higherHalf)).toNat >>> n % 512 = (k + higherHalf) >>> n % 512 := by
  have hlow : (BitVec.ofNat 64 k).toNat = k := by
    rw [BitVec.toNat_ofNat, Nat.mod_eq_of_lt (by omega)]
  have hhigh : (BitVec.ofNat 64 (k + higherHalf)).toNat = k + higherHalf := by
    have hfit : k + higherHalf < 2 ^ 64 := by
      rw [higherHalf]
      omega
    rw [BitVec.toNat_ofNat, Nat.mod_eq_of_lt hfit]
  rw [hlow, hhigh]
  exact ⟨rfl, rfl⟩

/-- After the first round. -/
theorem mapHigherHalf_first (mem : ByteMemory) {cr3 : BitVec 64} (hk : k < 2 ^ 31)
    (hcr3 : cr3.toNat < 2 ^ 52) (r10 r11 : BitVec 64) : ∃ s, mapHigherHalf k mem cr3 r10 r11 =
      (mirrorLoop 2 s).map MirrorState.mem ∧
      Decodes (BitVec.ofNat 64 (k + higherHalf)) (BitVec.ofNat 64 k) 25 s ∧
      s.mem = copyEntry mem (ptePaddr cr3) (k >>> 39 % 512) ((k + higherHalf) >>> 39 % 512) ∧
      s.rax = andPage64 (tablesOf mem (ptePaddr cr3) (k >>> 39 % 512)) := by
  obtain ⟨hroot, hlt⟩ := ptePaddr_aligned cr3
  obtain ⟨hlow, hhigh⟩ := shifted_index hk 39
  obtain ⟨s, hrun, hs, hmem, hrax⟩ := mirrorRound_copies (n := 16) (by decide)
    (s := { mem, rax := ptePaddr cr3, r8 := BitVec.ofNat 64 (k + higherHalf) <<< 16,
            r9 := BitVec.ofNat 64 k <<< 16, r10 := shld 16 (BitVec.ofNat 64 (k + higherHalf)) r10,
            r11 := shld 16 (BitVec.ofNat 64 k) r11 }) ⟨rfl, rfl⟩ rfl hroot hlt hlow hhigh
  refine ⟨s, ?_, hs, hmem, hrax⟩
  rw [mapHigherHalf, andPage64_eq hcr3]
  simp only [mirrorLoop, hrun]
  rfl

/-- After the second round. -/
theorem mapHigherHalf_second {cr3 : BitVec 64} (hk : k < 2 ^ 31) (hcr3 : cr3.toNat < 2 ^ 52)
    (hwalk : LowWalk mem (ptePaddr cr3) k pdp pd pt)
    (hclear : (tablesOf mem (ptePaddr cr3) (k >>> 39 % 512)).toNat < 2 ^ 52)
    (r10 r11 : BitVec 64) : ∃ s, mapHigherHalf k mem cr3 r10 r11 =
      (mirrorLoop 1 s).map MirrorState.mem ∧
      Decodes (BitVec.ofNat 64 (k + higherHalf)) (BitVec.ofNat 64 k) 34 s ∧
      s.mem = copyEntry
        (copyEntry mem (ptePaddr cr3) (k >>> 39 % 512) ((k + higherHalf) >>> 39 % 512))
        pdp (k >>> 30 % 512) ((k + higherHalf) >>> 30 % 512) ∧
      s.rax = andPage64 (tablesOf mem pdp (k >>> 30 % 512)) := by
  obtain ⟨⟨hal, hlt⟩, -⟩ := hwalk.aligned
  obtain ⟨hlow, hhigh⟩ := shifted_index hk 30
  obtain ⟨s₁, hfirst, hs₁, hmem₁, hrax₁⟩ := mapHigherHalf_first mem hk hcr3 r10 r11
  rw [andPage64_eq hclear, hwalk.pml4_next] at hrax₁
  obtain ⟨s, hrun, hs, hmem, hrax⟩ := mirrorRound_copies (by decide) hs₁ hrax₁ hal hlt hlow hhigh
  rw [hmem₁] at hmem hrax
  rw [tablesOf_copyEntry_of_ne (ptePaddr_aligned cr3).1 hal hwalk.ne.1.1] at hrax
  refine ⟨s, ?_, hs, hmem, hrax⟩
  rw [hfirst, mirrorLoop, hrun]
  rfl

/-- **The run of `map_higher_half`** when the highest bits are clear: three entries are copied. -/
theorem mapHigherHalf_eq {cr3 r10 r11 : BitVec 64} (hk : k < 2 ^ 31) (hcr3 : cr3.toNat < 2 ^ 52)
    (hwalk : LowWalk mem (ptePaddr cr3) k pdp pd pt) (hclear : HighClear mem (ptePaddr cr3) pdp k) :
    mapHigherHalf k mem cr3 r10 r11 = .ok (mirrored mem (ptePaddr cr3) pdp pd k) := by
  obtain ⟨-, ⟨hal, hlt⟩, -⟩ := hwalk.aligned
  obtain ⟨hlow, hhigh⟩ := shifted_index hk 21
  obtain ⟨s₂, hsecond, hs₂, hmem₂, hrax₂⟩ := mapHigherHalf_second hk hcr3 hwalk hclear.1 r10 r11
  rw [andPage64_eq hclear.2, hwalk.pdp_next] at hrax₂
  obtain ⟨s, hrun, -, hmem, -⟩ := mirrorRound_copies (by decide) hs₂ hrax₂ hal hlt hlow hhigh
  rw [hsecond, mirrorLoop, hrun]
  show Except.ok s.mem = _
  rw [hmem, hmem₂, mirrored]

/-- It faults when they are not: the address of the next table has them. -/
theorem mapHigherHalf_fault {cr3 r10 r11 : BitVec 64} (hk : k < 2 ^ 31) (hcr3 : cr3.toNat < 2 ^ 52)
    (hwalk : LowWalk mem (ptePaddr cr3) k pdp pd pt)
    (hset : ¬ HighClear mem (ptePaddr cr3) pdp k) :
    mapHigherHalf k mem cr3 r10 r11 = .error (.wild "(%rsi)") := by
  by_cases hclear : (tablesOf mem (ptePaddr cr3) (k >>> 39 % 512)).toNat < 2 ^ 52
  · obtain ⟨s, hsecond, -, -, hrax⟩ := mapHigherHalf_second hk hcr3 hwalk hclear r10 r11
    have hfault := mirrorRound_fault (s := s) (by rw [hrax, toNat_andPage64]; omega) (by
      have hhigh : ¬ (tablesOf mem pdp (k >>> 30 % 512)).toNat < 2 ^ 52 := fun h => hset ⟨hclear, h⟩
      rw [hrax, toNat_andPage64]
      omega)
    rw [hsecond, mirrorLoop, hfault]
    rfl
  · obtain ⟨s, hfirst, -, -, hrax⟩ := mapHigherHalf_first mem hk hcr3 r10 r11
    have hfault := mirrorRound_fault (s := s) (by rw [hrax, toNat_andPage64]; omega) (by
      rw [hrax, toNat_andPage64]
      omega)
    rw [hfirst, mirrorLoop, hfault]
    rfl

/-! ## When the higher half mirrors the low half -/

/-- The indices of the addresses in the region of the kernel, in the low half. -/
theorem indices_low {v : ℕ} (hv : v / 2 ^ 21 = k / 2 ^ 21) :
    indices v = [k >>> 39 % 512, k >>> 30 % 512, k >>> 21 % 512, v >>> 12 % 512] := by
  simp only [indices, Nat.shiftRight_eq_div_pow, List.cons.injEq, and_true]
  omega

/-- The indices of the addresses in the region of the kernel, in the higher half. -/
theorem indices_high {v : ℕ} (hv : v / 2 ^ 21 = k / 2 ^ 21) :
    indices (higherHalf + v) = [(k + higherHalf) >>> 39 % 512, (k + higherHalf) >>> 30 % 512,
      (k + higherHalf) >>> 21 % 512, v >>> 12 % 512] := by
  rw [higherHalf]
  simp only [indices, Nat.shiftRight_eq_div_pow, List.cons.injEq, and_true]
  omega

/-- **The higher half mirrors the low half** exactly when the highest bits of the first two entries
of the walk are clear. -/
theorem mirrors_iff {cr3 r10 r11 : BitVec 64} (hk : k < 2 ^ 31) (hcr3 : cr3.toNat < 2 ^ 52)
    (hwalk : LowWalk mem (ptePaddr cr3) k pdp pd pt) :
    Mirrors k mem cr3 r10 r11 ↔ HighClear mem (ptePaddr cr3) pdp k := by
  constructor
  · rintro ⟨mem', hrun, -⟩
    by_contra hset
    rw [mapHigherHalf_fault hk hcr3 hwalk hset] at hrun
    cases hrun
  · intro hclear
    refine ⟨_, mapHigherHalf_eq hk hcr3 hwalk hclear, fun v hv => ?_⟩
    have hroot := (ptePaddr_aligned cr3).1
    have hval : BitVec.ofNat 64 (ptePaddr cr3).toNat = ptePaddr cr3 := BitVec.ofNat_toNat _ _
    have hlow := hwalk.leaf_mirrored hroot (.inl rfl) (v >>> 12)
    have hhigh := hwalk.leaf_mirrored hroot (.inr rfl) (v >>> 12)
    rw [leafOf, leafOf, leafOf, hval, indices_high hv, indices_low hv]
    exact ⟨hlow, hhigh⟩

/-- Three entries, at the pages from `0x1000` on, lead to the table at `0x4000`. -/
def bootTables (first : ℕ) : ByteMemory :=
  (((ByteMemory.store (fun _ => 0#8) 0x1000 8 first).store 0x2000 8 0x3003).store 0x3000 8
    0x4003).store (0x4000 + 8 * 16) 8 0x10003

theorem mirrors_bootTables : Mirrors 0x10000 (bootTables 0x2003) 0x1000#64 0#64 0#64 := by
  have hwalk : LowWalk (bootTables 0x2003) (ptePaddr 0x1000#64) 0x10000 0x2000#64 0x3000#64
      0x4000#64 :=
    ⟨by decide +kernel, by decide +kernel, by decide +kernel, by decide +kernel,
      by decide +kernel, by decide +kernel, by decide⟩
  have hclear : HighClear (bootTables 0x2003) (ptePaddr 0x1000#64) 0x2000#64 0x10000 :=
    ⟨by decide +kernel, by decide +kernel⟩
  exact (mirrors_iff (by decide) (by decide) hwalk).mpr hclear

/-- Bit 52 of the first entry, which the processor leaves to software. -/
theorem not_mirrors_available :
    LowWalk (bootTables 0x10000000002003) 0x1000#64 0x10000 0x2000#64 0x3000#64 0x4000#64 ∧
      ¬ Mirrors 0x10000 (bootTables 0x10000000002003) 0x1000#64 0#64 0#64 := by
  have hrun : (mapHigherHalf 0x10000 (bootTables 0x10000000002003) 0x1000#64 0#64 0#64).isOk =
      false := by
    decide +kernel
  refine ⟨⟨by decide +kernel, by decide +kernel, by decide +kernel, by decide +kernel,
    by decide +kernel, by decide +kernel, by decide⟩, ?_⟩
  rintro ⟨mem', hok, -⟩
  rw [hok] at hrun
  cases hrun

end Mimik.Boot
