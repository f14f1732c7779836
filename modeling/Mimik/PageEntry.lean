/-
# Entries of page tables and indices of virtual addresses

`union pte` and `union vaddr` of `vm.c`.  An entry is the 64-bit word the
processor reads, so the accesses to its bit fields are written as accesses to
bits; a virtual address is a number below `2 ^ 64`.  The remaining fields of the
two unions are read by nothing in `vm.c`.
-/
import Mimik.Basic

namespace Mimik.Vm

/-! ## Types and constants -/

/-- `union pte`. -/
abbrev Pte := BitVec 64

/-- The physical address of a page or of a table. -/
abbrev PAddr := BitVec 64

/-- The flags of a mapping, an `int` in the source. -/
abbrev Flags := BitVec 32

/-- `PT_LENGTH`. -/
def ptLength : ℕ := 512

/-- `PT_NUM_LEVELS`. -/
def ptNumLevels : ℕ := 4

/-- `PT_TMP_START_VADDR`. -/
def ptTmpStartVaddr : ℕ := 0xffffffffffe00000

/-- `VM_FLAG_STRICT`. -/
def vmFlagStrict : Flags := 1#32 <<< 0

/-- `VM_FLAG_USER`. -/
def vmFlagUser : Flags := 1#32 <<< 1

/-- `VM_FLAG_WRITABLE`. -/
def vmFlagWritable : Flags := 1#32 <<< 2

/-- `VM_FLAG_EXECUTABLE`. -/
def vmFlagExecutable : Flags := 1#32 <<< 3

/-- `ISFLAGSET(flags, flag)`. -/
def isFlagSet (flags flag : Flags) : Bool := flags &&& flag != 0#32

/-- `ISFLAGUNSET(flags, flag)`. -/
def isFlagUnset (flags flag : Flags) : Bool := flags &&& flag == 0#32

/-! ## Bit fields -/

/-- The assignment of a bit field of one bit. -/
def setBit (e : Pte) (i : ℕ) (v : Bool) : Pte :=
  if v then e ||| 1#64 <<< i else e &&& ~~~(1#64 <<< i)

/-- `e->present`. -/
def present (e : Pte) : Bool := e.getLsbD 0

/-- `e->writable`. -/
def writable (e : Pte) : Bool := e.getLsbD 1

/-- `e->user_accessible`. -/
def userAccessible (e : Pte) : Bool := e.getLsbD 2

/-- `e->no_execute`. -/
def noExecute (e : Pte) : Bool := e.getLsbD 63

/-- The bits of an entry that hold an address. -/
def paddrMask : Pte := 0x000ffffffffff000#64

/-- `PTEPADDR(e)`. -/
def ptePaddr (e : Pte) : PAddr := e &&& paddrMask

/-- `set_pte`: the entry that is stored. -/
def setPte (addr : PAddr) (flags : Flags) : Pte :=
  let e := addr &&& paddrMask
  let e := setBit e 0 true
  let e := setBit e 1 (isFlagSet flags vmFlagWritable)
  let e := setBit e 2 (isFlagSet flags vmFlagUser)
  setBit e 63 (isFlagUnset flags vmFlagExecutable)

/-- `update_pt_pte_flags`: the entry that is stored. -/
def reflag (e : Pte) (flags : Flags) : Pte :=
  let e := setBit e 1 (isFlagSet flags vmFlagWritable)
  let e := setBit e 2 (isFlagSet flags vmFlagUser)
  setBit e 63 false

/-- `pte_flags_match`. -/
def pteFlagsMatch (e : Pte) (flags : Flags) : Bool :=
  (writable e && isFlagSet flags vmFlagWritable) &&
    (userAccessible e && isFlagSet flags vmFlagUser) &&
    (noExecute e && isFlagUnset flags vmFlagExecutable)

/-- The update of the address bits in `recurse_set_backing`. -/
def setBackingPte (e : Pte) (paddr : PAddr) : Pte := e &&& ~~~paddrMask ||| paddr

/-! ### Reading back what was stored -/

/-- Reading a bit after a bit field was assigned. -/
theorem getLsbD_setBit (e : Pte) (i : ℕ) (v : Bool) {j : ℕ} (hj : j < 64) :
    (setBit e i v).getLsbD j = if j = i then v else e.getLsbD j := by
  rw [setBit]
  by_cases hji : j = i
  · subst hji
    cases v <;> simp [hj]
  · rw [if_neg hji]
    by_cases hlt : j < i
    · cases v <;> simp [hlt, hj]
    · have hne : j - i ≠ 0 := by omega
      cases v <;> simp [hlt, hne, hj]

/-- The address bits are the bits 12 to 51. -/
theorem getLsbD_paddrMask {j : ℕ} (hj : j < 64) :
    paddrMask.getLsbD j = decide (12 ≤ j ∧ j < 52) := by
  revert j
  decide

theorem getLsbD_ptePaddr (e : Pte) {j : ℕ} (hj : j < 64) :
    (ptePaddr e).getLsbD j = (e.getLsbD j && decide (12 ≤ j ∧ j < 52)) := by
  rw [ptePaddr, BitVec.getLsbD_and, getLsbD_paddrMask hj]

/-- The address in an entry, as a number. -/
theorem toNat_ptePaddr (e : Pte) : (ptePaddr e).toNat = e.toNat % 2 ^ 52 / 2 ^ 12 * 2 ^ 12 := by
  apply Nat.eq_of_testBit_eq
  intro j
  rw [Nat.testBit_mul_two_pow, Nat.testBit_div_two_pow, Nat.testBit_mod_two_pow,
    BitVec.testBit_toNat]
  by_cases hj : j < 64
  · rw [getLsbD_ptePaddr _ hj]
    by_cases h12 : 12 ≤ j
    · rw [Nat.sub_add_cancel h12, BitVec.testBit_toNat]
      simp [h12, Bool.and_comm]
    · simp [h12]
  · have h12 : 12 ≤ j := by omega
    have h52 : ¬ j < 52 := by omega
    rw [BitVec.getLsbD_of_ge _ _ (by omega), Nat.sub_add_cancel h12]
    simp [h52]

/-- The address of a page that an entry can hold is its own address part. -/
theorem ptePaddr_of_page {paddr : PAddr} (hal : paddr.toNat % pageSize = 0)
    (hlt : paddr.toNat < 2 ^ 52) : ptePaddr paddr = paddr := by
  apply BitVec.eq_of_toNat_eq
  rw [toNat_ptePaddr, Nat.mod_eq_of_lt hlt]
  rw [pageSize] at hal
  omega

/-- The bits outside the address do not change it. -/
@[simp] theorem ptePaddr_setBit (e : Pte) {i : ℕ} (v : Bool) (hi : i < 12 ∨ 52 ≤ i) :
    ptePaddr (setBit e i v) = ptePaddr e := by
  apply BitVec.eq_of_getLsbD_eq
  intro j hj
  rw [getLsbD_ptePaddr _ hj, getLsbD_ptePaddr _ hj, getLsbD_setBit _ _ _ hj]
  by_cases hji : j = i
  · have hout : ¬ (12 ≤ j ∧ j < 52) := by omega
    simp [hout]
  · rw [if_neg hji]

/-- An address taken from an entry is its own address part. -/
@[simp] theorem ptePaddr_ptePaddr (e : Pte) : ptePaddr (ptePaddr e) = ptePaddr e := by
  rw [ptePaddr, ptePaddr, BitVec.and_assoc, BitVec.and_self]

/-- The bits of an entry made by `set_pte`. -/
theorem getLsbD_setPte (addr : PAddr) (flags : Flags) {j : ℕ} (hj : j < 64) :
    (setPte addr flags).getLsbD j =
      if j = 63 then isFlagUnset flags vmFlagExecutable
      else if j = 2 then isFlagSet flags vmFlagUser
      else if j = 1 then isFlagSet flags vmFlagWritable
      else if j = 0 then true
      else (ptePaddr addr).getLsbD j := by
  simp only [setPte, ← ptePaddr.eq_1, getLsbD_setBit _ _ _ hj]

/-- The bits of an entry after `update_pt_pte_flags`. -/
theorem getLsbD_reflag (e : Pte) (flags : Flags) {j : ℕ} (hj : j < 64) :
    (reflag e flags).getLsbD j =
      if j = 63 then false
      else if j = 2 then isFlagSet flags vmFlagUser
      else if j = 1 then isFlagSet flags vmFlagWritable
      else e.getLsbD j := by
  simp only [reflag, getLsbD_setBit _ _ _ hj]

@[simp] theorem present_setPte (addr : PAddr) (flags : Flags) :
    present (setPte addr flags) = true :=
  getLsbD_setPte addr flags (by decide)

@[simp] theorem ptePaddr_setPte (addr : PAddr) (flags : Flags) :
    ptePaddr (setPte addr flags) = ptePaddr addr := by
  simp only [setPte, ← ptePaddr.eq_1]
  simp

@[simp] theorem writable_setPte (addr : PAddr) (flags : Flags) :
    writable (setPte addr flags) = isFlagSet flags vmFlagWritable :=
  getLsbD_setPte addr flags (by decide)

@[simp] theorem userAccessible_setPte (addr : PAddr) (flags : Flags) :
    userAccessible (setPte addr flags) = isFlagSet flags vmFlagUser :=
  getLsbD_setPte addr flags (by decide)

@[simp] theorem noExecute_setPte (addr : PAddr) (flags : Flags) :
    noExecute (setPte addr flags) = isFlagUnset flags vmFlagExecutable :=
  getLsbD_setPte addr flags (by decide)

@[simp] theorem present_reflag (e : Pte) (flags : Flags) :
    present (reflag e flags) = present e :=
  getLsbD_reflag e flags (by decide)

@[simp] theorem ptePaddr_reflag (e : Pte) (flags : Flags) :
    ptePaddr (reflag e flags) = ptePaddr e := by
  simp [reflag]

@[simp] theorem writable_reflag (e : Pte) (flags : Flags) :
    writable (reflag e flags) = isFlagSet flags vmFlagWritable :=
  getLsbD_reflag e flags (by decide)

@[simp] theorem userAccessible_reflag (e : Pte) (flags : Flags) :
    userAccessible (reflag e flags) = isFlagSet flags vmFlagUser :=
  getLsbD_reflag e flags (by decide)

@[simp] theorem noExecute_reflag (e : Pte) (flags : Flags) :
    noExecute (reflag e flags) = false :=
  getLsbD_reflag e flags (by decide)

/-- An entry that is given another frame stays present. -/
theorem present_setBackingPte {e : Pte} {paddr : PAddr} (h : present e = true) :
    present (setBackingPte e paddr) = true := by
  have hmask : paddrMask.getLsbD 0 = false := by decide
  rw [present] at h
  rw [present, setBackingPte, BitVec.getLsbD_or, BitVec.getLsbD_and, BitVec.getLsbD_not, h, hmask]
  rfl

/-- The frame of an entry that is given another one. -/
theorem ptePaddr_setBackingPte {paddr : PAddr} (h : ptePaddr paddr = paddr) (e : Pte) :
    ptePaddr (setBackingPte e paddr) = paddr := by
  apply BitVec.eq_of_getLsbD_eq
  intro j hj
  have hbit := congrArg (·.getLsbD j) h
  simp only [getLsbD_ptePaddr _ hj] at hbit
  rw [getLsbD_ptePaddr _ hj, setBackingPte, BitVec.getLsbD_or, BitVec.getLsbD_and,
    BitVec.getLsbD_not, getLsbD_paddrMask hj]
  by_cases hin : 12 ≤ j ∧ j < 52
  · simp [hin]
  · simp only [hin, decide_false, Bool.and_false] at hbit ⊢
    exact hbit

/-- The bits outside the address stay. -/
theorem setBackingPte_flags {paddr : PAddr} (h : ptePaddr paddr = paddr) (e : Pte) :
    setBackingPte e paddr &&& ~~~paddrMask = e &&& ~~~paddrMask := by
  apply BitVec.eq_of_getLsbD_eq
  intro j hj
  have hbit := congrArg (·.getLsbD j) h
  simp only [getLsbD_ptePaddr _ hj] at hbit
  simp only [setBackingPte, BitVec.getLsbD_and, BitVec.getLsbD_or, BitVec.getLsbD_not,
    getLsbD_paddrMask hj]
  by_cases hin : 12 ≤ j ∧ j < 52
  · simp [hin]
  · simp only [hin, decide_false, Bool.and_false] at hbit
    simp [← hbit]

/-- A cleared entry is not present. -/
@[simp] theorem present_zero : present 0#64 = false := by
  simp [present]

/-! ## Virtual addresses -/

/-- `indices`: `pml4_index`, `pdp_index`, `pd_index` and `pt_index` of an address. -/
def indices (vaddr : ℕ) : List ℕ :=
  [vaddr >>> 39 % 512, vaddr >>> 30 % 512, vaddr >>> 21 % 512, vaddr >>> 12 % 512]

/-- The bits from 47 up are equal: the processor accepts the address. -/
def canonical (vaddr : ℕ) : Bool := vaddr >>> 47 == 0 || vaddr >>> 47 == 2 ^ 17 - 1

/-- Each of the four indices is an index of a table. -/
theorem indices_lt {vaddr i : ℕ} (hi : i ∈ indices vaddr) : i < ptLength := by
  simp only [indices, List.mem_cons, List.not_mem_nil, or_false] at hi
  rw [ptLength]
  omega

@[simp] theorem length_indices (vaddr : ℕ) : (indices vaddr).length = 4 := rfl

end Mimik.Vm
