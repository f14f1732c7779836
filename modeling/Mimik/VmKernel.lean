/-
# The kernel's own tables (`arch/x86_64/mm/vm.c`)

The functions with the prefix `vmk_` work on the table that was found in `%cr3` at
`vm_init`.  They assert what the general functions do not ask for: a kernel address, and
no access for users.  `vm_init` also enters `tmp_pt` in this table, three times on the
way to its own entries.

The state of `vm_init` is the one that the boot leaves behind; the tables of the boot lie
in the region that is mapped, so that it reads and writes them in place.
-/
import Mimik.VmWindow

namespace Mimik.Vm

open FaultState

/-- `LAYOUT_HEAP_START`. -/
def layoutHeapStart : ℕ := 0xffff800000000000

/-- `HIGHER_HALF`. -/
def higherHalf : ℕ := 0xffffffff80000000

/-- `ISKVADDR(a)`. -/
def isKvaddr (a : ℕ) : Bool := decide (layoutHeapStart ≤ a)

/-- `PAGEALIGNDOWN(a)`. -/
def pageAlignDown (a : ℕ) : ℕ := a / pageSize * pageSize

/-- `PAGEOFFSET(a)`. -/
def pageOffset (a : ℕ) : ℕ := a % pageSize

section Wrappers

variable {σ π : Type} (M : Machine σ π)

/-- `vm_map_bytes`. -/
def vmMapBytes (fuel : ℕ) (table : π) (paddrStart : PAddr) (bytes vaddrHint : ℕ)
    (flags : Flags) : Prog Fault σ (Status × ℕ) := do
  let alignedPaddr := pageAlignDown paddrStart.toNat
  let bytes := sub64 (wrap64 (paddrStart.toNat + bytes)) alignedPaddr
  let (res, vaddrHint) ← vmMapPages M fuel table (BitVec.ofNat 64 alignedPaddr) (pagesOf bytes)
    (pageAlignDown vaddrHint) flags
  return (res, vaddrHint ||| pageOffset paddrStart.toNat)

/-- The hint of `vmk_map_pages` and `vmk_map_bytes`: without one, the search starts behind
the kernel. -/
def kernelHint (layoutVaddrEnd vaddrHint : ℕ) : Prog Fault σ ℕ := do
  if vaddrHint = 0 then return layoutVaddrEnd
  else
    check (isKvaddr vaddrHint) "ISKVADDR(*vaddr_hint)"
    return vaddrHint

/-- `vmk_map_pages`, for the table `kpml4`. -/
def vmkMapPages (fuel layoutVaddrEnd : ℕ) (kpml4 : π) (paddrStart : PAddr)
    (pages vaddrHint : ℕ) (flags : Flags) : Prog Fault σ (Status × ℕ) := do
  check (isFlagUnset flags vmFlagUser) "ISFLAGUNSET(flags, USER)"
  let vaddrHint ← kernelHint layoutVaddrEnd vaddrHint
  vmMapPages M fuel kpml4 paddrStart pages vaddrHint flags

/-- `vmk_map_bytes`. -/
def vmkMapBytes (fuel layoutVaddrEnd : ℕ) (kpml4 : π) (paddrStart : PAddr)
    (bytes vaddrHint : ℕ) (flags : Flags) : Prog Fault σ (Status × ℕ) := do
  check (isFlagUnset flags vmFlagUser) "ISFLAGUNSET(flags, USER)"
  let vaddrHint ← kernelHint layoutVaddrEnd vaddrHint
  vmMapBytes M fuel kpml4 paddrStart bytes vaddrHint flags

/-- `vmk_unmap_pages`. -/
def vmkUnmapPages (kpml4 : π) (vaddrStart pages : ℕ) : Prog Fault σ ℕ := do
  check (isKvaddr vaddrStart) "ISKVADDR(vaddr_start)"
  vmUnmapPages M kpml4 vaddrStart pages

/-- `vmk_set_backing`. -/
def vmkSetBacking (kpml4 : π) (vaddr : ℕ) (paddr : PAddr) : Prog Fault σ Status :=
  vmSetBacking M kpml4 vaddr paddr

/-- `vmk_flag_pages`. -/
def vmkFlagPages (kpml4 : π) (vaddrStart pages : ℕ) (flags : Flags) : Prog Fault σ Status := do
  check (isFlagUnset flags vmFlagUser) "ISFLAGUNSET(flags, USER)"
  check (isKvaddr vaddrStart) "ISKVADDR(vaddr_start)"
  vmFlagPages M kpml4 vaddrStart pages flags

/-- `vmk_flag_range`. -/
def vmkFlagRange (kpml4 : π) (vaddrStart vaddrEnd : ℕ) (flags : Flags) : Prog Fault σ Status :=
  vmkFlagPages M kpml4 vaddrStart (pagesOf (sub64 vaddrEnd vaddrStart)) flags

end Wrappers

/-! ## `vm_init` -/

variable (tmpPaddr : PAddr)

/-- A round of the loop of `vm_init`: the table of the next level, or `tmp_pt`. -/
def linkTmpPt (s : VmState) (pt : PAddr) (index : ℕ) : VmState × PAddr :=
  if present (Kernel.entryAt tmpPaddr s pt index) && pt != tmpPaddr then
    (s, ptePaddr (Kernel.entryAt tmpPaddr s pt index))
  else
    (Kernel.setEntry tmpPaddr s pt index (setPte tmpPaddr vmFlagWritable), tmpPaddr)

/-- The loop of `vm_init` that looks for the first free slot of `tmp_pt`. -/
def firstFreeTmp (tmpPt : ℕ → Pte) : ℕ → ℕ → ℕ
  | 0, i => i
  | n + 1, i => if present (tmpPt i) then firstFreeTmp tmpPt n (i + 1) else i

/-- `vm_init`, with the table in `%cr3`. -/
def vmInit (kpml4 : PAddr) (s : VmState) : VmState :=
  let s := { s with tmpPt := fun _ => 0#64 }
  let (s, _) := ((indices ptTmpStartVaddr).take (ptNumLevels - 1)).foldl
    (fun (s, pt) index => linkTmpPt tmpPaddr s pt index) (s, kpml4)
  { s with firstFreeTmpIndex := firstFreeTmp s.tmpPt ptLength 0 }

variable {tmpPaddr} {s : VmState} {kpml4 pt : PAddr}

/-- All slots of `tmp_pt` but the last are clear. -/
def OnlySelf (tmpPaddr : PAddr) (tmpPt : ℕ → Pte) : Prop :=
  (∀ i, i ≠ 511 → tmpPt i = 0#64) ∧
    (tmpPt 511 = 0#64 ∨ tmpPt 511 = setPte tmpPaddr vmFlagWritable)

theorem OnlySelf.linkTmpPt (h : OnlySelf tmpPaddr s.tmpPt) (pt : PAddr) :
    OnlySelf tmpPaddr (linkTmpPt tmpPaddr s pt 511).1.tmpPt := by
  rw [Vm.linkTmpPt]
  split
  · exact h
  · rw [Kernel.setEntry]
    split
    · constructor
      · intro i hi
        show Function.update s.tmpPt 511 _ i = 0#64
        rw [Function.update_of_ne hi]
        exact h.1 i hi
      · refine .inr ?_
        show Function.update s.tmpPt 511 (setPte tmpPaddr vmFlagWritable) 511 = _
        exact Function.update_self ..
    · exact h

/-- The window that `vm_init` leaves is empty. -/
theorem onlySelf_vmInit (s : VmState) (kpml4 : PAddr) :
    OnlySelf tmpPaddr (vmInit tmpPaddr kpml4 s).tmpPt ∧
      (vmInit tmpPaddr kpml4 s).firstFreeTmpIndex = 0 := by
  have hindices : (indices ptTmpStartVaddr).take (ptNumLevels - 1) = [511, 511, 511] := by decide
  have hself : OnlySelf tmpPaddr (vmInit tmpPaddr kpml4 s).tmpPt := by
    rw [vmInit, hindices]
    exact ((OnlySelf.linkTmpPt ⟨fun _ _ => rfl, .inl rfl⟩ _).linkTmpPt _).linkTmpPt _
  refine ⟨hself, ?_⟩
  show firstFreeTmp (vmInit tmpPaddr kpml4 s).tmpPt ptLength 0 = 0
  have hzero := hself.1 0 (by decide)
  rw [ptLength, firstFreeTmp, hzero, present_zero]
  rfl

/-- **The window is in order** after `vm_init`, and has room. -/
theorem window_vmInit (s : VmState) (kpml4 : PAddr) :
    WindowOk (vmInit tmpPaddr kpml4 s).tmpPt (vmInit tmpPaddr kpml4 s).firstFreeTmpIndex ∧
      Room 3 (vmInit tmpPaddr kpml4 s).tmpPt := by
  obtain ⟨⟨hclear, hself⟩, hfirst⟩ : OnlySelf tmpPaddr (vmInit tmpPaddr kpml4 s).tmpPt ∧ _ :=
    onlySelf_vmInit s kpml4
  rw [hfirst]
  generalize (vmInit tmpPaddr kpml4 s).tmpPt = tmpPt at *
  have habs : ∀ i, i ≠ 511 → present (tmpPt i) = false := fun i hi => by
    rw [hclear i hi, present_zero]
  refine ⟨⟨fun i _ hi => ?_, Nat.zero_le _, by decide, fun _ => habs 0 (by decide),
    fun i hi => by cases hi⟩, ?_⟩
  · by_cases h511 : i = 511
    · rcases hself with hself | hself
      · rw [h511, hself]
      · rw [h511, hself, present_setPte] at hi
        cases hi
    · exact hclear i h511
  · have hall : ∀ i ∈ Finset.range 511, present (tmpPt i) = false :=
      fun i hi => habs i (Finset.mem_range.mp hi).ne
    rw [Room, Finset.filter_true_of_mem hall, Finset.card_range]
    omega

end Mimik.Vm
