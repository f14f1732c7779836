/-
# Fresh memory (`mm/mm.c`), and the two managers together

`mm_map` and `mm_map_in_table` reserve a range of pages and back each of them with a page
of its own.  Like the functions of `vm.c` they are written over a `Machine`.

Here the two managers are put together.  `together` is the machine whose page tables are those
of `kernel` and whose `pm_request_page` is that of `pm.c`, so that a table that
`create_pt` makes lies in a page that the allocator has locked.  The list `frames` of a
`VmState` is not used.

What the two share is only this call: the bits of the allocator and the page tables are
kept apart.
-/
import Mimik.Pm
import Mimik.VmCarry
import Mimik.VmKernel

namespace Mimik.Vm

open FaultState

/-! ## `mm_map` -/

section Mapping

variable {σ π : Type} (M : Machine σ π)

/-- `(addr_t)-BYTES(pages)`. -/
def reservedPaddr (pages : ℕ) : PAddr := 0#64 - BitVec.ofNat 64 (pages * pageSize)

/-- `vm_reserve_pages`. -/
def vmReservePages (fuel : ℕ) (table : π) (vaddrHint pages : ℕ) (flags : Flags) :
    Prog Fault σ (Status × ℕ) :=
  vmMapPages M fuel table (reservedPaddr pages) pages vaddrHint flags

/-- `vmk_reserve_pages`. -/
def vmkReservePages (fuel layoutVaddrEnd : ℕ) (kpml4 : π) (vaddrHint pages : ℕ) (flags : Flags) :
    Prog Fault σ (Status × ℕ) :=
  vmkMapPages M fuel layoutVaddrEnd kpml4 (reservedPaddr pages) pages vaddrHint flags

/-- The loop of `mm_map`: one page of memory for each page of the range. -/
def backPages (setBacking : ℕ → PAddr → Prog Fault σ Status) : ℕ → ℕ → Prog Fault σ Unit
  | 0, _ => pure ()
  | pages + 1, vaddr => do
    let paddr ← M.pmRequestPage
    let res ← setBacking vaddr paddr
    check (res = success) "res == SUCCESS"
    backPages setBacking pages (wrap64 (vaddr + pageSize))

/-- The body of `mm_map` and `mm_map_in_table`; they return `NULL` for an error. -/
def mapFresh (reserve : ℕ → Prog Fault σ (Status × ℕ))
    (setBacking : ℕ → PAddr → Prog Fault σ Status) (size : ℕ) : Prog Fault σ ℕ := do
  let (res, hint) ← reserve (pagesOf size)
  if isError res then return 0
  else
    backPages M setBacking (pagesOf size) hint
    return hint

/-- `mm_map`. -/
def mmMap (fuel layoutVaddrEnd : ℕ) (kpml4 : π) (hint size : ℕ) (flags : Flags) :
    Prog Fault σ ℕ :=
  mapFresh M (fun pages => vmkReservePages M fuel layoutVaddrEnd kpml4 hint pages flags)
    (vmkSetBacking M kpml4) size

/-- `mm_map_in_table`. -/
def mmMapInTable (fuel : ℕ) (table : π) (hint size : ℕ) (flags : Flags) : Prog Fault σ ℕ :=
  mapFresh M (fun pages => vmReservePages M fuel table hint pages flags) (vmSetBacking M table)
    size

end Mapping

/-! ## The two managers together -/

/-- The static variables of `pm.c` and `vm.c`, and the page tables. -/
structure MmState where
  pm : Pm.PmState
  vm : VmState

/-- A program of the virtual memory manager leaves the other manager alone. -/
def onVm {α : Type} (x : Prog Fault VmState α) : Prog Fault MmState α := fun s =>
  match x s.vm with
  | .ok r => .ok (r.1, { s with vm := r.2 })
  | .error f => .error f

/-- A call of the physical memory manager. -/
def onPm {α : Type} (x : Pm.PmState → Except Fault (α × Pm.PmState)) : Prog Fault MmState α :=
  fun s =>
    match x s.pm with
    | .ok r => .ok (r.1, { s with pm := r.2 })
    | .error f => .error f

/-- The machine of the two managers. -/
def together (env : Pm.PmEnv) (depth : ℕ) (tmpPaddr : PAddr) : Machine MmState PtPtr where
  read pt i := onVm (Kernel.read tmpPaddr pt i)
  write pt i e := onVm (Kernel.write tmpPaddr pt i e)
  mapPageTmp paddr flags := onVm (Kernel.mapPageTmp paddr flags)
  unmapPageTmp pt := onVm (Kernel.unmapPageTmp pt)
  pmRequestPage := do
    let paddr ← onPm (Pm.pmRequestPage env depth)
    return BitVec.ofNat 64 paddr
  memSet pt := onVm (Kernel.memSet tmpPaddr pt)
  invalidatePage vaddr := onVm (Kernel.invalidatePage vaddr)

/-- A call on the table at `root`: the record of the tables walked starts with it. -/
def callTogether {α : Type} (root : PAddr) (x : Prog Fault MmState α) : Prog Fault MmState α :=
  fun s => x { s with vm := { s.vm with opened := [root] } }

end Mimik.Vm
