/-
# ACPI tables (`common/acpi.c`)

`acpi_init` takes the descriptor that the firmware has left, maps the root table it names
and then the header of every table that the root table lists, and keeps the pointers in an
array that ends with a NULL pointer.  `acpi_init_rsdp` and `acpi_init_xsdp` differ in the
descriptor, the signature of the root table and the size of its entries.

What is a parameter: `view` is what the processor reads at a virtual address, for a page
that is not mapped some byte.  The descriptor is read byte by byte, from its own address 0
on.  The heap is the one of the slab allocator; what its calls of `mm_map` do to the page
tables is the parameter `grown`.  Of the array only its entries are modelled, as
`mem_set` leaves them, and not what lies behind it.  The loop of `acpi_init` that prints
the signatures is left out.
-/
import Mimik.Slab
import Mimik.Str
import Mimik.ByteMemory
import Mimik.VmKernel

namespace Mimik.Acpi

open FaultState Vm

/-! ## Tables -/

/-- `sizeof(struct acpi_sdt_header)`. -/
def sizeofSdtHeader : ℕ := 36

/-- `sizeof(struct acpi_rsdp)`. -/
def sizeofRsdp : ℕ := 20

/-- `tbl->length`. -/
def tableLength (m : ByteMemory) (tbl : ℕ) : ℕ := m.load (tbl + 4) 4

/-- The loop of `checksum_matches`. -/
def checksumFrom (m : ByteMemory) : ℕ → ℕ → BitVec 8 → BitVec 8
  | 0, _, c => c
  | sz + 1, p, c => checksumFrom m sz (p + 1) (c + m p)

/-- `checksum_matches`. -/
def checksumMatches (m : ByteMemory) (ptr sz : ℕ) : Bool := checksumFrom m sz ptr 0 = 0

/-- `signature_matches`. -/
def signatureMatches (m : ByteMemory) (sig : ℕ) : Bool :=
  (List.range 8).all fun i => m (sig + i) = (chars "RSD PTR ").getD i 0

/-- `str_nequal(tbl->signature, known, 4)`. -/
def tableSignature (m : ByteMemory) (tbl : ℕ) (known : String) : Except Fault Bool :=
  strNequal (fun i => .ok (m (tbl + i))) (Str.ofList (chars known)) 4

/-- The global variables of `acpi.c`, and the heap. -/
structure AcpiVars where
  root : ℕ
  tbls : ℕ
  /-- The pointers in the array at `tbls`. -/
  entries : ℕ → ℕ
  heap : SlabHeap.Heap
  /-- Not part of the source: the entries, with their pointers, for which `map_table` has
  returned `SUCCESS`. -/
  mapped : List (ℕ × ℕ)

/-- The variables before the first call. -/
def AcpiVars.init (heap : SlabHeap.Heap) : AcpiVars where
  root := 0
  tbls := 0
  entries := fun _ => 0
  heap
  mapped := []

/-! ## The functions -/

section Functions

variable {σ π α : Type} (M : Machine σ π) (fuel layoutVaddrEnd : ℕ) (kpml4 : π)
  (view : σ → ByteMemory) (env : SlabHeap.HeapEnv) (grown : σ → σ)

/-- A look at memory. -/
def look (f : ByteMemory → α) : Prog Fault σ α := fun s => .ok (f (view s), s)

/-- A computation on memory that may fault. -/
def run (f : ByteMemory → Except Fault α) : Prog Fault σ α := fun s =>
  match f (view s) with
  | .ok a => .ok (a, s)
  | .error e => .error e

/-- `map_table`, with what it leaves in `*out`. -/
def mapTable (paddr out : ℕ) : Prog Fault σ (Status × ℕ) := do
  let (res, out) ← vmkMapBytes M fuel layoutVaddrEnd kpml4 (BitVec.ofNat 64 paddr)
    sizeofSdtHeader out 0
  if isError res then return (res, out)
  else
    let length ← look view fun m => tableLength m out
    if pageSize - pageOffset out < length then
      let (res, out) ← vmkMapBytes M fuel layoutVaddrEnd kpml4 (BitVec.ofNat 64 paddr) length out 0
      if isError res then return (res, out) else return (success, out)
    else return (success, out)

/-- `acpi_init_generic`, for the descriptor `desc`. -/
def acpiInitGeneric (desc : ByteMemory) (sdtAddress revision : ℕ) (v : AcpiVars) :
    Prog Fault σ (Status × AcpiVars) := do
  if !checksumMatches desc 0 sizeofRsdp then return (-einval, v)
  else if !signatureMatches desc 0 then return (-einval, v)
  else if (desc 15).toNat ≠ revision then return (-einval, v)
  else
    let (res, root) ← mapTable M fuel layoutVaddrEnd kpml4 view sdtAddress v.root
    if isError res then return (res, { v with root }) else return (success, { v with root })

/-- `n_tbls`: the number of entries of a root table, where the size of an entry is
`1 << shift`. -/
def nTbls (shift length : ℕ) : ℕ := sub64 length sizeofSdtHeader >>> shift

/-- `tbls_sz`. -/
def tblsSz (n : ℕ) : ℕ := wrap64 (8 * wrap64 (n + 1))

/-- The entry `i` of the root table at `root`. -/
def rootEntry (shift : ℕ) (m : ByteMemory) (root i : ℕ) : ℕ :=
  m.load (root + sizeofSdtHeader + i * 2 ^ shift) (2 ^ shift)

/-- The loop over the entries of the root table, for `n` entries from `i` on. -/
def mapEntries (shift : ℕ) : ℕ → ℕ → AcpiVars → Prog Fault σ (Status × AcpiVars)
  | 0, i, v => return (success, { v with entries := Function.update v.entries i 0 })
  | n + 1, i, v => do
    let paddr ← look view fun m => rootEntry shift m v.root i
    let (res, out) ← mapTable M fuel layoutVaddrEnd kpml4 view paddr (v.entries i)
    let v := { v with entries := Function.update v.entries i out }
    if isError res then return (res, v)
    else mapEntries shift n (i + 1) { v with mapped := (i, out) :: v.mapped }

/-- `mm_alloc`. -/
def mmAlloc (v : AcpiVars) (sz : ℕ) : Prog Fault σ (ℕ × AcpiVars) := fun s =>
  match SlabHeap.mmAlloc env v.heap sz with
  | .ok (p, heap) => .ok ((p, { v with heap }), grown s)
  | .error e => .error e

/-- `acpi_init_rsdp` and `acpi_init_xsdp` from the line on that counts the entries. -/
def mapRootTable (shift : ℕ) (v : AcpiVars) : Prog Fault σ (Status × AcpiVars) := do
  let length ← look view fun m => tableLength m v.root
  let n := nTbls shift length
  let (tbls, v) ← mmAlloc env grown v (tblsSz n)
  let v := { v with tbls }
  -- the assertion of `mem_set`
  check (tbls != 0) "p != NULL"
  mapEntries M fuel layoutVaddrEnd kpml4 view shift n 0 { v with entries := fun _ => 0 }

/-- What `acpi_init_rsdp` and `acpi_init_xsdp` have in common. -/
def acpiInitRoot (desc : ByteMemory) (sdtAddress revision : ℕ) (known : String) (shift : ℕ)
    (v : AcpiVars) : Prog Fault σ (Status × AcpiVars) := do
  let (res, v) ← acpiInitGeneric M fuel layoutVaddrEnd kpml4 view desc sdtAddress revision v
  if isError res then return (res, v)
  else
    let signature ← run view fun m => tableSignature m v.root known
    if !signature then return (-einval, v)
    else
      let checksum ← look view fun m => checksumMatches m v.root (tableLength m v.root)
      if !checksum then return (-eintegrity, v)
      else mapRootTable M fuel layoutVaddrEnd kpml4 view env grown shift v

/-- `acpi_init_rsdp`. -/
def acpiInitRsdp (desc : ByteMemory) : AcpiVars → Prog Fault σ (Status × AcpiVars) :=
  acpiInitRoot M fuel layoutVaddrEnd kpml4 view env grown desc (desc.load 16 4) 0 "RSDT" 2

/-- `acpi_init_xsdp`. -/
def acpiInitXsdp (desc : ByteMemory) : AcpiVars → Prog Fault σ (Status × AcpiVars) :=
  acpiInitRoot M fuel layoutVaddrEnd kpml4 view env grown desc (desc.load 24 8) 2 "XSDT" 3

/-- `enum acpi_type`. -/
inductive AcpiType where
  | none
  | rsdp
  | xsdp

/-- `acpi_init`. -/
def acpiInit (type : AcpiType) (desc : ByteMemory) (v : AcpiVars) :
    Prog Fault σ (Status × AcpiVars) := do
  let (res, v) ← (match type with
    | .rsdp => acpiInitRsdp M fuel layoutVaddrEnd kpml4 view env grown desc v
    | .xsdp => acpiInitXsdp M fuel layoutVaddrEnd kpml4 view env grown desc v
    | .none => return (-enotimpl, v))
  if isError res then return (res, v)
  else
    check (v.root != 0) "root != NULL"
    check (v.tbls != 0) "tbls != NULL"
    return (success, v)

end Functions

end Mimik.Acpi
