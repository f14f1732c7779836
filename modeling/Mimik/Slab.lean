/-
# The slab allocator of the kernel heap (`mm/mm.c`)

`mm_alloc` serves a request from one of sixteen slabs.  A slab owns a region of
the kernel's address space that starts at `SLABBASE(type)`; it maps the region
page by page (`alloc_slab`) and carves the mapped pages into chunks of
`slab_size(type)` bytes, which wait on the slab's free list.  `mm_free` finds the
slab of a chunk again from the bits of its address.

What is modelled and what is a parameter:

* the ring behind `struct list freelist` is the sequence of its nodes, the head's
  `next` first; `none` is a head whose pointers are `NULL`, which is what
  `list_remove` leaves behind when it is applied to the head itself;
* `mm_map` is called for one page, with `VM_FLAG_STRICT`, at the slab's own end.
  It returns that page or `NULL`; it never returns a page that is mapped already.
  When it has no page to give is up to the environment (`HeapEnv`).
-/
import Mimik.Basic
import Mimik.GuardedRun

namespace Mimik.SlabHeap

/-! ## Size classes -/

/-- `LAYOUT_HEAP_START`. -/
def layoutHeapStart : ℕ := 0xffff800000000000

/-- `LAYOUT_VADDR_START`: the kernel image in the higher half. -/
def layoutVaddrStart : ℕ := 0xffffffff80010000

/-- `SLAB_MAX`, the number of slab classes. -/
def slabMax : ℕ := 16

/-- `SLAB_GROW_SIZE`. -/
def slabGrowSize : ℕ := pageSize

/-- `type - 1` on an `enum slab_type`, a 32-bit unsigned number. -/
def predType (type : ℕ) : ℕ := if type = 0 then 2 ^ 32 - 1 else type - 1

/-- `SLABTYPE(addr)`. -/
def slabType (addr : ℕ) : ℕ := addr >>> 36 &&& 0xffff

/-- `SLABBASE(type)`. -/
def slabBase (type : ℕ) : ℕ := wrap64 (layoutHeapStart + type <<< 36)

/-- `ceil_to_power_of_2`. -/
def ceilToPowerOf2 (sz : ℕ) : ℕ :=
  let sz := pred64 sz
  let sz := sz ||| sz >>> 1
  let sz := sz ||| sz >>> 2
  let sz := sz ||| sz >>> 4
  let sz := sz ||| sz >>> 8
  let sz := sz ||| sz >>> 16
  let sz := sz ||| sz >>> 32
  wrap64 (sz + 1)

/-- `slab_size`. -/
def slabSize (type : ℕ) : ℕ :=
  let shift := (type &&& 0xe) >>> 1 + 4
  let sz := 1 <<< shift
  let shift := shift - 1
  let sz := if type &&& 1 ≠ 0 then sz + 1 <<< shift else sz
  if 1024 < sz then
    let sz := sz + 512
    if 2048 < sz then sz + 512 else sz
  else sz

/-- The loop of `get_slab_from_size` that counts the bits of `chunk_sz`; a 64-bit
word is used up after 64 rounds. -/
def sizeClass : ℕ → ℕ → ℕ → ℕ
  | 0, _, type => type
  | n + 1, chunkSz, type =>
    if 0 < chunkSz then sizeClass n (chunkSz >>> 1) (type + 1) else type

/-- `get_slab_from_size`: the class that serves a request of `sz` bytes. -/
def getSlabFromSize (sz : ℕ) : Except Fault ℕ := do
  let chunkSz := ceilToPowerOf2 sz
  let type := sizeClass 64 (chunkSz >>> 4) 0
  let type := if sz ≤ slabSize (predType type) then predType type else type
  assert (type < slabMax) "type < SLAB_MAX"
  return type

/-- The sizes of the sixteen classes. -/
example : (List.range slabMax).map slabSize =
    [16, 24, 32, 48, 64, 96, 128, 192, 256, 384, 512, 768, 1024, 2048, 3072, 4096] := by
  decide

/-! ## The heap -/

/-- `struct slab`. -/
structure Slab where
  /-- The nodes of `freelist`, from the head's `next` on. -/
  freelist : Option (List ℕ)
  start : ℕ
  endAddr : ℕ

/-- What the heap finds around it. -/
structure HeapEnv where
  /-- The address of `slabs[type].freelist`. -/
  freelistHead : ℕ → ℕ
  /-- Whether the `n`-th call of `mm_map` finds a frame. -/
  avail : ℕ → Bool
  /-- The pages that are mapped outside the heap. -/
  taken : ℕ → Bool
  /-- The kernel image is one of them. -/
  image_taken : taken layoutVaddrStart = true

/-- The state of the heap: `slabs`, and the pages `mm_map` has returned so far,
each with the slab it was mapped for. -/
structure Heap where
  slabs : ℕ → Slab
  mapCalls : ℕ
  mapped : List (ℕ × ℕ)

/-- Replace one slab. -/
def Heap.setSlab (h : Heap) (type : ℕ) (s : Slab) : Heap :=
  { h with slabs := Function.update h.slabs type s }

@[simp] theorem Heap.setSlab_same (h : Heap) (type : ℕ) (s : Slab) :
    (h.setSlab type s).slabs type = s := by
  simp [Heap.setSlab]

theorem Heap.setSlab_of_ne (h : Heap) {type t : ℕ} (s : Slab) (ht : t ≠ type) :
    (h.setSlab type s).slabs t = h.slabs t := by
  simp [Heap.setSlab, ht]

@[simp] theorem Heap.setSlab_mapped (h : Heap) (type : ℕ) (s : Slab) :
    (h.setSlab type s).mapped = h.mapped := rfl

/-- `mm_init`. -/
def mmInit : Heap where
  slabs type := { freelist := some [], start := slabBase type, endAddr := slabBase type }
  mapCalls := 0
  mapped := []

/-- `mm_map(hint, SLAB_GROW_SIZE, VM_FLAG_WRITABLE | VM_FLAG_STRICT)` on behalf of
the slab `type`. -/
def mmMap (env : HeapEnv) (h : Heap) (type hint : ℕ) : ℕ × Heap :=
  if env.avail h.mapCalls && !env.taken hint && !h.mapped.any (·.2 == hint) then
    (hint, { h with mapCalls := h.mapCalls + 1, mapped := (type, hint) :: h.mapped })
  else (0, { h with mapCalls := h.mapCalls + 1 })

/-- The carving loop of `alloc_slab`.  Every round adds a chunk of at least one
byte, so that `p - s->end` rounds are enough. -/
def carve (chunkSize p : ℕ) : ℕ → ℕ → Slab → Slab
  | 0, _, s => s
  | n + 1, next, s =>
    if next < p then
      carve chunkSize p n (wrap64 (next + chunkSize))
        { s with freelist := s.freelist.map (s.endAddr :: ·), endAddr := next }
    else s

/-- `alloc_slab`. -/
def allocSlab (env : HeapEnv) (h : Heap) (type : ℕ) : Except Fault Heap := do
  assert (type < slabMax) "s->type < SLAB_MAX"
  let s := h.slabs type
  let (p, h) := mmMap env h type (pageAlignUp s.endAddr)
  assert (p != 0) "p != 0"
  let chunkSize := slabSize type
  let p := wrap64 (p + slabGrowSize)
  return h.setSlab type
    (carve chunkSize p (p - s.endAddr) (wrap64 (s.endAddr + chunkSize)) s)

/-- The end of `mm_alloc`: take the first node behind the head.  On an empty ring
that node is the head itself. -/
def popChunk (env : HeapEnv) (h : Heap) (type : ℕ) : Except Fault (ℕ × Heap) :=
  let s := h.slabs type
  match s.freelist with
  | some (chunk :: rest) => .ok (chunk, h.setSlab type { s with freelist := some rest })
  | some [] => .ok (env.freelistHead type, h.setSlab type { s with freelist := none })
  | none => .error (.assertion "elem != NULL")

/-- `mm_alloc`. -/
def mmAlloc (env : HeapEnv) (h : Heap) (sz : ℕ) : Except Fault (ℕ × Heap) := do
  assert (sz < slabSize (slabMax - 1)) "sz < slab_size(SLAB_MAX - 1)"
  let type ← getSlabFromSize sz
  let h ← (if (h.slabs type).freelist = some [] then allocSlab env h type else pure h)
  popChunk env h type

/-- `get_slab_from_address`. -/
def getSlabFromAddress (h : Heap) (addr : ℕ) : Except Fault ℕ := do
  let type := slabType addr
  assert (type < slabMax) "type < SLAB_MAX"
  let s := h.slabs type
  let sz := slabSize type
  assert (s.start ≤ addr && wrap64 (addr + sz) < s.endAddr)
    "addr >= s->start && addr + sz < s->end"
  assert (addr &&& (sz - 1) == 0) "(addr & (sz - 1)) == 0"
  return type

/-- `mm_free`; the `NULL` check is the one of `mem_set`. -/
def mmFree (h : Heap) (alloc : ℕ) : Except Fault Heap := do
  let type ← getSlabFromAddress h alloc
  assert (alloc != 0) "p != NULL"
  match (h.slabs type).freelist with
  | some l => return h.setSlab type { h.slabs type with freelist := some (alloc :: l) }
  | none => .error (.wild "list->next")

/-! ## Runs of the heap -/

/-- A call made by a client of the heap. -/
inductive HeapEvent where
  | alloc (sz : ℕ)
  | free (p : ℕ)
  deriving DecidableEq, Repr

/-- The heap together with the allocations its clients hold: address and
requested size. -/
structure HeapRun where
  heap : Heap
  live : List (ℕ × ℕ)

/-- The state before the first call. -/
def HeapRun.init : HeapRun := { heap := mmInit, live := [] }

/-- One call. -/
def HeapRun.step (env : HeapEnv) (r : HeapRun) : HeapEvent → Except Fault HeapRun
  | .alloc sz => do
    let (p, heap) ← mmAlloc env r.heap sz
    return { heap := heap, live := (p, sz) :: r.live }
  | .free p => do
    let heap ← mmFree r.heap p
    return { heap := heap, live := r.live.filter (·.1 ≠ p) }

end Mimik.SlabHeap
