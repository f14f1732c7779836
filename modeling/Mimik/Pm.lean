/-
# The physical memory manager (`mm/pm.c`)

The manager keeps one bit for every page: a first bitmap for the first 128 MiB, in
the static array `pages_bitmap0`, and further bitmaps that `create_bitmap`
allocates on demand, each with a page of its own for the bits.

What is modelled and what is a parameter:

* the ring `mem_bitmaps` is the sequence of its nodes, the head's `next` first.  A
  node is named by the number of the allocation it came from, `mem_bitmap0` by 0.
  `find_first_free_bitmap` can take the head itself for a bitmap; what it then reads
  are the bytes behind the head (`headIndex`, `headUnset`).  A later access through
  such a pointer is a fault;
* `mm_alloc` gives an object of its own, and for that may itself request pages, on the
  `n`-th call `heapPages n` of them.  Its chunks for a `struct mem_bitmap` of 64 bytes have
  48, so that this is true of the first bitmap that is made, and for more of them an
  assumption about `mm_alloc`;
* `mem_set` clears the bytes it is asked to clear, and no others;
* `pm_request_page` and `create_bitmap` call each other.  The functions below take
  `pm_request_page` as the argument `req`, and `pmRequestPage` ties the knot with a
  bound on the depth of the recursion and on the rounds of each loop.

The fields `history` and `handed` are not part of the source: they record the
operations that succeeded and the pages that were returned.
-/
import Mimik.Bitmap
import Mimik.GuardedRun

namespace Mimik.Pm

/-! ## Data -/

/-- `BITMAP_BYTES`. -/
def bitmapBytes : ℕ := pageSize

/-- `BITMAP_SIZE`. -/
def bitmapSize : ℕ := bitmapBytes <<< 3

/-- `TOBITMAP(a)`. -/
def toBitmap (a : ℕ) : ℕ := a >>> 27

/-- `TOINDEX(a)`. -/
def toIndex (a : ℕ) : ℕ := (a &&& 0x7fff000) / pageSize

/-- `TOPADDR(b, i)`. -/
def toPaddr (b i : ℕ) : ℕ := wrap64 (b <<< 27 + i * pageSize)

/-- The page of an address. -/
def pageOf (a : ℕ) : ℕ := a / pageSize

/-- Where the bits of a bitmap are: in `pages_bitmap0`, or in a page. -/
inductive MapPtr where
  | pagesBitmap0
  | page (paddr : ℕ)
  deriving DecidableEq

/-- `struct mem_info`. -/
structure MemInfo where
  used : ℕ
  free : ℕ

/-- `struct mem_bitmap`. -/
structure MemBitmap where
  /-- The object itself. -/
  id : ℕ
  index : ℕ
  firstFree : ℕ
  super : Bitmap MapPtr

/-- A `struct mem_bitmap*` found by following the ring. -/
inductive BitmapRef where
  | head
  | node (id : ℕ)
  deriving DecidableEq

/-- `enum bootinfo_mem_segment_type`. -/
inductive SegmentType where
  | reserved
  | available
  deriving DecidableEq

/-- `struct bootinfo_mem_segment`. -/
structure MemSegment where
  type : SegmentType
  addr : ℕ
  length : ℕ

/-- What the manager finds around it. -/
structure PmEnv where
  /-- `LAYOUT_PADDR_START`, `LAYOUT_PADDR_END`. -/
  layoutPaddrStart : ℕ
  layoutPaddrEnd : ℕ
  heapPages : ℕ → ℕ
  headIndex : ℕ
  headUnset : ℕ

/-- The static variables of `pm.c`. -/
structure PmState where
  memInfo : MemInfo
  memBitmaps : List MemBitmap
  firstFreeBitmap : BitmapRef
  nextBitmapPage : ℕ
  maps : Bytes MapPtr
  /-- The calls of `mm_alloc` so far. -/
  allocCalls : ℕ
  /-- The operations on pages that succeeded, the last one first: `true` for a lock,
  `false` for a release. -/
  history : List (ℕ × Bool)
  /-- The page addresses returned by `pm_request_page` and `pm_request_pages`. -/
  handed : List ℕ

namespace PmState

-- the arithmetic of machine words is not to be unfolded when states are compared
attribute [local irreducible] wrap64 sub64

/-- Access to a bitmap through a pointer. -/
def deref (s : PmState) : BitmapRef → Except Fault MemBitmap
  | .head => .error (.wild "mem_bitmaps")
  | .node id =>
    match s.memBitmaps.find? (·.id == id) with
    | some b => .ok b
    | none => .error (.wild "struct mem_bitmap")

/-- Write to a bitmap. -/
def modify (s : PmState) (id : ℕ) (f : MemBitmap → MemBitmap) : PmState :=
  { s with memBitmaps := s.memBitmaps.map fun b => if b.id = id then f b else b }

/-- `b->first_free = v`. -/
def setFirstFree (s : PmState) (id v : ℕ) : PmState :=
  s.modify id fun b => { b with firstFree := v }

/-- `mem_info.used += PAGE_SIZE; mem_info.free -= PAGE_SIZE`, for the page of `paddr`. -/
def pageLocked (s : PmState) (paddr : ℕ) : PmState :=
  { s with
    memInfo := { used := wrap64 (s.memInfo.used + pageSize),
                 free := sub64 s.memInfo.free pageSize }
    history := (pageOf paddr, true) :: s.history }

/-- `mem_info.used -= PAGE_SIZE; mem_info.free += PAGE_SIZE`, for the page of `paddr`. -/
def pageReleased (s : PmState) (paddr : ℕ) : PmState :=
  { s with
    memInfo := { used := sub64 s.memInfo.used pageSize,
                 free := wrap64 (s.memInfo.free + pageSize) }
    history := (pageOf paddr, false) :: s.history }

/-- `mem_info.free += length`. -/
def addFree (s : PmState) (length : ℕ) : PmState :=
  { s with memInfo := { used := s.memInfo.used, free := wrap64 (s.memInfo.free + length) } }

@[simp] theorem pageLocked_handed (s : PmState) (paddr : ℕ) :
    (s.pageLocked paddr).handed = s.handed := rfl

@[simp] theorem pageLocked_maps (s : PmState) (paddr : ℕ) :
    (s.pageLocked paddr).maps = s.maps := rfl

@[simp] theorem pageLocked_history (s : PmState) (paddr : ℕ) :
    (s.pageLocked paddr).history = (pageOf paddr, true) :: s.history := rfl

@[simp] theorem pageReleased_handed (s : PmState) (paddr : ℕ) :
    (s.pageReleased paddr).handed = s.handed := rfl

@[simp] theorem pageReleased_maps (s : PmState) (paddr : ℕ) :
    (s.pageReleased paddr).maps = s.maps := rfl

@[simp] theorem pageReleased_history (s : PmState) (paddr : ℕ) :
    (s.pageReleased paddr).history = (pageOf paddr, false) :: s.history := rfl

/-- A page is locked when the last operation that succeeded on it was a lock. -/
def isLocked (s : PmState) (page : ℕ) : Bool := s.history.lookup page = some true

end PmState

/-- A call of `pm_request_page`. -/
abbrev RequestPage := PmState → Except Fault (ℕ × PmState)

/-! ## Bitmaps -/

/-- The pages that `mm_alloc` requests. -/
def heapRequests (req : RequestPage) : ℕ → PmState → Except Fault PmState
  | 0, s => .ok s
  | n + 1, s => do
    let (_, s) ← req s
    heapRequests req n s

/-- `mm_alloc(sizeof(*new_bitmap))`. -/
def mmAllocBitmap (env : PmEnv) (req : RequestPage) (s : PmState) :
    Except Fault (ℕ × PmState) := do
  let call := s.allocCalls
  let s ← heapRequests req (env.heapPages call) { s with allocCalls := call + 1 }
  return (call + 1, s)

/-- `list_insert(pos->link.prev, &elem->link)`. -/
def insertBefore (elem : MemBitmap) : BitmapRef → List MemBitmap → List MemBitmap
  | _, [] => [elem]
  | .head, b :: bs => b :: insertBefore elem .head bs
  | .node id, b :: bs =>
    if b.id = id then elem :: b :: bs else b :: insertBefore elem (.node id) bs

/-- The middle of `create_bitmap`: the fields of the new bitmap, and its place in the
ring.  Its index is the constant 0, not the index it is made for. -/
def linkBitmap (s : PmState) (memBitmap : BitmapRef) (id : ℕ) : PmState :=
  let (super, maps) := bitmapFrom s.maps bitmapSize (.page s.nextBitmapPage)
  let newBitmap := { id := id, index := 0, firstFree := 0, super := super }
  { s with maps := maps, memBitmaps := insertBefore newBitmap memBitmap s.memBitmaps }

/-- `create_bitmap`. -/
def createBitmap (env : PmEnv) (req : RequestPage) (s : PmState) (index : ℕ) :
    Except Fault (ℕ × PmState) := do
  let memBitmap : BitmapRef :=
    match s.memBitmaps.find? (index < ·.index) with
    | some b => .node b.id
    | none => .head
  let (id, s) ← mmAllocBitmap env req s
  assert (s.nextBitmapPage != 0) "p != NULL"
  let (page, s) ← req (linkBitmap s memBitmap id)
  return (id, { s with nextBitmapPage := page })

/-- The bitmaps that `list_for_each(…, &ref->link, link)` passes: all of the ring but
`ref` itself, from the one after it on. -/
def ringFrom (bs : List MemBitmap) : BitmapRef → List (Option MemBitmap)
  | .head => bs.map some
  | .node id =>
    (bs.dropWhile (·.id != id)).tail.map some ++ none :: (bs.takeWhile (·.id != id)).map some

/-- The loop of `find_first_free_bitmap`: the first bitmap with a free bit, or the
index after the last one without a gap. -/
def searchRing (env : PmEnv) : List (Option MemBitmap) → Option ℕ → BitmapRef ⊕ Option ℕ
  | [], prevBitmap => .inr prevBitmap
  | m :: ms, prevBitmap =>
    let unset := (m.map (·.super.unset)).getD env.headUnset
    let index := (m.map (·.index)).getD env.headIndex
    if 0 < unset then
      .inl ((m.map (BitmapRef.node ·.id)).getD .head)
    else if prevBitmap.all (fun prev => sub64 index prev == 1) then
      searchRing env ms (some index)
    else searchRing env ms prevBitmap

/-- `find_first_free_bitmap`. -/
def findFirstFreeBitmap (env : PmEnv) (req : RequestPage) (s : PmState) :
    Except Fault PmState :=
  match searchRing env (ringFrom s.memBitmaps s.firstFreeBitmap) none with
  | .inl memBitmap => .ok { s with firstFreeBitmap := memBitmap }
  | .inr none => .error (.assertion "prev_bitmap != NULL")
  | .inr (some prev) => do
    let (id, s) ← createBitmap env req s (wrap64 (prev + 1))
    return { s with firstFreeBitmap := .node id }

/-- `find_bitmap_by_index`. -/
def findBitmapByIndex (s : PmState) (index : ℕ) : Option MemBitmap :=
  s.memBitmaps.find? (·.index == index)

/-- `find_first_free_index`; the first argument bounds the rounds of its loop. -/
def findFirstFreeIndex (env : PmEnv) (req : RequestPage) :
    ℕ → PmState → Except Fault (Bool × PmState)
  | 0, _ => .error .outOfFuel
  | rounds + 1, s => do
    let b ← s.deref s.firstFreeBitmap
    let res := bitmapGet s.maps b.super b.firstFree
    if res = 0 then return (true, s)
    else
      let s ← (if isError res then do
          assert (res == -einval) "res == -EINVAL"
          findFirstFreeBitmap env req s
        else pure s)
      let b ← s.deref s.firstFreeBitmap
      let firstFree := wrap64 (b.firstFree + 1)
      let s := s.setFirstFree b.id firstFree
      if firstFree < b.super.size then findFirstFreeIndex env req rounds s
      else return (false, s)

/-! ## Pages -/

/-- `try_set_page`. -/
def trySetPage (env : PmEnv) (req : RequestPage) (s : PmState) (paddr : ℕ) (state : Bool) :
    Except Fault (Bool × PmState) := do
  let bitmap := toBitmap paddr
  let (id, s) ← (match findBitmapByIndex s bitmap with
    | some b => pure (b.id, s)
    | none => createBitmap env req s bitmap)
  let b ← s.deref (.node id)
  let (sts, super, maps) := bitmapSet s.maps b.super (toIndex paddr) state
  return (sts == success, { s.modify id (fun b => { b with super := super }) with maps := maps })

/-- `pm_try_lock_page`. -/
def tryLockPage (env : PmEnv) (req : RequestPage) (rounds : ℕ) (s : PmState) (paddr : ℕ) :
    Except Fault (Bool × PmState) := do
  let (set, s) ← trySetPage env req s paddr true
  if set then
    let bitmap := toBitmap paddr
    let first ← s.deref s.firstFreeBitmap
    let s ← (if first.index = bitmap then do
        let (found, s) ← findFirstFreeIndex env req rounds s
        if found then pure s else findFirstFreeBitmap env req s
      else pure s)
    return (true, s.pageLocked paddr)
  else return (false, s)

/-- `pm_try_release_page`. -/
def tryReleasePage (env : PmEnv) (req : RequestPage) (s : PmState) (paddr : ℕ) :
    Except Fault (Bool × PmState) := do
  let (set, s) ← trySetPage env req s paddr false
  if set then
    let bitmap := toBitmap paddr
    let first ← s.deref s.firstFreeBitmap
    let s ← (if bitmap < first.index then
        match findBitmapByIndex s bitmap with
        | some b => pure { s with firstFreeBitmap := .node b.id }
        | none => .error (.wild "first_free_bitmap")
      else pure s)
    let first ← s.deref s.firstFreeBitmap
    let index := toIndex paddr
    let s := if bitmap = first.index ∧ index < first.firstFree then
        s.setFirstFree first.id index
      else s
    return (true, s.pageReleased paddr)
  else return (false, s)

/-- `pm_request_page`, to a depth of `fuel` nested calls. -/
def pmRequestPage (env : PmEnv) : ℕ → RequestPage
  | 0, _ => .error .outOfFuel
  | fuel + 1, s => do
    assert (pageSize ≤ s.memInfo.free) "0 && \"unimplemented: \" \"swapping\""
    let first ← s.deref s.firstFreeBitmap
    let paddr := toPaddr first.index first.firstFree
    let s := s.setFirstFree first.id (wrap64 (first.firstFree + 1))
    let (locked, s) ← tryLockPage env (pmRequestPage env fuel) fuel s paddr
    assert locked "pm_try_lock_page(paddr)"
    return (paddr, { s with handed := paddr :: s.handed })

/-- `pm_try_lock_page`. -/
def pmTryLockPage (env : PmEnv) (fuel : ℕ) (s : PmState) (paddr : ℕ) :
    Except Fault (Bool × PmState) :=
  tryLockPage env (pmRequestPage env fuel) fuel s paddr

/-- `pm_try_release_page`. -/
def pmTryReleasePage (env : PmEnv) (fuel : ℕ) (s : PmState) (paddr : ℕ) :
    Except Fault (Bool × PmState) :=
  tryReleasePage env (pmRequestPage env fuel) s paddr

/-! ## Ranges of pages -/

/-- The loop of `pm_try_lock_pages` and `pm_try_release_pages`: one operation on every
page, the results joined. -/
def pageLoop (op : PmState → ℕ → Except Fault (Bool × PmState)) (join : Bool → Bool → Bool) :
    ℕ → PmState → ℕ → Bool → Except Fault (Bool × PmState)
  | 0, s, _, noCollisions => .ok (noCollisions, s)
  | pages + 1, s, paddr, noCollisions => do
    let (done, s) ← op s paddr
    pageLoop op join pages s (wrap64 (paddr + pageSize)) (join noCollisions done)

/-- The body of these two functions. -/
def pageRange (op : PmState → ℕ → Except Fault (Bool × PmState)) (join : Bool → Bool → Bool)
    (s : PmState) (paddr bytes : ℕ) : Except Fault (Bool × PmState) :=
  if bytes = 0 then op s paddr
  else pageLoop op join (pagesOf bytes) s paddr true

/-- `pm_try_lock_pages`. -/
def pmTryLockPages (env : PmEnv) (fuel : ℕ) (s : PmState) (paddr bytes : ℕ) :
    Except Fault (Bool × PmState) :=
  pageRange (pmTryLockPage env fuel) (· && ·) s paddr bytes

/-- `pm_try_release_pages`, which joins the results with `|=`. -/
def pmTryReleasePages (env : PmEnv) (fuel : ℕ) (s : PmState) (paddr bytes : ℕ) :
    Except Fault (Bool × PmState) :=
  pageRange (pmTryReleasePage env fuel) (· || ·) s paddr bytes

/-- `CONTAINEROF(b->link.next, struct mem_bitmap, link)`. -/
def nextBitmap (bs : List MemBitmap) (id : ℕ) : BitmapRef :=
  match (bs.dropWhile (·.id != id)).tail with
  | b :: _ => .node b.id
  | [] => .head

/-- The search of `pm_request_pages` for `num` free pages in a row: the bitmap it
ends in and `start_index`.  `goto retry` skips the condition of the loop. -/
def searchPages (s : PmState) (num : ℕ) :
    ℕ → Bool → MemBitmap → ℕ → ℕ → ℕ → Except Fault (MemBitmap × ℕ)
  | 0, _, _, _, _, _ => .error .outOfFuel
  | rounds + 1, retry, memBitmap, index, startIndex, found =>
    if retry ∨ found < num ∧ index < memBitmap.super.size then do
      let res := bitmapGet s.maps memBitmap.super index
      if isError res then
        assert (res == -einval) "res == -EINVAL"
        let next ← s.deref (nextBitmap s.memBitmaps memBitmap.id)
        if 1 < sub64 next.index memBitmap.index then
          let index := wrap64 (next.index * bitmapSize)
          searchPages s num rounds true next index index 0
        else searchPages s num rounds true next index startIndex found
      else if res = 0 then
        searchPages s num rounds false memBitmap (index + 1) startIndex (found + 1)
      else searchPages s num rounds false memBitmap (index + 1) (index + 1) 0
    else .ok (memBitmap, startIndex)

/-- `pm_request_pages`. -/
def pmRequestPages (env : PmEnv) (fuel : ℕ) (s : PmState) (num : ℕ) :
    Except Fault (ℕ × PmState) := do
  assert (bytesOf num ≤ s.memInfo.free) "0 && \"unimplemented: \" \"swapping\""
  let first ← s.deref s.firstFreeBitmap
  let (memBitmap, startIndex) ← searchPages s num fuel false first first.firstFree first.firstFree 0
  let paddr := toPaddr memBitmap.index startIndex
  let (locked, s) ← pmTryLockPages env fuel s paddr (bytesOf num)
  assert locked "pm_try_lock_pages(paddr, BYTES(num))"
  return (paddr, { s with
    handed := (List.range (max num 1)).map (fun k => wrap64 (paddr + k * pageSize)) ++ s.handed })

/-- `pm_request_bytes`. -/
def pmRequestBytes (env : PmEnv) (fuel : ℕ) (s : PmState) (bytes : ℕ) :
    Except Fault (ℕ × PmState) :=
  pmRequestPages env fuel s (pageAlignUp bytes / pageSize)

/-! ## Initialization -/

/-- The state after `init_first_bitmap`.  `K` has just been cleared, so the assertion
at the head of `pm_init` holds. -/
def initFirstBitmap : PmState :=
  let (super, maps) := bitmapFrom (fun _ _ => 0) bitmapSize .pagesBitmap0
  { memInfo := { used := 0, free := 0 }
    memBitmaps := [{ id := 0, index := 0, firstFree := 0, super := super }]
    firstFreeBitmap := .node 0
    nextBitmapPage := 0
    maps := maps
    allocCalls := 0
    history := []
    handed := [] }

/-- The loop of `compute_mem_size`. -/
def computeMemSize (env : PmEnv) (fuel : ℕ) :
    List MemSegment → PmState → Except Fault PmState
  | [], s => .ok s
  | segment :: segments, s => do
    let s := s.addFree segment.length
    let s ← (if segment.type = .reserved ∧ toBitmap segment.addr = 0 then do
        let (_, s) ← pmTryLockPages env fuel s segment.addr segment.length
        pure s
      else pure s)
    computeMemSize env fuel segments s

/-- `pm_init`. -/
def pmInit (env : PmEnv) (fuel : ℕ) (memMap : List MemSegment) : Except Fault PmState := do
  let s ← computeMemSize env fuel memMap initFirstBitmap
  let (_, s) ← pmTryLockPages env fuel s env.layoutPaddrStart
    (sub64 env.layoutPaddrEnd env.layoutPaddrStart)
  let (page, s) ← pmRequestPage env fuel s
  return { s with nextBitmapPage := page }

/-! ## Boot (`arch/x86_64/boot/paging.S`, `kernel.c`) -/

/-- `next_cleared_pt`: `rep stosl` clears a page and leaves `%edi` behind it. -/
def nextClearedPt (edi : ℕ) : ℕ := (edi + 0x1000) % 2 ^ 32

/-- The page tables of `setup_paging`, which finds the end of the boot data in `%ebx`:
four pages, each the entry of the one before it.  The first is loaded into `%cr3`. -/
def setupPaging (ebx : ℕ) : List ℕ :=
  let edi := (ebx + 0xfff) % 2 ^ 32 / 0x1000 * 0x1000
  let pml4 := nextClearedPt edi
  let pdp := nextClearedPt pml4
  let pd := nextClearedPt pdp
  let pt := nextClearedPt pd
  [pml4, pdp, pd, pt]

/-- The memory that the boot has filled, as ranges of addresses: the kernel image, the
boot data, and the page tables. -/
def bootRanges (env : PmEnv) (bootinfoDataStart bootinfoDataEnd : ℕ) : List (ℕ × ℕ) :=
  [(env.layoutPaddrStart, env.layoutPaddrEnd), (bootinfoDataStart, bootinfoDataEnd)] ++
    (setupPaging bootinfoDataEnd).map fun table => (table, table + pageSize)

/-- What `kernel_main` does with the manager before the first operation.  It is told
where the boot data are and passes nothing on. -/
def kernelMain (env : PmEnv) (fuel : ℕ) (memMap : List MemSegment)
    (_bootinfoDataStart _bootinfoDataEnd : ℕ) : Except Fault PmState :=
  pmInit env fuel memMap

/-! ## Runs -/

/-- An operation of a client. -/
inductive PmEvent where
  | tryLockPage (paddr : ℕ)
  | tryLockPages (paddr bytes : ℕ)
  | tryReleasePage (paddr : ℕ)
  | tryReleasePages (paddr bytes : ℕ)
  | requestPage
  | requestPages (num : ℕ)
  | requestBytes (bytes : ℕ)

/-- One operation. -/
def pmStep (env : PmEnv) (fuel : ℕ) (s : PmState) : PmEvent → Except Fault PmState
  | .tryLockPage paddr => Prod.snd <$> pmTryLockPage env fuel s paddr
  | .tryLockPages paddr bytes => Prod.snd <$> pmTryLockPages env fuel s paddr bytes
  | .tryReleasePage paddr => Prod.snd <$> pmTryReleasePage env fuel s paddr
  | .tryReleasePages paddr bytes => Prod.snd <$> pmTryReleasePages env fuel s paddr bytes
  | .requestPage => Prod.snd <$> pmRequestPage env fuel s
  | .requestPages num => Prod.snd <$> pmRequestPages env fuel s num
  | .requestBytes bytes => Prod.snd <$> pmRequestBytes env fuel s bytes

end Mimik.Pm
