/-
# The virtual memory manager (`arch/x86_64/mm/vm.c`)

The manager changes four-level page tables.  A table that is not mapped anywhere is
reached through the *temporary window*: `map_page_tmp` enters its frame in a free
slot of `tmp_pt`, the table whose entries are the window's own page table, and the
table can then be read and written at the slot's address until `unmap_page_tmp`.

The recursions over the levels do not look at how a table is reached.  They are
written over a `Machine`, which says what an access does:

* `kernel tmpPaddr` is the machine of the source, where `tmpPaddr` is the physical
  address of `tmp_pt`.  A pointer into the window is resolved through `tmp_pt`, so
  an access to a table that is `tmp_pt` itself changes the window;
* `flat tmpPaddr` is the same machine without a window: a pointer is the physical
  address of a table.  It refuses to go to `tmp_pt`.

`level` is counted from the leaves: `height` is `PT_LAST_LEVEL - level`, so
`ASSERT(level < PT_NUM_LEVELS)` always holds and `level == PT_LAST_LEVEL` is
`height = 0`.  The array `indices`, of which a level sees the part from `index` on,
is the list of this level's index and the indices below it.  Page counts of
intermediate results stay far below `2 ^ 64` and are not reduced.

What is a parameter: `pm_request_page` returns the frames of a given list one after
the other, and does not return when the list is used up.

`mem_set` is taken to clear exactly the table it is asked to clear.  The source's own
writes past it, into the next slot of the window: where that decides, the machine is
`source`, which is `kernel` with that `mem_set`.
-/
import Mimik.PageEntry
import Mimik.FaultState

namespace Mimik.Vm

open FaultState

/-- `ASSERT(x)`. -/
def check {σ : Type} (x : Bool) (expr : String) : Prog Fault σ Unit :=
  if x then pure () else fault (.assertion expr)

/-! ## Machines -/

/-- What the recursions do to memory, for states `σ` and pointers to tables `π`. -/
structure Machine (σ π : Type) where
  /-- `pt->entries[i]`. -/
  read : π → ℕ → Prog Fault σ Pte
  /-- `pt->entries[i] = e`. -/
  write : π → ℕ → Pte → Prog Fault σ Unit
  mapPageTmp : PAddr → Flags → Prog Fault σ π
  unmapPageTmp : π → Prog Fault σ Unit
  pmRequestPage : Prog Fault σ PAddr
  /-- `mem_set(pt, 0, PT_SIZE)`. -/
  memSet : π → Prog Fault σ Unit
  invalidatePage : ℕ → Prog Fault σ Unit

/-- The contents of memory, as far as it holds page tables: the entry of a table at
a physical address, for the indices below `PT_LENGTH`. -/
abbrev Tables := PAddr → ℕ → Pte

/-- The store to one entry. -/
def Tables.set (mem : Tables) (p : PAddr) (i : ℕ) (e : Pte) : Tables :=
  Function.update mem p (Function.update (mem p) i e)

/-- The store to all entries of one table. -/
def Tables.clear (mem : Tables) (p : PAddr) : Tables := Function.update mem p fun _ => 0#64

/-- The page of a virtual address. -/
def vpage (vaddr : ℕ) : ℕ := vaddr >>> 12

/-- The translations that the processor holds: pages with the leaf entry they had
when they were accessed. -/
abbrev Tlb := List (ℕ × Pte)

/-- `invlpg`. -/
def Tlb.invlpg (tlb : Tlb) (vaddr : ℕ) : Tlb := tlb.filter fun x => x.1 != vpage vaddr

/-! ### The machine of the kernel -/

/-- The state the manager works on. -/
structure VmState where
  /-- The tables in memory other than `tmp_pt`. -/
  mem : Tables
  tmpPt : ℕ → Pte
  firstFreeTmpIndex : ℕ
  /-- What `pm_request_page` is going to return. -/
  frames : List PAddr
  tlb : Tlb
  /-- Not part of the source: the tables the current call has walked. -/
  opened : List PAddr

/-- A `struct pt*`. -/
inductive PtPtr where
  /-- A pointer from outside, to the table at `paddr`. -/
  | table (paddr : PAddr)
  /-- An address in the temporary window. -/
  | window (vaddr : ℕ)

/-- `pt_index` of an address in the window. -/
def tmpIndex (vaddr : ℕ) : ℕ := vaddr >>> 12 % 512

/-- The address of a slot of the window. -/
def tmpVaddr (i : ℕ) : ℕ := ptTmpStartVaddr + i * pageSize

namespace Kernel

variable (tmpPaddr : PAddr)

/-- The table behind a pointer. -/
def resolve : PtPtr → Prog Fault VmState PAddr
  | .table p => return p
  | .window vaddr => fun s =>
    if present (s.tmpPt (tmpIndex vaddr)) then .ok (ptePaddr (s.tmpPt (tmpIndex vaddr)), s)
    else .error (.wild "tmp_pt")

/-- The entry of the table at a physical address. -/
def entryAt (s : VmState) (p : PAddr) (i : ℕ) : Pte :=
  if p = tmpPaddr then s.tmpPt i else s.mem p i

/-- `pt->entries[i]`. -/
def read (pt : PtPtr) (i : ℕ) : Prog Fault VmState Pte := do
  let p ← resolve pt
  fun s => .ok (entryAt tmpPaddr s p i, s)

/-- The state after `pt->entries[i] = e`. -/
def setEntry (s : VmState) (p : PAddr) (i : ℕ) (e : Pte) : VmState :=
  if p = tmpPaddr then { s with tmpPt := Function.update s.tmpPt i e }
  else { s with mem := s.mem.set p i e }

/-- `pt->entries[i] = e`. -/
def write (pt : PtPtr) (i : ℕ) (e : Pte) : Prog Fault VmState Unit := do
  let p ← resolve pt
  fun s => .ok ((), setEntry tmpPaddr s p i e)

/-- The loop of `map_page_tmp` that looks for the next free slot.  Each round
advances the index, so `n = PT_LENGTH` rounds are enough. -/
def nextFreeTmpIndex (tmpPt : ℕ → Pte) : ℕ → ℕ → ℕ
  | 0, i => i
  | n + 1, i =>
    let i := i + 1
    -- `pdp_index` and `pd_index` of the window are both 511
    let i := if i = 511 then i + 1 else i
    if i < ptLength ∧ present (tmpPt i) then nextFreeTmpIndex tmpPt n i else i

/-- The state after `map_page_tmp`.  The accesses that follow go through the slot's
translation, which the processor may keep. -/
def tmpMapped (s : VmState) (paddr : PAddr) (flags : Flags) : VmState :=
  let i := s.firstFreeTmpIndex % 512
  let tmpPt := Function.update s.tmpPt i (setPte paddr flags)
  { s with
    tmpPt
    firstFreeTmpIndex := nextFreeTmpIndex tmpPt ptLength s.firstFreeTmpIndex
    tlb := (vpage (tmpVaddr i), setPte paddr flags) :: s.tlb
    opened := ptePaddr paddr :: s.opened }

/-- `map_page_tmp`. -/
def mapPageTmp (paddr : PAddr) (flags : Flags) : Prog Fault VmState PtPtr := fun s =>
  if s.firstFreeTmpIndex < ptLength then
    .ok (.window (tmpVaddr (s.firstFreeTmpIndex % 512)), tmpMapped s paddr flags)
  else .error (.assertion "first_free_tmp_index < PT_LENGTH")

/-- The state after `unmap_page_tmp`. -/
def tmpUnmapped (s : VmState) (vaddr : ℕ) : VmState :=
  { s with
    tmpPt := Function.update s.tmpPt (tmpIndex vaddr) 0#64
    tlb := s.tlb.invlpg vaddr
    firstFreeTmpIndex :=
      if tmpIndex vaddr < s.firstFreeTmpIndex then tmpIndex vaddr else s.firstFreeTmpIndex }

/-- `unmap_page_tmp`. -/
def unmapPageTmp : PtPtr → Prog Fault VmState Unit
  | .table _ => fault (.wild "tmp_pt")
  | .window vaddr => fun s =>
    if vaddr < ptTmpStartVaddr then .error (.assertion "vaddr >= PT_TMP_START_VADDR")
    else if tmpIndex vaddr = 511 then
      .error (.assertion
        "i.pt_index != tmp_pt_i.pdp_index && i.pt_index != tmp_pt_i.pd_index")
    else .ok ((), tmpUnmapped s vaddr)

/-- `pm_request_page`. -/
def pmRequestPage : Prog Fault VmState PAddr := fun s =>
  match s.frames with
  | [] => .error (.assertion "0 && \"unimplemented: \" \"swapping\"")
  | paddr :: frames => .ok (paddr, { s with frames })

/-- `mem_set(pt, 0, PT_SIZE)`. -/
def memSet (pt : PtPtr) : Prog Fault VmState Unit := do
  let p ← resolve pt
  fun s =>
    if p = tmpPaddr then .ok ((), { s with tmpPt := fun _ => 0#64 })
    else .ok ((), { s with mem := s.mem.clear p })

/-- `invalidate_page`. -/
def invalidatePage (vaddr : ℕ) : Prog Fault VmState Unit := fun s =>
  .ok ((), { s with tlb := s.tlb.invlpg vaddr })

end Kernel

/-- The machine of the source. -/
def kernel (tmpPaddr : PAddr) : Machine VmState PtPtr where
  read := Kernel.read tmpPaddr
  write := Kernel.write tmpPaddr
  mapPageTmp := Kernel.mapPageTmp
  unmapPageTmp := Kernel.unmapPageTmp
  pmRequestPage := Kernel.pmRequestPage
  memSet := Kernel.memSet tmpPaddr
  invalidatePage := Kernel.invalidatePage

/-! ### The machine without a window -/

/-- The state of the machine without a window. -/
structure FlatState where
  mem : Tables
  frames : List PAddr
  tlb : Tlb

/-- The fault of the machine without a window when it is asked for `tmp_pt`. -/
def strayed : Fault := .wild "tmp_pt"

/-- The machine without a window. -/
def flat (tmpPaddr : PAddr) : Machine FlatState PAddr where
  read p i := fun t => .ok (t.mem p i, t)
  write p i e := fun t => .ok ((), { t with mem := t.mem.set p i e })
  mapPageTmp paddr _ := if ptePaddr paddr = tmpPaddr then fault strayed else pure (ptePaddr paddr)
  unmapPageTmp _ := pure ()
  pmRequestPage := fun t =>
    match t.frames with
    | [] => .error (.assertion "0 && \"unimplemented: \" \"swapping\"")
    | paddr :: frames => .ok (paddr, { t with frames })
  memSet p := fun t => .ok ((), { t with mem := t.mem.clear p })
  invalidatePage vaddr := fun t => .ok ((), { t with tlb := t.tlb.invlpg vaddr })

/-! ## The recursions -/

section Recursions

variable {σ π : Type} (M : Machine σ π)

/-- A call with a table of the level below: `map_page_tmp`, the call, `unmap_page_tmp`. -/
def withTable {α : Type} (paddr : PAddr) (body : π → Prog Fault σ α) : Prog Fault σ α := do
  let ptVaddr ← M.mapPageTmp paddr vmFlagWritable
  let res ← body ptVaddr
  M.unmapPageTmp ptVaddr
  return res

/-- `create_pt`. -/
def createPt (pt : π) (index : ℕ) : Prog Fault σ π := do
  let paddr ← M.pmRequestPage
  let vaddr ← M.mapPageTmp paddr vmFlagWritable
  M.memSet vaddr
  M.write pt index (setPte paddr vmFlagWritable)
  return vaddr

/-- `update_pt_pte_flags`. -/
def updatePtPteFlags (pt : π) (index : ℕ) (flags : Flags) : Prog Fault σ Unit := do
  let entry ← M.read pt index
  M.write pt index (reflag entry flags)

/-- `get_pages_per_entry`. -/
def pagesPerEntry (height : ℕ) : ℕ := 512 ^ height

/-! ### `find_space` -/

/-- The variables of the first loop of `find_space`. -/
structure Search where
  i : ℕ
  /-- `*index`. -/
  index : ℕ
  /-- `index[1]` and what follows it. -/
  below : List ℕ
  foundPages : ℕ

/-- `retry_loop`: `*index = ++i; found_pages = 0`, and the increment of the loop. -/
def Search.retry (v : Search) : Search :=
  { v with i := v.i + 2, index := v.i + 1, foundPages := 0 }

/-- `(ssize_t)n`. -/
def toSsize (n : ℕ) : ℤ := if n < 2 ^ 63 then n else (n : ℤ) - 2 ^ 64

/-- A round of the first loop of `find_space` on a leaf table.  The loop is left with
the status that `find_space` returns, or with `none` when the search goes on below
the loop. -/
def scanLeaf (pt : π) (pages : ℕ) (flags : Flags) (v : Search) :
    Prog Fault σ (Flow Search (Option Status × Search)) := do
  if v.foundPages < pages ∧ v.i < ptLength then
    let e ← M.read pt v.i
    return if !present e then .done (none, v)
      else if isFlagSet flags vmFlagStrict then .done (some (-eoverlap), v)
      else if pteFlagsMatch e flags then .done (none, v)
      else .next v.retry
  else return .done (none, v)

/-- The rest of a round above the leaf tables, when the call for the level below has
returned `res` and left `below` in the indices. -/
def Search.afterChild (v : Search) (pages : ℕ) (res : Status) (below : List ℕ) :
    Flow Search (Option Status × Search) :=
  let v := { v with below }
  if isError res then
    if res = -efull then .next v.retry
    else .done (some res, v)
  else
    let v := { v with foundPages := v.foundPages + res.toNat }
    if toSsize pages ≤ res then .done (some (v.foundPages : ℤ), v)
    else if below.headD 0 < ptLength - 1 then .next v.retry
    else .next { v with i := v.i + 1 }

/-- A round of the first loop of `find_space` above the leaf tables; `child` is
`find_space` for the level below. -/
def scanInner (child : List ℕ → π → Prog Fault σ (Status × List ℕ)) (pt : π) (pages : ℕ)
    (v : Search) : Prog Fault σ (Flow Search (Option Status × Search)) := do
  if v.foundPages < pages ∧ v.i < ptLength then
    let e ← M.read pt v.i
    if present e then
      -- the table is taken from `entries[*index]`, not from `entries[i]`
      let parent ← M.read pt v.index
      let (res, below) ← withTable M (ptePaddr parent) (child v.below)
      return v.afterChild pages res below
    else return .done (none, v)
  else return .done (none, v)

/-- A round of the second loop of `find_space`, on `i`, `found_pages` and `paddr`. -/
def countFree (pt : π) (height pages : ℕ) (flags : Flags) :
    ℕ × ℕ × PAddr → Prog Fault σ (Flow (ℕ × ℕ × PAddr) (ℕ × ℕ))
  | (i, foundPages, paddr) => do
    if foundPages < pages ∧ i < ptLength then
      let e ← M.read pt i
      return if present e && (ptePaddr e != paddr || !pteFlagsMatch e flags) then
          .done (i, foundPages)
        else .next (i + 1, foundPages + pagesPerEntry height, paddr + 4096#64)
    else return .done (i, foundPages)

/-- `find_space` from the label `next_free_entry` on, for the round `scan` of the
first loop.  Nothing bounds how often the search jumps back to the label: the
first argument is fuel. -/
def nextFreeEntry (scan : Search → Prog Fault σ (Flow Search (Option Status × Search)))
    (pt : π) (height : ℕ) (paddrStart : PAddr) (pages : ℕ) (flags : Flags) :
    ℕ → ℕ → List ℕ → Prog Fault σ (Status × List ℕ)
  | 0, _, _ => fault .outOfFuel
  | fuel + 1, i, below => do
    let start : Search := { i, index := i, below, foundPages := 0 }
    let (ret, v) ← rounds scan (fun v => return (none, v)) ptLength start
    match ret with
    | some res => return (res, v.index :: v.below)
    | none =>
      if ptLength ≤ v.i then return (-efull, v.index :: v.below)
      else
        let (i, foundPages) ← rounds (countFree M pt height pages flags)
          (fun v => return (v.1, v.2.1)) ptLength (v.i, v.foundPages, paddrStart)
        if foundPages < pages then
          if isFlagSet flags vmFlagStrict then return (-eoverlap, v.index :: v.below)
          else nextFreeEntry scan pt height paddrStart pages flags fuel i v.below
        else return ((foundPages : ℤ), v.index :: v.below)

/-- `find_space`, with the indices it leaves. -/
def findSpace (fuel : ℕ) (paddrStart : PAddr) (pages : ℕ) (flags : Flags) :
    ℕ → List ℕ → π → Prog Fault σ (Status × List ℕ)
  | 0, index, pt =>
    nextFreeEntry M (scanLeaf M pt pages flags) pt 0 paddrStart pages flags fuel
      (index.headD 0) index.tail
  | height + 1, index, pt =>
    nextFreeEntry M (scanInner M (findSpace fuel paddrStart pages flags height) pt pages)
      pt (height + 1) paddrStart pages flags fuel (index.headD 0) index.tail

/-! ### `recurse_map` -/

/-- The variables `i`, `*paddr` and `*pages`. -/
structure MapVars where
  i : ℕ
  paddr : PAddr
  pages : ℕ

/-- A round of `recurse_map` on a leaf table. -/
def mapLeaf (flags : Flags) (pt : π) (v : MapVars) :
    Prog Fault σ (Flow MapVars (Status × MapVars)) := do
  if v.i < ptLength ∧ 0 < v.pages then
    let e ← M.read pt v.i
    if present e then return .next { v with i := v.i + 1 }
    else
      M.write pt v.i (setPte v.paddr flags)
      return .next { i := v.i + 1, paddr := v.paddr + 4096#64, pages := v.pages - 1 }
  else return .done (success, v)

/-- The rest of a round above the leaf tables, when the call for the level below has
returned `res` and left `w`. -/
def MapVars.afterChild (v : MapVars) (res : Status) (w : MapVars) :
    Flow MapVars (Status × MapVars) :=
  let v := { v with paddr := w.paddr, pages := w.pages }
  if isError res then .done (res, v) else .next { v with i := v.i + 1 }

/-- A round of `recurse_map` above the leaf tables; `child` is `recurse_map` for the
level below. -/
def mapInner (child : π → PAddr → ℕ → Prog Fault σ (Status × MapVars)) (flags : Flags)
    (pt : π) (v : MapVars) : Prog Fault σ (Flow MapVars (Status × MapVars)) := do
  if v.i < ptLength ∧ 0 < v.pages then
    let e ← M.read pt v.i
    let ptVaddr ←
      (if present e then M.mapPageTmp (ptePaddr e) vmFlagWritable else createPt M pt v.i)
    updatePtPteFlags M pt v.i flags
    let (res, w) ← child ptVaddr v.paddr v.pages
    M.unmapPageTmp ptVaddr
    return v.afterChild res w
  else return .done (success, v)

/-- `recurse_map`, with what it leaves in `*paddr` and `*pages`.  The indices are the
same for every table of a level. -/
def recurseMap (flags : Flags) :
    ℕ → List ℕ → π → PAddr → ℕ → Prog Fault σ (Status × MapVars)
  | 0, index, pt, paddr, pages =>
    rounds (mapLeaf M flags pt) (fun v => return (success, v)) ptLength
      { i := index.headD 0, paddr, pages }
  | height + 1, index, pt, paddr, pages =>
    rounds (mapInner M (recurseMap flags height index.tail) flags pt)
      (fun v => return (success, v)) ptLength { i := index.headD 0, paddr, pages }

/-- The address that `vm_map_pages` puts together from the indices. -/
def hintOf (vaddrHint : ℕ) (index : List ℕ) : ℕ :=
  let i := index.getD 0 0
  -- `sign_extension` of the hint, or all ones
  let high := if i.testBit 8 then 0xffff else vaddrHint >>> 48 % 2 ^ 16
  high <<< 48 + (i % 512) <<< 39 + (index.getD 1 0 % 512) <<< 30 +
    (index.getD 2 0 % 512) <<< 21 + (index.getD 3 0 % 512) <<< 12 + vaddrHint % pageSize

/-- `vm_map_pages`, with the value it leaves in `*vaddr_hint`. -/
def vmMapPages (fuel : ℕ) (table : π) (paddrStart : PAddr) (pages vaddrHint : ℕ)
    (flags : Flags) : Prog Fault σ (Status × ℕ) := do
  check (paddrStart.toNat % pageSize = 0) "ISPAGEALIGNED(paddr_start)"
  check (vaddrHint % pageSize = 0) "ISPAGEALIGNED(*vaddr_hint)"
  check (0 < pages) "pages > 0"
  let (res, index) ← findSpace M fuel paddrStart pages flags 3 (indices vaddrHint) table
  if isError res then return (res, vaddrHint)
  else
    let (res, _) ← recurseMap M flags 3 index table paddrStart pages
    if isError res then return (res, vaddrHint)
    else return (res, hintOf vaddrHint index)

/-! ### `recurse_unmap` -/

/-- The variables `*index`, `index[1]` and what follows it, `*vaddr` and
`unmapped_pages`. -/
structure UnmapVars where
  index : ℕ
  below : List ℕ
  vaddr : ℕ
  unmappedPages : ℕ

/-- The end of a round: the loop is left before `*index` is advanced when enough
pages are unmapped. -/
def UnmapVars.advance (v : UnmapVars) (pages : ℕ) : Flow UnmapVars UnmapVars :=
  if pages ≤ v.unmappedPages then .done v else .next { v with index := v.index + 1 }

/-- A round of `recurse_unmap` on a leaf table. -/
def unmapLeaf (pt : π) (pages : ℕ) (v : UnmapVars) :
    Prog Fault σ (Flow UnmapVars UnmapVars) := do
  if v.index < ptLength ∧ v.unmappedPages < pages then
    M.write pt v.index 0#64
    M.invalidatePage v.vaddr
    let v := { v with unmappedPages := v.unmappedPages + 1, vaddr := wrap64 (v.vaddr + pageSize) }
    return v.advance pages
  else return .done v

/-- A round of `recurse_unmap` above the leaf tables; `child` is `recurse_unmap` for
the level below.  The call below gets all of `pages`, not what is left of it. -/
def unmapInner (child : List ℕ → π → ℕ → Prog Fault σ UnmapVars) (height : ℕ) (pt : π)
    (pages : ℕ) (v : UnmapVars) : Prog Fault σ (Flow UnmapVars UnmapVars) := do
  if v.index < ptLength ∧ v.unmappedPages < pages then
    let pte ← M.read pt v.index
    if present pte then
      let w ← withTable M (ptePaddr pte) fun ptVaddr => child v.below ptVaddr v.vaddr
      let v := { v with
        below := w.index :: w.below
        vaddr := w.vaddr
        unmappedPages := v.unmappedPages + w.unmappedPages }
      return v.advance pages
    else
      let v := { v with
        unmappedPages := v.unmappedPages + pagesPerEntry height
        vaddr := wrap64 (v.vaddr + pagesPerEntry height * pageSize) }
      return v.advance pages
  else return .done v

/-- `recurse_unmap`, with what it leaves in the indices and in `*vaddr`. -/
def recurseUnmap (pages : ℕ) : ℕ → List ℕ → π → ℕ → Prog Fault σ UnmapVars
  | 0, index, pt, vaddr =>
    rounds (unmapLeaf M pt pages) (fun v => return v) ptLength
      { index := index.headD 0, below := index.tail, vaddr, unmappedPages := 0 }
  | height + 1, index, pt, vaddr =>
    rounds (unmapInner M (recurseUnmap pages height) (height + 1) pt pages)
      (fun v => return v) ptLength
      { index := index.headD 0, below := index.tail, vaddr, unmappedPages := 0 }

/-- `vm_unmap_pages`. -/
def vmUnmapPages (table : π) (vaddrStart pages : ℕ) : Prog Fault σ ℕ := do
  check (vaddrStart % pageSize = 0) "ISPAGEALIGNED(vaddr_start)"
  check (0 < pages) "pages > 0"
  let v ← recurseUnmap M pages 3 (indices vaddrStart) table vaddrStart
  return v.unmappedPages

/-! ### `recurse_find` and `recurse_set_backing` -/

/-- `recurse_find`. -/
def recurseFind : ℕ → List ℕ → π → Prog Fault σ (Status × PAddr)
  | 0, index, pt => do
    let pte ← M.read pt (index.headD 0)
    if present pte then return (success, ptePaddr pte)
    else return (-enomap, 0#64)
  | height + 1, index, pt => do
    let pte ← M.read pt (index.headD 0)
    if present pte then withTable M (ptePaddr pte) (recurseFind height index.tail)
    else return (-enomap, 0#64)

/-- `vm_vaddr_to_paddr`; the address is the one stored in `*paddr` on success. -/
def vmVaddrToPaddr (table : π) (vaddr : ℕ) : Prog Fault σ (Status × PAddr) := do
  let (res, paddr) ← recurseFind M 3 (indices vaddr) table
  if res = success then return (res, paddr ||| BitVec.ofNat 64 (vaddr % pageSize))
  else return (res, paddr)

/-- `recurse_set_backing`. -/
def recurseSetBacking (paddr : PAddr) : ℕ → List ℕ → π → Prog Fault σ Status
  | 0, index, pt => do
    let pte ← M.read pt (index.headD 0)
    if present pte then
      M.write pt (index.headD 0) (setBackingPte pte paddr)
      return success
    else return -enomap
  | height + 1, index, pt => do
    let pte ← M.read pt (index.headD 0)
    if present pte then withTable M (ptePaddr pte) (recurseSetBacking paddr height index.tail)
    else return -enomap

/-- `vm_set_backing`. -/
def vmSetBacking (table : π) (vaddr : ℕ) (paddr : PAddr) : Prog Fault σ Status := do
  check (vaddr % pageSize = 0) "ISPAGEALIGNED(vaddr)"
  check (paddr.toNat % pageSize = 0) "ISPAGEALIGNED(paddr)"
  recurseSetBacking M paddr 3 (indices vaddr) table

/-! ### `recurse_flag` -/

/-- A round of `recurse_flag` on a leaf table, on `i` and `*pages`. -/
def flagLeaf (flags : Flags) (pt : π) :
    ℕ × ℕ → Prog Fault σ (FaultState.Flow (ℕ × ℕ) (Status × ℕ))
  | (i, pages) => do
    if i < ptLength ∧ 0 < pages then
      let pte ← M.read pt i
      if present pte then
        M.write pt i (setPte (ptePaddr pte) flags)
        return .next (i + 1, pages - 1)
      else return .done (-enomap, pages)
    else return .done (success, pages)

/-- A round of `recurse_flag` above the leaf tables; `child` is `recurse_flag` for the
level below. -/
def flagInner (child : π → ℕ → Prog Fault σ (Status × ℕ)) (flags : Flags) (pt : π) :
    ℕ × ℕ → Prog Fault σ (FaultState.Flow (ℕ × ℕ) (Status × ℕ))
  | (i, pages) => do
    if i < ptLength ∧ 0 < pages then
      let pte ← M.read pt i
      if present pte then
        let (res, pages) ← withTable M (ptePaddr pte) fun ptVaddr => do
          updatePtPteFlags M pt i flags
          child ptVaddr pages
        return if isError res then .done (res, pages) else .next (i + 1, pages)
      else return .done (-enomap, pages)
    else return .done (success, pages)

/-- `recurse_flag`, with what it leaves in `*pages`. -/
def recurseFlag (flags : Flags) : ℕ → List ℕ → π → ℕ → Prog Fault σ (Status × ℕ)
  | 0, index, pt, pages =>
    rounds (flagLeaf M flags pt) (fun v => return (success, v.2)) ptLength
      (index.headD 0, pages)
  | height + 1, index, pt, pages =>
    rounds (flagInner M (recurseFlag flags height index.tail) flags pt)
      (fun v => return (success, v.2)) ptLength (index.headD 0, pages)

/-- `vm_flag_pages`. -/
def vmFlagPages (table : π) (vaddrStart pages : ℕ) (flags : Flags) : Prog Fault σ Status := do
  check (vaddrStart % pageSize = 0) "ISPAGEALIGNED(vaddr_start)"
  check (0 < pages) "pages > 0"
  let (res, _) ← recurseFlag M flags 3 (indices vaddrStart) table pages
  return res

/-- The calls of the interface.  The bound on the search of `find_space` is an argument
of the model. -/
inductive VmCall where
  | mapPages (fuel : ℕ) (paddrStart : PAddr) (pages vaddrHint : ℕ) (flags : Flags)
  | unmapPages (vaddrStart pages : ℕ)
  | vaddrToPaddr (vaddr : ℕ)
  | setBacking (vaddr : ℕ) (paddr : PAddr)
  | flagPages (vaddrStart pages : ℕ) (flags : Flags)

/-- The call, with its result thrown away. -/
def VmCall.run (table : π) : VmCall → Prog Fault σ Unit
  | .mapPages fuel paddrStart pages vaddrHint flags => do
    let _ ← vmMapPages M fuel table paddrStart pages vaddrHint flags
    return ()
  | .unmapPages vaddrStart pages => do
    let _ ← vmUnmapPages M table vaddrStart pages
    return ()
  | .vaddrToPaddr vaddr => do
    let _ ← vmVaddrToPaddr M table vaddr
    return ()
  | .setBacking vaddr paddr => do
    let _ ← vmSetBacking M table vaddr paddr
    return ()
  | .flagPages vaddrStart pages flags => do
    let _ ← vmFlagPages M table vaddrStart pages flags
    return ()

end Recursions

/-- A call on the table at `root`: the record of the tables walked starts with it. -/
def call {α : Type} (root : PAddr) (x : Prog Fault VmState α) : Prog Fault VmState α := fun s =>
  x { s with opened := [root] }

end Mimik.Vm
