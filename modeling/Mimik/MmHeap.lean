/-
# The heap on the two managers (`mm/mm.c`)

`alloc_slab` takes its pages from `mm_map`, with `STRICT` and at the hint behind the last one.  A
model of the slabs alone has `mm_map` return that page, or nothing; here it is the one of the two
managers, and `mm_alloc`, `vm.c` and the clients of the allocator take turns.

A page that `STRICT` has mapped was not mapped before, and no page that was mapped has got its
leaf entry.  So each page of the heap keeps a frame of its own, and the slabs do what they do in
the model alone: no two allocations share a byte of memory (`heap_memory_of_run`).
-/
import Mimik.MmKept
import Mimik.SlabGrowth
import Mimik.VmLinks

namespace Mimik.Vm

open FaultState

/-! ## Fresh memory with `STRICT` -/

section Strict

variable {env : Pm.PmEnv} {depth : ℕ} {tmpPaddr root : PAddr} {fuel hint size r : ℕ}
  {flags : Flags} {w : MmWorld} {s' : MmState}

/-- **`mm_map_in_table` with `STRICT`**, when it returns memory: it is at the hint, which was not
mapped, and no page that was mapped has got its leaf entry. -/
theorem Owned.mapsStrict (h : Owned tmpPaddr root w) (hdepth : Pm.bitmapSize < depth)
    (hok : callTogether root (mmMapInTable (together env depth tmpPaddr) fuel (.table root) hint
      size flags) w.toMmState = .ok (r, s')) (hout : tmpPaddr ∉ s'.vm.opened)
    (hleft : 0 < s'.pm.freePages) (hstrict : isFlagSet flags vmFlagStrict = true)
    (hpage : IsPage hint) (hr : r ≠ 0) :
    r = hint ∧ w.vm.leaf tmpPaddr root hint = none ∧
      ∀ u e, w.vm.leaf tmpPaddr root u = some e →
        s'.vm.leafSlot tmpPaddr root u ≠ s'.vm.leafSlot tmpPaddr root hint := by
  have hlends : Lends env depth (callTogether root (mmMapInTable (together env depth tmpPaddr)
      fuel (.table root) hint size flags)) (call root (mmMapInTable (kernel tmpPaddr)
        fuel (.table root) hint size flags)) := (carries_lends.mmMapInTable ..).call
  obtain ⟨drawn, hdraws, hy⟩ := hlends.back w.toMmState r s' hok
  obtain ⟨hordered, -⟩ := h.next hdepth hdraws hleft
  have hcall := hy []
  rw [List.append_nil] at hcall
  obtain ⟨hroot, t, hflat, hleaves⟩ := call_flat (s := { w.vm with frames := drawn })
    (y := fun p => mmMapInTable (flat tmpPaddr) fuel p hint size flags)
    (fun _ _ hlevel _ _ hpt => sim_mmMapInTable hlevel hpt ..)
    (fun q _ => keeps_mmMapInTable (keeps_kernel tmpPaddr q) ..) h.window hcall hout
  have htmpPt : s'.vm.tmpPt = w.vm.tmpPt := hleaves.tmpPt_eq
  have hmem : s'.vm.mem = t.mem := hleaves.mem_eq
  obtain ⟨res, v, t₁, hmap, ⟨-, rfl, -⟩ | ⟨hres, rfl, hback⟩⟩ := mapFresh_ok hflat
  · exact absurd rfl hr
  have hat : r = hint ∧
      pageTables.leaf (view tmpPaddr w.vm.tmpPt w.vm.mem) root (indices hint) = none :=
    (vmMapPages_strict hstrict hroot hpage _).run _ rfl _ _ hmap hres
  obtain ⟨rfl, hnone⟩ := hat
  have hgrown := (vmMapPages_grown hroot fuel (reservedPaddr (pagesOf size)) (pagesOf size) r
    flags _ hordered).run _ rfl _ _ hmap
  have hlinked : Linked tmpPaddr w.vm.tmpPt root w.vm.mem t₁.mem :=
    (mapStores_linked.vmMapPages hroot fuel (reservedPaddr (pagesOf size)) (pagesOf size) r
      flags _ hordered).run _ rfl _ _ hmap
  obtain ⟨slot, -, hstores, -⟩ := backPages_some hroot hgrown.ordered hback
  have hslot : ∀ u, s'.vm.leafSlot tmpPaddr root u =
      pageTables.leafSlot (view tmpPaddr w.vm.tmpPt t₁.mem) root (indices u) := by
    intro u
    rw [VmState.leafSlot, VmState.tables, htmpPt, hmem]
    exact hstores.leafSlot hgrown.ordered (isPath_indices u)
  refine ⟨rfl, hnone, fun u e he => ?_⟩
  rw [hslot u, hslot r]
  exact hlinked.leafSlot_ne (isPath_indices u) (isPath_indices r) he hnone

end Strict

/-! ## Calls that leave a page its frame -/

section Calls

variable {tmpPaddr root : PAddr} {s s' : VmState} {c : VmCall} {u : ℕ} {e : Pte}

/-- The call takes the frame out of a leaf entry. -/
def Unbacks (tmpPaddr root : PAddr) (s : VmState) (slot : PAddr × ℕ) : VmCall → Prop
  | .unmapPages vaddr pages => ∃ q a d k, Lands (s.tables tmpPaddr) pages (indices vaddr) root
      (q, a) d ∧ k < min pages (512 - a) ∧ slot = (q, a + k)
  | .setBacking vaddr _ => s.leafSlot tmpPaddr root vaddr = some slot
  | _ => False

/-- Stores elsewhere leave a leaf entry. -/
theorem LeafCall.leaf_eq {places : PAddr × ℕ → Prop} (h : LeafCall tmpPaddr root s s' places)
    (hordered : Ordered tmpPaddr s.tmpPt root s.mem s.frames)
    (hother : ∀ slot, places slot → s.leafSlot tmpPaddr root u ≠ some slot) :
    s'.leaf tmpPaddr root u = s.leaf tmpPaddr root u := by
  rw [VmState.leaf, VmState.tables, h.tmpPt_eq]
  exact h.stores.leaf_eq hordered (isPath_indices u) fun slot hslot hplace =>
    hother slot hplace hslot

/-- **A page that is mapped keeps its frame**, whatever is called that does not take it out of the
leaf entry. -/
theorem frame_of_call (hwin : WindowOk s.tmpPt s.firstFreeTmpIndex)
    (hordered : Ordered tmpPaddr s.tmpPt root s.mem s.frames) (hrange : c.InRange)
    (hok : call root (c.run (kernel tmpPaddr) (.table root)) s = .ok ((), s'))
    (hout : StaysOut tmpPaddr root s c) (he : s.leaf tmpPaddr root u = some e)
    (hspares : ∀ slot, Unbacks tmpPaddr root s slot c → s.leafSlot tmpPaddr root u ≠ some slot) :
    ∃ e', s'.leaf tmpPaddr root u = some e' ∧ ptePaddr e' = ptePaddr e := by
  cases c with
  | mapPages fuel paddrStart pages vaddrHint flags =>
    obtain ⟨r, hr⟩ := call_map_ok hok
    exact ⟨e, map_keeps_leaf hwin hordered hr (hout s' hok) he, rfl⟩
  | unmapPages vaddrStart pages =>
    obtain ⟨r, hr⟩ := call_map_ok hok
    refine ⟨e, ?_, rfl⟩
    rcases unmapPages_of_call hwin hr hrange (hout s' hok) with hcall | ⟨q, a, d, hlands, hcall, -⟩
    · rw [hcall.leaf_eq hordered fun _ => False.elim]
      exact he
    · rw [hcall.leaf_eq hordered]
      · exact he
      · rintro _ ⟨k, hk, rfl⟩
        exact hspares _ ⟨q, a, d, k, hlands, hk, rfl⟩
  | vaddrToPaddr vaddr =>
    obtain ⟨r, hr⟩ := call_map_ok hok
    refine ⟨e, ?_, rfl⟩
    rw [(vaddrToPaddr_of_call hwin hr (hout s' hok)).leaf_eq hordered fun _ => False.elim]
    exact he
  | setBacking vaddr paddr =>
    obtain ⟨r, hr⟩ := call_map_ok hok
    refine ⟨e, ?_, rfl⟩
    rcases setBacking_of_call hwin hr (hout s' hok) with hcall | ⟨slot, hslot, -, -, hcall⟩
    · rw [hcall.leaf_eq hordered fun _ => False.elim]
      exact he
    · rw [hcall.leaf_eq hordered]
      · exact he
      · rintro _ rfl
        exact hspares _ hslot
  | flagPages vaddrStart pages flags =>
    obtain ⟨r, hr⟩ := call_map_ok hok
    obtain ⟨hroot, havoid⟩ := hout
    have heff := flag_of_call hwin hroot (hordered.flagPre hroot havoid) hr
    by_cases hhit : ∃ path ∈ reached (s.tables tmpPaddr) root
        ((Radix.box 512 (indices vaddrStart)).take pages),
        mapped (s.tables tmpPaddr) root path = true ∧
          pageTables.leafSlot (s.tables tmpPaddr) root path = s.leafSlot tmpPaddr root u
    · -- the permissions change, and the frame stays
      obtain ⟨path, hpath, -, hslot⟩ := hhit
      refine ⟨_, leaf_flagged heff.flagged hpath hslot he, ?_⟩
      rw [ptePaddr_setPte, ptePaddr_ptePaddr]
    · refine ⟨e, ?_, rfl⟩
      rw [VmState.leaf, leaf_not_flagged heff.flagged
        (fun _ hslot => hordered.inner_not_leaf hroot (fun _ => path_of_mem_reached) havoid hslot)
        fun path hpath hmapped hslot => hhit ⟨path, hpath, hmapped, hslot⟩]
      exact he

end Calls

/-! ## The heap -/

/-- The managers with their clients, the slabs, and the allocations that clients of the heap
hold. -/
structure HeapWorld extends MmWorld, SlabHeap.HeapRun

/-- The heap as a model of its own finds it: each call of `mm_map` that returns has found a page at
the hint. -/
def mappedEnv (freelistHead : ℕ → ℕ) : SlabHeap.HeapEnv where
  freelistHead
  avail _ := true
  taken page := decide (page = SlabHeap.layoutVaddrStart)
  image_taken := decide_eq_true rfl

/-- `VM_FLAG_WRITABLE | VM_FLAG_STRICT`. -/
def slabFlags : Flags := vmFlagWritable ||| vmFlagStrict

section Functions

variable (env : Pm.PmEnv) (depth : ℕ) (tmpPaddr : PAddr) (layoutVaddrEnd : ℕ) (kpml4 : PAddr)
  (freelistHead : ℕ → ℕ)

/-- `alloc_slab`. -/
def allocSlab (fuel : ℕ) (w : HeapWorld) (type : ℕ) : Except Fault HeapWorld := do
  assert (type < SlabHeap.slabMax) "s->type < SLAB_MAX"
  let s := w.heap.slabs type
  let (p, mm) ← callTogether kpml4 (mmMap (together env depth tmpPaddr) fuel layoutVaddrEnd
    (.table kpml4) (pageAlignUp s.endAddr) SlabHeap.slabGrowSize slabFlags) w.toMmState
  assert (p != 0) "p != 0"
  let heap := { w.heap with mapCalls := w.heap.mapCalls + 1, mapped := (type, p) :: w.heap.mapped }
  return { w with
    pm := mm.pm
    vm := mm.vm
    heap := heap.setSlab type (SlabHeap.growSlab type p s) }

/-- `mm_alloc`. -/
def mmAlloc (fuel : ℕ) (w : HeapWorld) (sz : ℕ) : Except Fault (ℕ × HeapWorld) := do
  assert (sz < SlabHeap.slabSize (SlabHeap.slabMax - 1)) "sz < slab_size(SLAB_MAX - 1)"
  let type ← SlabHeap.getSlabFromSize sz
  let w ← (if (w.heap.slabs type).freelist = some [] then
      allocSlab env depth tmpPaddr layoutVaddrEnd kpml4 fuel w type
    else pure w)
  let (p, heap) ← SlabHeap.popChunk (mappedEnv freelistHead) w.heap type
  return (p, { w with heap })

/-- What happens to the heap and to the managers below it. -/
inductive HeapWorldEvent where
  /-- `mm_alloc`; the search of `mm_map` is bounded. -/
  | alloc (fuel sz : ℕ)
  /-- `mm_free`. -/
  | free (p : ℕ)
  /-- An operation of another client of the allocator. -/
  | pm (e : Pm.PmEvent)
  | vm (c : VmCall)

/-- The state after an event. -/
def heapStep (w : HeapWorld) : HeapWorldEvent → Except Fault HeapWorld
  | .alloc fuel sz => do
    let (p, w) ← mmAlloc env depth tmpPaddr layoutVaddrEnd kpml4 freelistHead fuel w sz
    return { w with live := (p, sz) :: w.live }
  | .free p => do
    let heap ← SlabHeap.mmFree w.heap p
    return { w with heap, live := w.live.filter (·.1 ≠ p) }
  | .pm e => do
    let mm ← mmStep env depth tmpPaddr layoutVaddrEnd kpml4 w.toMmWorld (.pm e)
    return { w with toMmWorld := mm }
  | .vm c => do
    let mm ← mmStep env depth tmpPaddr layoutVaddrEnd kpml4 w.toMmWorld (.vm c)
    return { w with toMmWorld := mm }

/-- The events of the runs considered: requests are for a byte at least, clients of the allocator
do as before, and no call of `vm.c` takes its frame out of the leaf entry of a page of the
heap. -/
def HeapGuard (w : HeapWorld) : HeapWorldEvent → Prop
  | .alloc fuel sz => 0 < sz ∧ ∀ type, SlabHeap.getSlabFromSize sz = .ok type →
      (w.heap.slabs type).freelist = some [] →
      MmGuard env depth tmpPaddr layoutVaddrEnd kpml4 w.toMmWorld
        (.mmMap fuel (pageAlignUp (w.heap.slabs type).endAddr) SlabHeap.slabGrowSize slabFlags)
  | .free p => ∃ a ∈ w.live, a.1 = p
  | .pm e => MmGuard env depth tmpPaddr layoutVaddrEnd kpml4 w.toMmWorld (.pm e)
  | .vm c => MmGuard env depth tmpPaddr layoutVaddrEnd kpml4 w.toMmWorld (.vm c) ∧
      ∀ x ∈ w.heap.mapped, ∀ slot, Unbacks tmpPaddr kpml4 w.vm slot c →
        w.vm.leafSlot tmpPaddr kpml4 x.2 ≠ some slot

end Functions

/-! ### What is kept -/

section Kept

variable {env : Pm.PmEnv} {depth : ℕ} {tmpPaddr : PAddr} {layoutVaddrEnd : ℕ} {kpml4 : PAddr}
  {freelistHead : ℕ → ℕ} {w w' : HeapWorld} {frame : ℕ → PAddr}

/-- The managers, with more pages that are held. -/
def MmWorld.withHeld (w : MmWorld) (pages : Finset ℕ) : MmWorld := ⟨w.toMmState, w.held ∪ pages⟩

/-- The pages of memory of the heap. -/
def heapPages (frame : ℕ → PAddr) (w : HeapWorld) : Finset ℕ :=
  (w.heap.mapped.map fun x => framePage (frame x.2)).toFinset

/-- Each page of the heap leads to a page of memory of its own, which no other client holds; and the
managers are in order, also when these pages are taken for pages that are held. -/
structure HeapBacked (tmpPaddr kpml4 : PAddr) (frame : ℕ → PAddr) (w : HeapWorld) : Prop where
  owned : Owned tmpPaddr kpml4 (w.toMmWorld.withHeld (heapPages frame w))
  leaf : ∀ x ∈ w.heap.mapped, ∃ e, w.vm.leaf tmpPaddr kpml4 x.2 = some e ∧
    ptePaddr e = frame x.2
  page : ∀ x ∈ w.heap.mapped, framePage (frame x.2) < Pm.bitmapSize ∧
    framePage (frame x.2) ∉ w.held
  apart : ∀ x ∈ w.heap.mapped, ∀ y ∈ w.heap.mapped,
    framePage (frame x.2) = framePage (frame y.2) → x.2 = y.2

/-- **What is kept from event to event**: the pages of the heap are backed, and the slabs are as in
a run of their own. -/
structure HeapKept (tmpPaddr kpml4 : PAddr) (freelistHead : ℕ → ℕ) (frame : ℕ → PAddr)
    (w : HeapWorld) : Prop where
  backed : HeapBacked tmpPaddr kpml4 frame w
  slabs : ∃ es, GuardedRun.Run (SlabHeap.HeapRun.step (mappedEnv freelistHead)) SlabHeap.clientOk
    .init es w.toHeapRun

/-- No page of the heap is lost, and none has got another frame. -/
def KeepsFrames (frame : ℕ → PAddr) (w : HeapWorld) (frame' : ℕ → PAddr) (w' : HeapWorld) : Prop :=
  ∀ x ∈ w.heap.mapped, x ∈ w'.heap.mapped ∧ frame' x.2 = frame x.2

theorem mem_heapPages {i : ℕ} :
    i ∈ heapPages frame w ↔ ∃ x ∈ w.heap.mapped, framePage (frame x.2) = i := by
  rw [heapPages, List.mem_toFinset, List.mem_map]

/-- One page more. -/
theorem heapPages_cons {type p : ℕ} {f : PAddr}
    (hmapped : w'.heap.mapped = (type, p) :: w.heap.mapped)
    (hnew : ∀ x ∈ w.heap.mapped, x.2 ≠ p) :
    heapPages (Function.update frame p f) w' = heapPages frame w ∪ {framePage f} := by
  ext i
  rw [mem_heapPages, Finset.mem_union, mem_heapPages, Finset.mem_singleton, hmapped]
  constructor
  · rintro ⟨x, hx, rfl⟩
    rcases List.mem_cons.mp hx with rfl | hx
    · exact .inr (congrArg framePage (Function.update_self ..))
    · exact .inl ⟨x, hx, congrArg framePage (Function.update_of_ne (hnew x hx) ..).symm⟩
  · rintro (⟨x, hx, rfl⟩ | rfl)
    · exact ⟨x, List.mem_cons_of_mem _ hx,
        congrArg framePage (Function.update_of_ne (hnew x hx) ..)⟩
    · exact ⟨(type, p), List.mem_cons_self, congrArg framePage (Function.update_self ..)⟩

/-- A heap on its own finds a page below the kernel's image that it does not have. -/
theorem mmMap_mapped {heap : SlabHeap.Heap} {type p : ℕ} (himage : p < SlabHeap.layoutVaddrStart)
    (hnew : ∀ x ∈ heap.mapped, x.2 ≠ p) :
    SlabHeap.mmMap (mappedEnv freelistHead) heap type p =
      (p, { heap with mapCalls := heap.mapCalls + 1, mapped := (type, p) :: heap.mapped }) := by
  have hany : heap.mapped.any (·.2 == p) = false :=
    List.any_eq_false.mpr fun x hx => by simpa using hnew x hx
  have htaken : decide (p = SlabHeap.layoutVaddrStart) = false := decide_eq_false himage.ne
  simp [SlabHeap.mmMap, mappedEnv, htaken, hany]

/-- The pages of the heap are locked. -/
theorem HeapBacked.locked (h : HeapBacked tmpPaddr kpml4 frame w) {x : ℕ × ℕ}
    (hx : x ∈ w.heap.mapped) : w.pm.pageBit (framePage (frame x.2)) = true :=
  h.owned.held _ (Finset.mem_union_right _ (mem_heapPages.mpr ⟨x, hx, rfl⟩))

/-! ### An operation of another client -/

/-- An operation of another client. -/
theorem HeapBacked.client (hdepth : Pm.bitmapSize < depth)
    (h : HeapBacked tmpPaddr kpml4 frame w) {e : Pm.PmEvent}
    (hguard : MmGuard env depth tmpPaddr layoutVaddrEnd kpml4 w.toMmWorld (.pm e))
    (hok : heapStep env depth tmpPaddr layoutVaddrEnd kpml4 freelistHead w (.pm e) = .ok w') :
    HeapBacked tmpPaddr kpml4 frame w' ∧ w'.toHeapRun = w.toHeapRun := by
  obtain ⟨mm, hmm, hret⟩ := Except.bind_eq_ok_iff.mp hok
  obtain rfl : { w with toMmWorld := mm } = w' := Except.ok.inj hret
  -- the pages of the heap are locked, and nobody releases them
  have hcount : Pm.InCount w.pm := h.owned.count
  have hstays : ∀ i ∈ heapPages frame w, mm.pm.pageBit i = true ∧ i ∉ mm.held := by
    intro i hi
    obtain ⟨x, hx, rfl⟩ := mem_heapPages.mp hi
    exact stays_of_client hdepth hcount hguard.clients hmm (h.locked hx) (h.page x hx).2
  have hclients : ClientsOwn (w.toMmWorld.withHeld (heapPages frame w)) (.pm e) :=
    ⟨hguard.clients.1, fun a ha hset => Finset.mem_union_left _ (hguard.clients.2 a ha hset)⟩
  obtain ⟨pm, hpm, hmm⟩ : ∃ pm, Pm.pmStep env depth w.pm e = .ok pm ∧
      { w.toMmWorld with pm, held := heldAfter w.held w.pm pm } = mm := by
    rw [mmStep] at hmm
    cases hpm : Pm.pmStep env depth w.pm e with
    | error f =>
      rw [hpm] at hmm
      cases hmm
    | ok pm =>
      rw [hpm] at hmm
      exact ⟨pm, rfl, Except.ok.inj hmm⟩
  subst hmm
  have hstep : mmStep env depth tmpPaddr layoutVaddrEnd kpml4
      (w.toMmWorld.withHeld (heapPages frame w)) (.pm e) =
        .ok ⟨⟨pm, w.vm⟩, heldAfter (w.held ∪ heapPages frame w) w.pm pm⟩ := by
    rw [mmStep]
    show (Pm.pmStep env depth w.pm e).map _ = _
    rw [hpm]
    rfl
  have howned := h.owned.client hdepth hclients hstep
  have hheld : heldAfter (w.held ∪ heapPages frame w) w.pm pm =
      heldAfter w.held w.pm pm ∪ heapPages frame w := by
    ext i
    simp only [heldAfter, Finset.mem_union, Finset.mem_filter, Finset.mem_range]
    constructor
    · rintro ⟨hlt, hset, (hi | hi) | hclear⟩
      · exact .inl ⟨hlt, hset, .inl hi⟩
      · exact .inr hi
      · exact .inl ⟨hlt, hset, .inr hclear⟩
    · rintro (⟨hlt, hset, hi | hclear⟩ | hi)
      · exact ⟨hlt, hset, .inl (.inl hi)⟩
      · exact ⟨hlt, hset, .inr hclear⟩
      · obtain ⟨x, hx, rfl⟩ := mem_heapPages.mp hi
        exact ⟨(h.page x hx).1, (hstays _ hi).1, .inl (.inr hi)⟩
  rw [hheld] at howned
  exact ⟨⟨howned, h.leaf, fun x hx => ⟨(h.page x hx).1,
    (hstays _ (mem_heapPages.mpr ⟨x, hx, rfl⟩)).2⟩, h.apart⟩, rfl⟩

/-! ### A call of `vm.c` -/

/-- Calls of `vm.c` and of `mm_map` do not look at what is held. -/
theorem mmStep_withHeld (w : MmWorld) (pages : Finset ℕ) {e : MmEvent} (he : ∀ p, e ≠ .pm p) :
    mmStep env depth tmpPaddr layoutVaddrEnd kpml4 (w.withHeld pages) e =
      (mmStep env depth tmpPaddr layoutVaddrEnd kpml4 w e).map (·.withHeld pages) := by
  cases e with
  | pm p => exact absurd rfl (he p)
  | vm c =>
    simp only [mmStep, MmWorld.withHeld]
    cases callTogether kpml4 (c.run (together env depth tmpPaddr) (.table kpml4))
      w.toMmState <;> rfl
  | mmMap fuel hint size flags =>
    simp only [mmStep, MmWorld.withHeld]
    cases callTogether kpml4 (mmMap (together env depth tmpPaddr) fuel layoutVaddrEnd
      (.table kpml4) hint size flags) w.toMmState <;> rfl

/-- They may be made as before. -/
theorem MmGuard.withHeld {w : MmWorld} {e : MmEvent}
    (h : MmGuard env depth tmpPaddr layoutVaddrEnd kpml4 w e) (pages : Finset ℕ)
    (he : ∀ p, e ≠ .pm p) :
    MmGuard env depth tmpPaddr layoutVaddrEnd kpml4 (w.withHeld pages) e := by
  have hback : ∀ {v}, mmStep env depth tmpPaddr layoutVaddrEnd kpml4 (w.withHeld pages) e = .ok v →
      ∃ w', mmStep env depth tmpPaddr layoutVaddrEnd kpml4 w e = .ok w' ∧
        w'.withHeld pages = v := by
    intro v hv
    rw [mmStep_withHeld w pages he] at hv
    cases hw' : mmStep env depth tmpPaddr layoutVaddrEnd kpml4 w e with
    | error f =>
      rw [hw'] at hv
      cases hv
    | ok w' =>
      rw [hw'] at hv
      exact ⟨w', rfl, Except.ok.inj hv⟩
  have hclients := h.clients
  have hout := h.staysOut
  refine ⟨?_, ?_, fun v hv => ?_⟩
  · cases e with
    | pm p => exact absurd rfl (he p)
    | vm c => exact hclients
    | mmMap => trivial
  · have hrest : (∀ w', mmStep env depth tmpPaddr layoutVaddrEnd kpml4 w e = .ok w' →
        tmpPaddr ∉ w'.vm.opened) →
        ∀ v, mmStep env depth tmpPaddr layoutVaddrEnd kpml4 (w.withHeld pages) e = .ok v →
          tmpPaddr ∉ v.vm.opened := by
      intro hout v hv
      obtain ⟨w', hw', rfl⟩ := hback hv
      exact hout w' hw'
    cases e with
    | pm p => exact absurd rfl (he p)
    | vm c =>
      cases c with
      | flagPages => exact hout
      | _ => exact hrest hout
    | mmMap => exact hrest hout
  · obtain ⟨w', hw', rfl⟩ := hback hv
    exact h.leaves w' hw'

/-- A call of `vm.c`. -/
theorem HeapBacked.vm (hdepth : Pm.bitmapSize < depth)
    (h : HeapBacked tmpPaddr kpml4 frame w) {c : VmCall}
    (hguard : HeapGuard env depth tmpPaddr layoutVaddrEnd kpml4 w (.vm c))
    (hok : heapStep env depth tmpPaddr layoutVaddrEnd kpml4 freelistHead w (.vm c) = .ok w') :
    HeapBacked tmpPaddr kpml4 frame w' ∧ w'.toHeapRun = w.toHeapRun := by
  obtain ⟨hguard, hspares⟩ := hguard
  obtain ⟨mm, hmm, hret⟩ := Except.bind_eq_ok_iff.mp hok
  obtain rfl : { w with toMmWorld := mm } = w' := Except.ok.inj hret
  have hnot : ∀ p, MmEvent.vm c ≠ .pm p := fun p h => by cases h
  have hstep : mmStep env depth tmpPaddr layoutVaddrEnd kpml4
      (w.toMmWorld.withHeld (heapPages frame w)) (.vm c) =
        .ok (mm.withHeld (heapPages frame w)) := by
    rw [mmStep_withHeld _ _ hnot, hmm]
    rfl
  have howned := h.owned.step hdepth (hguard.withHeld _ hnot) hstep
  -- the call on the machine of `vm.c`, with the frames that it draws
  obtain ⟨hrun, hheld⟩ : callTogether kpml4 (c.run (together env depth tmpPaddr) (.table kpml4))
      w.toMmState = .ok ((), mm.toMmState) ∧ mm.held = w.held := by
    have hmm' := hmm
    rw [mmStep] at hmm'
    cases hrun : callTogether kpml4 (c.run (together env depth tmpPaddr) (.table kpml4))
        w.toMmState with
    | error f =>
      rw [hrun] at hmm'
      cases hmm'
    | ok r =>
      rw [hrun] at hmm'
      cases hmm'
      exact ⟨rfl, rfl⟩
  obtain ⟨drawn, hdraws, hy⟩ :=
    (carries_lends.run (.table kpml4) c).call.back w.toMmState () mm.toMmState hrun
  have hordered : Ordered tmpPaddr w.vm.tmpPt kpml4 w.vm.mem drawn :=
    (h.owned.next hdepth hdraws (hguard.leaves _ hmm)).1
  have hcall := hy []
  rw [List.append_nil] at hcall
  have hout : StaysOut tmpPaddr kpml4 { w.vm with frames := drawn } c := by
    have hout := hguard.staysOut
    cases c with
    | flagPages vaddr pages flags => exact hout
    | _ =>
      intro t ht
      rw [hcall] at ht
      cases ht
      exact hout _ hmm
  refine ⟨⟨howned, fun x hx => ?_, fun x hx => ?_, h.apart⟩, rfl⟩
  swap
  · rw [hheld]
    exact h.page x hx
  obtain ⟨e, he, hframe⟩ := h.leaf x hx
  have hwin : WindowOk w.vm.tmpPt w.vm.firstFreeTmpIndex := h.owned.window
  obtain ⟨e', he', hsame⟩ := frame_of_call (s := { w.vm with frames := drawn }) hwin
    hordered hguard.clients hcall hout he fun slot hslot => hspares x hx slot (by
      cases c <;> exact hslot)
  exact ⟨e', he', hsame.trans hframe⟩

/-! ### `mm_alloc` -/

/-- A page that is locked, and that is the page of no table, may be held. -/
theorem Owned.hold {w : MmWorld} (h : Owned tmpPaddr kpml4 w) {i : ℕ}
    (hset : w.pm.pageBit i = true)
    (htable : ∀ p, IsTable tmpPaddr kpml4 w.vm p → framePage p ≠ i) :
    Owned tmpPaddr kpml4 (w.withHeld {i}) := by
  refine ⟨h.count, h.window, h.ordered, fun p hp => ?_, fun j hj => ?_⟩
  · obtain ⟨hlt, hlocked, hfree⟩ := h.tables p hp
    refine ⟨hlt, hlocked, fun hmem => ?_⟩
    rcases Finset.mem_union.mp hmem with hmem | hmem
    · exact hfree hmem
    · exact htable p hp (Finset.mem_singleton.mp hmem)
  · rcases Finset.mem_union.mp hj with hj | hj
    · exact h.held j hj
    · rw [Finset.mem_singleton.mp hj]
      exact hset

/-- A page that `mm_map` has backed is the page of no table. -/
theorem MapsOwn.ne_table {w : MmWorld} {mm : MmState} {r pages : ℕ} {frame : ℕ → PAddr}
    (h : MapsOwn tmpPaddr kpml4 w.toMmState mm r pages frame) (hw : Owned tmpPaddr kpml4 w)
    {k : ℕ} (hk : k < pages) {p : PAddr} (hp : IsTable tmpPaddr kpml4 mm.vm p) :
    framePage p ≠ framePage (frame k) := by
  -- tables that were there before are locked, and the page was free
  have hold : IsTable tmpPaddr kpml4 w.vm p → framePage p ≠ framePage (frame k) := by
    intro hp heq
    have hset := (hw.tables p hp).2.1
    rw [heq, h.free k hk] at hset
    cases hset
  have hframe : ptePaddr (frame k) = frame k := by
    obtain ⟨e, -, he⟩ := h.leaf k hk
    rw [← he, ptePaddr_ptePaddr]
  intro heq
  rcases hp with rfl | ⟨n, hn, hat⟩
  · exact hold (.inl rfl) heq
  · have htable : IsTable tmpPaddr kpml4 mm.vm p := .inr ⟨n, hn, hat⟩
    cases hat with
    | root => exact hold (.inr ⟨0, by omega, .root⟩) heq
    | step _ _ _ =>
      have hsame := framePage_inj (ptePaddr_ptePaddr _) hframe heq
      exact h.noTable k hk (hsame ▸ htable)

/-- The number of the pages of a slab: each has its own page of memory. -/
theorem HeapBacked.pages_le (h : HeapBacked tmpPaddr kpml4 frame w) {type pages chunks : ℕ}
    (hslab : SlabHeap.SlabOk w.heap type pages chunks) : pages ≤ Pm.bitmapSize := by
  have hmem : ∀ j < pages, (type, SlabHeap.pageAt type j) ∈ w.heap.mapped := fun j hj =>
    (hslab.mapped_iff _).mpr ⟨j, hj, rfl⟩
  have hcard := Finset.card_le_card_of_injOn (s := Finset.range pages)
    (t := Finset.range Pm.bitmapSize) (fun j => framePage (frame (SlabHeap.pageAt type j)))
    (fun j hj => Finset.mem_coe.mpr (Finset.mem_range.mpr
      (h.page _ (hmem j (Finset.mem_range.mp (Finset.mem_coe.mp hj)))).1))
    (fun j hj k hk heq => by
      have hsame := h.apart _ (hmem j (Finset.mem_range.mp (Finset.mem_coe.mp hj))) _
        (hmem k (Finset.mem_range.mp (Finset.mem_coe.mp hk))) heq
      simp only [SlabHeap.pageAt, pageSize] at hsame
      omega)
  rwa [Finset.card_range, Finset.card_range] at hcard

/-- The next page of a slab is a page of the kernel's half, below its image. -/
theorem pageAt_lt {type pages : ℕ} (ht : type < SlabHeap.usedClasses)
    (hpages : pages ≤ Pm.bitmapSize) : IsPage (SlabHeap.pageAt type pages) ∧
      SlabHeap.pageAt type pages < SlabHeap.layoutVaddrStart := by
  have hmod := SlabHeap.pageAt_mod (lt_trans ht (by decide)) pages
  have hbase := SlabHeap.slabBase_eq ht
  rw [Pm.bitmapSize_eq] at hpages
  unfold SlabHeap.usedClasses at ht
  have hlt : SlabHeap.pageAt type pages < SlabHeap.layoutVaddrStart ∧
      2 ^ 64 - 2 ^ 47 ≤ SlabHeap.pageAt type pages := by
    unfold SlabHeap.pageAt SlabHeap.layoutVaddrStart
    rw [hbase]
    unfold pageSize SlabHeap.layoutHeapStart
    omega
  have htop : SlabHeap.pageAt type pages < 2 ^ 64 := lt_trans hlt.1 (by decide)
  exact ⟨⟨htop, (canonical_iff htop).mpr (.inr hlt.2), hmod⟩, hlt.1⟩

/-- **Growing a slab** gives the heap a page of memory of its own, and is for the slabs what it is
in a model without memory. -/
theorem HeapBacked.allocSlab (hdepth : Pm.bitmapSize < depth)
    (h : HeapBacked tmpPaddr kpml4 frame w) {fuel type pages chunks : ℕ}
    (ht : type < SlabHeap.usedClasses) (hslab : SlabHeap.SlabOk w.heap type pages chunks)
    (hguard : MmGuard env depth tmpPaddr layoutVaddrEnd kpml4 w.toMmWorld (.mmMap fuel
      (pageAlignUp (w.heap.slabs type).endAddr) SlabHeap.slabGrowSize slabFlags))
    (hok : Vm.allocSlab env depth tmpPaddr layoutVaddrEnd kpml4 fuel w type = .ok w') :
    (∃ frame', HeapBacked tmpPaddr kpml4 frame' w' ∧ KeepsFrames frame w frame' w') ∧
      SlabHeap.allocSlab (mappedEnv freelistHead) w.heap type = .ok w'.heap ∧
      w'.live = w.live := by
  obtain ⟨hpage, himage⟩ := pageAt_lt ht (h.pages_le hslab)
  have hend := hslab.pageAlignUp_end ht
  rw [hend] at hguard
  obtain ⟨_, hmax, hok⟩ := Except.bind_eq_ok_iff.mp hok
  obtain ⟨⟨p, mm⟩, hmap, hok⟩ := Except.bind_eq_ok_iff.mp hok
  obtain ⟨_, hassert, hok⟩ := Except.bind_eq_ok_iff.mp hok
  have hp : p ≠ 0 := by simpa using assert_eq_ok.mp hassert
  rw [hend] at hmap
  have hnot : ∀ q, MmEvent.mmMap fuel (SlabHeap.pageAt type pages) SlabHeap.slabGrowSize
    slabFlags ≠ .pm q := fun q h => by cases h
  have hstep : mmStep env depth tmpPaddr layoutVaddrEnd kpml4 w.toMmWorld
      (.mmMap fuel (SlabHeap.pageAt type pages) SlabHeap.slabGrowSize slabFlags) =
        .ok ⟨mm, w.held⟩ := by
    rw [mmStep, hmap]
    rfl
  have hstep' : mmStep env depth tmpPaddr layoutVaddrEnd kpml4
      (w.toMmWorld.withHeld (heapPages frame w))
      (.mmMap fuel (SlabHeap.pageAt type pages) SlabHeap.slabGrowSize slabFlags) =
        .ok (MmWorld.withHeld ⟨mm, w.held⟩ (heapPages frame w)) := by
    rw [mmStep_withHeld _ _ hnot, hstep]
    rfl
  have howned := h.owned.step hdepth (hguard.withHeld _ hnot) hstep'
  have hout : tmpPaddr ∉ mm.vm.opened := hguard.staysOut _ hstep
  have hleft := hguard.leaves _ hstep
  dsimp only at hleft
  have hhint : SlabHeap.pageAt type pages ≠ 0 := by
    unfold SlabHeap.pageAt
    rw [SlabHeap.slabBase_eq ht]
    unfold SlabHeap.layoutHeapStart
    omega
  replace hmap := mmMap_ok hmap
  rw [if_neg hhint] at hmap
  obtain ⟨rfl, hnone, hslots⟩ :=
    h.owned.mapsStrict hdepth hmap hout hleft (by decide) hpage hp
  rcases h.owned.mapsOwn hdepth hmap hout hleft with ⟨hzero, -⟩ | ⟨fresh, hown⟩
  · exact absurd hzero hp
  have hone : 0 < pagesOf SlabHeap.slabGrowSize := by decide
  -- the page is a new one, and so is its frame
  have hnew : ∀ x ∈ w.heap.mapped, x.2 ≠ SlabHeap.pageAt type pages := by
    intro x hx heq
    obtain ⟨e, he, -⟩ := h.leaf x hx
    rw [heq] at he
    cases hnone.symm.trans he
  have hclear : w.pm.pageBit (framePage (fresh 0)) = false := hown.free 0 hone
  have hother : ∀ x ∈ w.heap.mapped, framePage (frame x.2) ≠ framePage (fresh 0) := by
    intro x hx heq
    have hset := h.locked hx
    rw [heq, hclear] at hset
    cases hset
  have hthis : Function.update frame (SlabHeap.pageAt type pages) (fresh 0)
      (SlabHeap.pageAt type pages) = fresh 0 := Function.update_self ..
  have hthat : ∀ x ∈ w.heap.mapped, Function.update frame (SlabHeap.pageAt type pages) (fresh 0)
      x.2 = frame x.2 := fun x hx => Function.update_of_ne (hnew x hx) ..
  cases hok
  refine ⟨⟨Function.update frame (SlabHeap.pageAt type pages) (fresh 0), ⟨?_, ?_, ?_, ?_⟩,
    fun x hx => ⟨List.mem_cons_of_mem _ hx, hthat x hx⟩⟩, ?_, rfl⟩
  · have hheld := howned.hold (hown.locked 0 hone) fun q hq => hown.ne_table h.owned hone hq
    rw [MmWorld.withHeld, MmWorld.withHeld, Finset.union_assoc] at hheld
    rw [MmWorld.withHeld, heapPages_cons rfl hnew]
    exact hheld
  · intro x hx
    rcases List.mem_cons.mp hx with rfl | hx
    · obtain ⟨e, he, hframe⟩ := hown.leaf 0 hone
      rw [Nat.zero_mul, Nat.add_zero] at he
      exact ⟨e, he, hframe.trans hthis.symm⟩
    · obtain ⟨e, he, hframe⟩ := h.leaf x hx
      refine ⟨e, hown.kept x.2 e he fun k hk => ?_, hframe.trans (hthat x hx).symm⟩
      obtain rfl : k = 0 := Nat.lt_one_iff.mp hk
      rw [Nat.zero_mul, Nat.add_zero]
      exact hslots x.2 e he
  · intro x hx
    rcases List.mem_cons.mp hx with rfl | hx
    · rw [hthis]
      refine ⟨hown.page 0 hone, fun hmem => ?_⟩
      have hset := h.owned.held _ (Finset.mem_union_left _ hmem)
      cases hclear.symm.trans hset
    · rw [hthat x hx]
      exact h.page x hx
  · intro x hx y hy
    rcases List.mem_cons.mp hx with rfl | hx <;> rcases List.mem_cons.mp hy with rfl | hy
    · exact fun _ => rfl
    · rw [hthis, hthat y hy]
      exact fun heq => absurd heq.symm (hother y hy)
    · rw [hthis, hthat x hx]
      exact fun heq => absurd heq (hother x hx)
    · rw [hthat x hx, hthat y hy]
      exact h.apart x hx y hy
  · -- the model without memory finds the page at the hint, too
    have hmapped : SlabHeap.mmMap (mappedEnv freelistHead) w.heap type
      (SlabHeap.pageAt type pages) = _ := mmMap_mapped himage hnew
    rw [SlabHeap.allocSlab_eq_call [] (by rw [hend]; exact hmapped), SlabHeap.Growth.call, hmax,
      hend]
    dsimp only
    rw [hassert]
    rfl

/-- The parts of a call of `mm_alloc` that returns. -/
theorem mmAlloc_ok {fuel sz p : ℕ} (hok : Vm.mmAlloc env depth tmpPaddr layoutVaddrEnd kpml4
      freelistHead fuel w sz = .ok (p, w')) :
    ∃ type w₁, (assert (sz < SlabHeap.slabSize (SlabHeap.slabMax - 1))
        "sz < slab_size(SLAB_MAX - 1)" = .ok ()) ∧ SlabHeap.getSlabFromSize sz = .ok type ∧
      ((w.heap.slabs type).freelist ≠ some [] ∧ w₁ = w ∨
        (w.heap.slabs type).freelist = some [] ∧
          Vm.allocSlab env depth tmpPaddr layoutVaddrEnd kpml4 fuel w type = .ok w₁) ∧
      ∃ heap, SlabHeap.popChunk (mappedEnv freelistHead) w₁.heap type = .ok (p, heap) ∧
        w' = { w₁ with heap } := by
  obtain ⟨_, hsz, hok⟩ := Except.bind_eq_ok_iff.mp hok
  obtain ⟨type, hsize, hok⟩ := Except.bind_eq_ok_iff.mp hok
  obtain ⟨w₁, hgrow, hok⟩ := Except.bind_eq_ok_iff.mp hok
  obtain ⟨⟨q, heap⟩, hpop, hret⟩ := Except.bind_eq_ok_iff.mp hok
  cases hret
  refine ⟨type, w₁, hsz, hsize, ?_, heap, hpop, rfl⟩
  split at hgrow
  next hempty => exact .inr ⟨hempty, hgrow⟩
  next hne =>
    cases hgrow
    exact .inl ⟨hne, rfl⟩

/-- Taking a chunk maps no page. -/
theorem popChunk_mapped {henv : SlabHeap.HeapEnv} {heap heap' : SlabHeap.Heap} {type p : ℕ}
    (hok : SlabHeap.popChunk henv heap type = .ok (p, heap')) : heap'.mapped = heap.mapped := by
  unfold SlabHeap.popChunk at hok
  dsimp only at hok
  split at hok
  · cases hok
    rfl
  · cases hok
    rfl
  · cases hok

/-- The pages of the heap are backed whatever its free lists are. -/
theorem HeapBacked.congr (h : HeapBacked tmpPaddr kpml4 frame w)
    (hmm : w'.toMmWorld = w.toMmWorld) (hmapped : w'.heap.mapped = w.heap.mapped) :
    HeapBacked tmpPaddr kpml4 frame w' := by
  have hpages : heapPages frame w' = heapPages frame w := by
    rw [heapPages, heapPages, hmapped]
  refine ⟨?_, ?_, ?_, ?_⟩
  · rw [hmm, hpages]
    exact h.owned
  · rw [hmm, hmapped]
    exact h.leaf
  · rw [hmm, hmapped]
    exact h.page
  · rw [hmapped]
    exact h.apart

/-- **`mm_alloc`** keeps the memory of the heap, and is for the slabs what it is in a model without
memory. -/
theorem HeapBacked.mmAlloc (hdepth : Pm.bitmapSize < depth)
    (h : HeapBacked tmpPaddr kpml4 frame w) {fuel sz p : ℕ} {pages chunks : ℕ → ℕ}
    (hheap : SlabHeap.HeapOk w.toHeapRun pages chunks)
    (hguard : HeapGuard env depth tmpPaddr layoutVaddrEnd kpml4 w (.alloc fuel sz))
    (hok : Vm.mmAlloc env depth tmpPaddr layoutVaddrEnd kpml4 freelistHead fuel w sz =
      .ok (p, w')) :
    (∃ frame', HeapBacked tmpPaddr kpml4 frame' w' ∧ KeepsFrames frame w frame' w') ∧
      SlabHeap.mmAlloc (mappedEnv freelistHead) w.heap sz = .ok (p, w'.heap) ∧
      w'.live = w.live := by
  obtain ⟨type, w₁, hsz, hsize, hgrow, heap, hpop, rfl⟩ := mmAlloc_ok hok
  have hmax : SlabHeap.slabSize (SlabHeap.slabMax - 1) = 2 ^ 12 := by decide
  have hlt : sz < 2 ^ 12 := by
    have hlt := hsz
    rwa [assert_eq_ok, decide_eq_true_eq, hmax] at hlt
  have ht := SlabHeap.getSlabFromSize_lt hguard.1 hlt hsize
  obtain ⟨⟨frame', hback, hkeeps⟩, hslabs, hlive⟩ :
      (∃ frame', HeapBacked tmpPaddr kpml4 frame' w₁ ∧ KeepsFrames frame w frame' w₁) ∧
        (if (w.heap.slabs type).freelist = some [] then
          SlabHeap.allocSlab (mappedEnv freelistHead) w.heap type else pure w.heap) =
            .ok w₁.heap ∧ w₁.live = w.live := by
    rcases hgrow with ⟨hfree, rfl⟩ | ⟨hempty, hgrow⟩
    · rw [if_neg hfree]
      exact ⟨⟨frame, h, fun x hx => ⟨hx, rfl⟩⟩, rfl, rfl⟩
    · rw [if_pos hempty]
      exact h.allocSlab hdepth ht (hheap.slab type ht) (hguard.2 type hsize hempty) hgrow
  have hmapped := popChunk_mapped hpop
  refine ⟨⟨frame', hback.congr rfl hmapped, fun x hx => ?_⟩, ?_, hlive⟩
  · obtain ⟨hmem, hframe⟩ := hkeeps x hx
    exact ⟨hmapped ▸ hmem, hframe⟩
  · exact Except.bind_eq_ok_iff.mpr ⟨_, hsz, Except.bind_eq_ok_iff.mpr ⟨type, hsize,
      Except.bind_eq_ok_iff.mpr ⟨_, hslabs, hpop⟩⟩⟩

/-! ## Runs -/

/-- One event. -/
theorem HeapKept.step (hdepth : Pm.bitmapSize < depth)
    (h : HeapKept tmpPaddr kpml4 freelistHead frame w) {e : HeapWorldEvent}
    (hguard : HeapGuard env depth tmpPaddr layoutVaddrEnd kpml4 w e)
    (hok : heapStep env depth tmpPaddr layoutVaddrEnd kpml4 freelistHead w e = .ok w') :
    ∃ frame', HeapKept tmpPaddr kpml4 freelistHead frame' w' ∧ KeepsFrames frame w frame' w' := by
  obtain ⟨hback, es, hslabs⟩ := h
  obtain ⟨pages, chunks, hheap⟩ := SlabHeap.heapOk_of_run hslabs
  cases e with
  | alloc fuel sz =>
    obtain ⟨⟨p, w₁⟩, halloc, hret⟩ := Except.bind_eq_ok_iff.mp hok
    cases hret
    obtain ⟨⟨frame', hback', hkeeps⟩, hsame, hlive⟩ :=
      hback.mmAlloc hdepth hheap hguard halloc
    have hclient : SlabHeap.clientOk w.toHeapRun (.alloc sz) := hguard.1
    refine ⟨frame', ⟨hback'.congr rfl rfl, _, hslabs.snoc hclient ?_⟩, hkeeps⟩
    rw [SlabHeap.HeapRun.step, hsame]
    show Except.ok _ = Except.ok _
    rw [hlive]
  | free p =>
    -- it does not return
    obtain ⟨a, ha, rfl⟩ := hguard
    obtain ⟨heap, hfree, -⟩ := Except.bind_eq_ok_iff.mp hok
    cases (hheap.mmFree ha).symm.trans hfree
  | pm e =>
    obtain ⟨hback', hrun⟩ := hback.client hdepth hguard hok
    have hmapped : w'.heap = w.heap := congrArg SlabHeap.HeapRun.heap hrun
    exact ⟨frame, ⟨hback', es, hrun ▸ hslabs⟩, fun x hx => ⟨hmapped ▸ hx, rfl⟩⟩
  | vm c =>
    obtain ⟨hback', hrun⟩ := hback.vm hdepth hguard hok
    have hmapped : w'.heap = w.heap := congrArg SlabHeap.HeapRun.heap hrun
    exact ⟨frame, ⟨hback', es, hrun ▸ hslabs⟩, fun x hx => ⟨hmapped ▸ hx, rfl⟩⟩

/-- A run. -/
theorem HeapKept.run (hdepth : Pm.bitmapSize < depth)
    (h : HeapKept tmpPaddr kpml4 freelistHead frame w) {es : List HeapWorldEvent}
    (hrun : GuardedRun.Run (heapStep env depth tmpPaddr layoutVaddrEnd kpml4 freelistHead)
      (HeapGuard env depth tmpPaddr layoutVaddrEnd kpml4) w es w') :
    ∃ frame', HeapKept tmpPaddr kpml4 freelistHead frame' w' ∧ KeepsFrames frame w frame' w' := by
  apply hrun.invariant (I := fun v => ∃ frame', HeapKept tmpPaddr kpml4 freelistHead frame' v ∧
    KeepsFrames frame w frame' v) ?_ ⟨frame, h, fun x hx => ⟨hx, rfl⟩⟩
  rintro v e v' ⟨frame₁, hv, hkeeps⟩ hguard hok
  obtain ⟨frame₂, hv', hkeeps'⟩ := hv.step hdepth hguard hok
  refine ⟨frame₂, hv', fun x hx => ?_⟩
  obtain ⟨hmem, hframe⟩ := hkeeps x hx
  obtain ⟨hmem', hframe'⟩ := hkeeps' x hmem
  exact ⟨hmem', hframe'.trans hframe⟩

/-- The start. -/
theorem heapKept_booted (hdepth : Pm.bitmapSize < depth)
    (hboot : Booted env depth tmpPaddr kpml4 w.toMmWorld) (hheap : w.toHeapRun = .init) :
    HeapKept tmpPaddr kpml4 freelistHead frame w := by
  have hnone : w.heap.mapped = [] := by rw [hheap]; rfl
  have hpages : heapPages frame w = ∅ := by
    rw [heapPages, hnone]
    rfl
  refine ⟨⟨?_, ?_, ?_, ?_⟩, [], hheap ▸ .nil _⟩
  · rw [hpages, MmWorld.withHeld, Finset.union_empty]
    exact hboot.owned hdepth
  all_goals
    rw [hnone]
    exact List.forall_mem_nil _

/-! ## The bytes of allocations -/

/-- The byte is one of the chunk that serves the allocation. -/
def InChunk (a : ℕ × ℕ) (v : ℕ) : Prop :=
  ∃ type, SlabHeap.getSlabFromSize a.2 = .ok type ∧ a.1 ≤ v ∧ v < a.1 + SlabHeap.slabSize type

/-- The chunk of a live allocation is one that its slab has carved. -/
theorem InChunk.carved {run : SlabHeap.HeapRun} {pages chunks : ℕ → ℕ} {a : ℕ × ℕ} {v : ℕ}
    (h : SlabHeap.HeapOk run pages chunks) (ha : a ∈ run.live) (hv : InChunk a v) :
    ∃ type < SlabHeap.usedClasses, ∃ k < chunks type, a.1 = SlabHeap.chunkAt type k ∧
      SlabHeap.chunkAt type k ≤ v ∧ v < SlabHeap.chunkAt type k + SlabHeap.slabSize type := by
  obtain ⟨type, ht, hsize, ⟨k, hk, hak⟩, -⟩ := h.held a ha
  obtain ⟨type', hsize', hle, hlt⟩ := hv
  obtain rfl : type = type' := Except.ok.inj (hsize.symm.trans hsize')
  rw [hak] at hle hlt
  exact ⟨type, ht, k, hk, hak, hle, hlt⟩

/-- It lies in a page of the heap. -/
theorem InChunk.page {run : SlabHeap.HeapRun} {pages chunks : ℕ → ℕ} {a : ℕ × ℕ} {v : ℕ}
    (h : SlabHeap.HeapOk run pages chunks) (ha : a ∈ run.live) (hv : InChunk a v) :
    ∃ x ∈ run.heap.mapped, x.2 % pageSize = 0 ∧ x.2 ≤ v ∧ v < x.2 + pageSize := by
  obtain ⟨type, ht, k, hk, -, hle, hlt⟩ := hv.carved h ha
  obtain ⟨page, hmem, hpage⟩ := (h.slab type ht).page_of_byte hk hle hlt
  obtain ⟨j, -, rfl⟩ := ((h.slab type ht).mapped_iff page).mp hmem
  exact ⟨_, hmem, SlabHeap.pageAt_mod (lt_trans ht (by decide)) j, hpage⟩

/-- No byte is in the chunks of two live allocations. -/
theorem InChunk.unique {run : SlabHeap.HeapRun} {pages chunks : ℕ → ℕ} {a b : ℕ × ℕ} {v : ℕ}
    (h : SlabHeap.HeapOk run pages chunks) (ha : a ∈ run.live) (hb : b ∈ run.live)
    (hav : InChunk a v) (hbv : InChunk b v) : a = b := by
  obtain ⟨type, ht, k, hk, hak, hle, hlt⟩ := hav.carved h ha
  obtain ⟨type', ht', k', hk', hbk, hle', hlt'⟩ := hbv.carved h hb
  obtain rfl := h.class_unique ht ht' hk hk' hle hlt hle' hlt'
  have hsame : k = k' := by
    by_contra hne
    rcases Nat.lt_or_gt_of_ne hne with hless | hless
    · have hmono := SlabHeap.chunkAt_mono type (Nat.succ_le_of_lt hless)
      rw [Nat.succ_eq_add_one, SlabHeap.chunkAt_succ] at hmono
      omega
    · have hmono := SlabHeap.chunkAt_mono type (Nat.succ_le_of_lt hless)
      rw [Nat.succ_eq_add_one, SlabHeap.chunkAt_succ] at hmono
      omega
  have haddr : a.1 = b.1 := by rw [hak, hbk, hsame]
  exact List.inj_on_of_nodup_map (List.pairwise_map.mpr h.distinct) ha hb haddr

/-- The address of a byte of a page frame, as a number. -/
theorem toNat_or_offset {f : PAddr} {o : ℕ} (hal : f.toNat % pageSize = 0) (ho : o < pageSize) :
    (f ||| BitVec.ofNat 64 o).toNat = f.toNat + o := by
  have hlt := f.isLt
  rw [or_offset hal ho, BitVec.toNat_add, BitVec.toNat_ofNat]
  rw [pageSize] at hal ho
  omega

/-- The physical address of a byte of the heap. -/
theorem HeapBacked.locate (h : HeapBacked tmpPaddr kpml4 frame w) {x : ℕ × ℕ}
    (hx : x ∈ w.heap.mapped) (hpage : x.2 % pageSize = 0) {v : ℕ} (hle : x.2 ≤ v)
    (hlt : v < x.2 + pageSize) : ∃ m, located v (w.vm.leaf tmpPaddr kpml4 v) = (success, m) ∧
      m.toNat = (frame x.2).toNat + (v - x.2) ∧ framePage m = framePage (frame x.2) := by
  obtain ⟨e, he, hframe⟩ := h.leaf x hx
  have hoffset : v - x.2 < pageSize := by omega
  have hpath : indices v = indices x.2 := by
    have hpath := indices_offset hpage hoffset
    rwa [Nat.add_sub_cancel' hle] at hpath
  have hleaf : w.vm.leaf tmpPaddr kpml4 v = some e := by
    rw [VmState.leaf, hpath]
    exact he
  have hmod : v % pageSize = v - x.2 := by
    rw [pageSize] at *
    omega
  have hal : (frame x.2).toNat % pageSize = 0 :=
    page_of_ptePaddr (by rw [← hframe, ptePaddr_ptePaddr])
  have hnat := toNat_or_offset hal hoffset
  refine ⟨frame x.2 ||| BitVec.ofNat 64 (v - x.2), ?_, hnat, ?_⟩
  · rw [hleaf, located, hframe, hmod]
  · rw [framePage, framePage, hnat, Pm.pageOf, Pm.pageOf]
    rw [pageSize] at *
    omega

/-- **Allocations have memory of their own.**  In every run that starts with `pm_init`, `vm_init`
and `mm_init`, with the pages of the kernel's tables locked, in which clients of the allocator
release what they hold, clients of the heap request a byte at least, no call comes to `tmp_pt` or
takes a page of the heap away, and a page is left: every byte of a chunk that is allocated is
mapped to a byte of memory, and to the same one at any later time.  Its page stays locked, no
client of the allocator holds it, and it is the page of no table.  No two bytes of chunks that are
allocated, of one or of two, are the same byte of memory. -/
theorem heap_memory_of_run (hdepth : Pm.bitmapSize < depth) {w₀ : HeapWorld}
    (hboot : Booted env depth tmpPaddr kpml4 w₀.toMmWorld) (hheap : w₀.toHeapRun = .init)
    {es es' : List HeapWorldEvent}
    (hrun : GuardedRun.Run (heapStep env depth tmpPaddr layoutVaddrEnd kpml4 freelistHead)
      (HeapGuard env depth tmpPaddr layoutVaddrEnd kpml4) w₀ es w)
    (hrest : GuardedRun.Run (heapStep env depth tmpPaddr layoutVaddrEnd kpml4 freelistHead)
      (HeapGuard env depth tmpPaddr layoutVaddrEnd kpml4) w es' w') :
    (∀ a ∈ w.live, ∀ v, InChunk a v → ∃ m,
      located v (w.vm.leaf tmpPaddr kpml4 v) = (success, m) ∧
      located v (w'.vm.leaf tmpPaddr kpml4 v) = (success, m) ∧
      w'.pm.pageBit (framePage m) = true ∧ framePage m ∉ w'.held ∧
      ∀ p, IsTable tmpPaddr kpml4 w'.vm p → framePage p ≠ framePage m) ∧
    ∀ a ∈ w.live, ∀ b ∈ w.live, ∀ u v, InChunk a u → InChunk b v →
      located u (w.vm.leaf tmpPaddr kpml4 u) = located v (w.vm.leaf tmpPaddr kpml4 v) →
        a = b ∧ u = v := by
  have hstart : HeapKept tmpPaddr kpml4 freelistHead (fun _ => 0#64) w₀ :=
    heapKept_booted hdepth hboot hheap
  obtain ⟨frame, hkept, -⟩ := hstart.run hdepth hrun
  obtain ⟨frame', ⟨hback', -⟩, hkeeps⟩ := hkept.run hdepth hrest
  obtain ⟨hback, es₁, hslabs⟩ := hkept
  obtain ⟨pages, chunks, hok⟩ := SlabHeap.heapOk_of_run hslabs
  refine ⟨fun a ha v hv => ?_, fun a ha b hb u v hu hv heq => ?_⟩
  · obtain ⟨x, hx, hpage, hle, hlt⟩ := hv.page hok ha
    obtain ⟨hx', hframe⟩ := hkeeps x hx
    obtain ⟨m, hm, hnat, hsame⟩ := hback.locate hx hpage hle hlt
    obtain ⟨m', hm', hnat', -⟩ := hback'.locate hx' hpage hle hlt
    have hmm : m' = m := BitVec.eq_of_toNat_eq (by rw [hnat, hnat', hframe])
    have hheld : framePage m ∈ heapPages frame' w' :=
      mem_heapPages.mpr ⟨x, hx', by rw [hframe, hsame]⟩
    refine ⟨m, hm, hmm ▸ hm', hback'.owned.held _ (Finset.mem_union_right _ hheld), ?_,
      fun p hp heq => ?_⟩
    · rw [hsame, ← hframe]
      exact (hback'.page x hx').2
    · exact (hback'.owned.tables p hp).2.2 (Finset.mem_union_right _ (heq ▸ hheld))
  · obtain ⟨x, hx, hxpage, hxle, hxlt⟩ := hu.page hok ha
    obtain ⟨y, hy, hypage, hyle, hylt⟩ := hv.page hok hb
    obtain ⟨m, hm, hnat, hsame⟩ := hback.locate hx hxpage hxle hxlt
    obtain ⟨n, hn, hnat', hsame'⟩ := hback.locate hy hypage hyle hylt
    rw [hm, hn] at heq
    obtain rfl : m = n := congrArg Prod.snd heq
    -- one page of memory, so one page of the heap, and one byte of it
    have hone : x.2 = y.2 := hback.apart x hx y hy (hsame.symm.trans hsame')
    have hbyte : u = v := by
      rw [hone] at hnat
      omega
    subst hbyte
    exact ⟨hu.unique hok ha hb hv, rfl⟩

end Kept

/-! ## A small machine -/

/-- The heap of the small machine, started. -/
def startHeap (pm : Pm.PmState) : HeapWorld := ⟨startWorld pm, .init⟩

/-- An allocation, and a request of another client. -/
theorem heap_memory_of_run_small : ∃ pm w w',
    Pm.pmInit tablesEnv 40000 Pm.flatMap = .ok pm ∧
    GuardedRun.Run (heapStep tablesEnv 40000 0x8000#64 0xffffffff80100000 0x1000#64 fun _ => 0)
      (HeapGuard tablesEnv 40000 0x8000#64 0xffffffff80100000 0x1000#64) (startHeap pm)
      [.alloc 2 16] w ∧
    GuardedRun.Run (heapStep tablesEnv 40000 0x8000#64 0xffffffff80100000 0x1000#64 fun _ => 0)
      (HeapGuard tablesEnv 40000 0x8000#64 0xffffffff80100000 0x1000#64) w
      [.pm .requestPage] w' ∧
    w.live = [(0xffff800000000fe0, 16)] ∧
    ∀ a ∈ w.live, ∀ v, InChunk a v → ∃ m,
      located v (w.vm.leaf 0x8000#64 0x1000#64 v) = (success, m) ∧
      located v (w'.vm.leaf 0x8000#64 0x1000#64 v) = (success, m) ∧
      w'.pm.pageBit (framePage m) = true ∧ framePage m ∉ w'.held ∧
      ∀ p, IsTable 0x8000#64 0x1000#64 w'.vm p → framePage p ≠ framePage m := by
  have htest : ((Pm.pmInit tablesEnv 40000 Pm.flatMap).toOption.any fun pm =>
      ((List.range 12).all fun i => pm.pageBit i) && !pm.pageBit 100 &&
      ((mmStep tablesEnv 40000 0x8000#64 0xffffffff80100000 0x1000#64
        { pm, vm := sparseState heapEntries [], held := ∅ }
        (.mmMap 2 0xffff800000000000 SlabHeap.slabGrowSize slabFlags)).toOption.any fun w₁ =>
          !w₁.pm.pageBit 100 && decide (0x8000#64 ∉ w₁.vm.opened)) &&
      (heapStep tablesEnv 40000 0x8000#64 0xffffffff80100000 0x1000#64 (fun _ => 0)
        ⟨{ pm, vm := sparseState heapEntries [], held := ∅ }, .init⟩
        (.alloc 2 16)).toOption.any fun w =>
          !w.pm.pageBit 100 && !w.pm.pageBit 101 &&
          decide (w.live = [(0xffff800000000fe0, 16)]) &&
          (heapStep tablesEnv 40000 0x8000#64 0xffffffff80100000 0x1000#64 (fun _ => 0) w
            (.pm .requestPage)).toOption.any fun w' => !w'.pm.pageBit 100) = true := by
    decide +kernel
  obtain ⟨pm, hinit, htest⟩ := Except.exists_of_any htest
  rw [Bool.and_eq_true, Bool.and_eq_true, Bool.and_eq_true, List.all_eq_true] at htest
  obtain ⟨⟨⟨hlow, hclear⟩, hmapTest⟩, htest⟩ := htest
  rw [← vmInit_heap] at hmapTest htest
  obtain ⟨w₁, hmap, hmapTest⟩ := Except.exists_of_any hmapTest
  obtain ⟨w, halloc, htest⟩ := Except.exists_of_any htest
  simp only [Bool.and_eq_true, Bool.not_eq_true'] at hmapTest htest
  obtain ⟨hleft₁, hopened⟩ := hmapTest
  obtain ⟨⟨⟨h100, h101⟩, hlive⟩, htest⟩ := htest
  obtain ⟨w', hreq, hleft⟩ := Except.exists_of_any htest
  replace hlive : w.live = [(0xffff800000000fe0, 16)] := of_decide_eq_true hlive
  have hfree : ∀ {p : Pm.PmState}, p.pageBit 100 = false → 0 < p.freePages := fun h =>
    Finset.card_pos.mpr ⟨100, Pm.PmState.mem_freeSet.mpr ⟨by decide, h⟩⟩
  have hrun : GuardedRun.Run (heapStep tablesEnv 40000 0x8000#64 0xffffffff80100000 0x1000#64
      fun _ => 0) (HeapGuard tablesEnv 40000 0x8000#64 0xffffffff80100000 0x1000#64)
      (startHeap pm) [.alloc 2 16] w := by
    refine .cons ⟨by decide, fun type htype _ => ?_⟩ halloc (.nil w)
    obtain rfl : 0 = type := Except.ok.inj ((show _ = Except.ok 0 by decide).symm.trans htype)
    have hhint : pageAlignUp (SlabHeap.mmInit.slabs 0).endAddr = 0xffff800000000000 := by decide
    show MmGuard _ _ _ _ _ _ (.mmMap 2 (pageAlignUp (SlabHeap.mmInit.slabs 0).endAddr) _ _)
    rw [hhint]
    refine ⟨trivial, fun v hv => ?_, fun v hv => ?_⟩
    · cases hmap.symm.trans hv
      exact of_decide_eq_true hopened
    · cases hmap.symm.trans hv
      exact hfree hleft₁
  have hrest : GuardedRun.Run (heapStep tablesEnv 40000 0x8000#64 0xffffffff80100000 0x1000#64
      fun _ => 0) (HeapGuard tablesEnv 40000 0x8000#64 0xffffffff80100000 0x1000#64) w
      [.pm .requestPage] w' := by
    obtain ⟨mm, hmm, hret⟩ := Except.bind_eq_ok_iff.mp hreq
    cases hret
    refine .cons ⟨⟨?_, fun a ha => absurd ha List.not_mem_nil⟩, trivial, fun v hv => ?_⟩ hreq
      (.nil _)
    · exact Pm.one_lt_freePages (by decide) (by decide) (by decide) h100 h101
    · cases hmm.symm.trans hv
      exact hfree (by simpa using hleft)
  exact ⟨pm, w, w', hinit, hrun, hrest, hlive,
    (heap_memory_of_run (by decide) (booted_start hinit hlow (by simpa using hclear)) rfl
      hrun hrest).1⟩

end Mimik.Vm
