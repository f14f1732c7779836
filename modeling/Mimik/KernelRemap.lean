/-
# The sections of the kernel (`kernel.c`)

`kernel_remap` gives the sections of the kernel image their permissions, with one call of
`vmk_flag_range` for each.  The image lies in one region of 2 MiB, so that its pages have
their leaf entries in one table, and the three entries above it are rewritten by each of
the calls: what they allow at the end is what the last call asks for, which maps the data
of the kernel writable.
-/
import Mimik.VmFlag
import Mimik.VmKernel

namespace Mimik.Image

open FaultState Mimik.Vm

/-! ## The layout of the image -/

/-- The symbols of the linker script. -/
structure Layout where
  textStart : ℕ
  textEnd : ℕ
  rodataStart : ℕ
  rodataEnd : ℕ
  dataStart : ℕ
  dataEnd : ℕ

/-- `_kernel_vaddr_start`. -/
def vaddrStart : ℕ := 0x10000 + higherHalf

/-- `ALIGN(4K)` of the linker script. -/
def align4K (a : ℕ) : ℕ := (a + (pageSize - 1)) / pageSize * pageSize

/-- The sections follow one another as in the linker script, the sections after the entry
part on page boundaries, none of them empty, and fit into the first 2 MiB. -/
structure Layout.Linked (l : Layout) : Prop where
  entry : vaddrStart < l.textStart
  textStart : l.textStart % pageSize = 0
  text : l.textStart < l.textEnd
  rodataStart : l.rodataStart = align4K l.textEnd
  rodata : l.rodataStart < l.rodataEnd
  dataStart : l.dataStart = align4K l.rodataEnd
  data : l.dataStart < l.dataEnd
  region : vaddrStart / 2 ^ 21 = (l.dataEnd - 1) / 2 ^ 21

/-- What the sections are meant to allow. -/
def Layout.perms (l : Layout) (vaddr : ℕ) : Perms :=
  if vaddr < l.textStart then { writable := true, user := false, noExecute := true }
  else if vaddr < l.rodataStart then { writable := false, user := false, noExecute := false }
  else if vaddr < l.dataStart then { writable := false, user := false, noExecute := true }
  else { writable := true, user := false, noExecute := true }

/-- `VM_FLAG_READ`. -/
def vmFlagRead : Flags := 0

/-- The flags of the section of an address. -/
def Layout.flags (l : Layout) (vaddr : ℕ) : Flags :=
  if vaddr < l.textStart then vmFlagRead ||| vmFlagWritable
  else if vaddr < l.rodataStart then vmFlagRead ||| vmFlagExecutable
  else if vaddr < l.dataStart then vmFlagRead
  else vmFlagRead ||| vmFlagWritable

/-- `vmk_flag_range` on the table `kpml4`, and the assertion that follows it. -/
def remap (tmpPaddr kpml4 : PAddr) (vaddrStart vaddrEnd : ℕ) (flags : Flags) :
    Prog Fault VmState Unit := do
  let res ← call kpml4 (vmkFlagRange (kernel tmpPaddr) (.table kpml4) vaddrStart vaddrEnd flags)
  check (res = success) "res == SUCCESS"

/-- `kernel_remap`. -/
def kernelRemap (tmpPaddr kpml4 : PAddr) (l : Layout) : Prog Fault VmState Unit := do
  remap tmpPaddr kpml4 vaddrStart l.textStart (vmFlagRead ||| vmFlagWritable)
  remap tmpPaddr kpml4 l.textStart l.textEnd (vmFlagRead ||| vmFlagExecutable)
  remap tmpPaddr kpml4 l.rodataStart l.rodataEnd vmFlagRead
  remap tmpPaddr kpml4 l.dataStart l.dataEnd (vmFlagRead ||| vmFlagWritable)

/-! ## One leaf table -/

/-- The tables on the way to the leaf table `pt`. -/
structure Leads (mem : Tables) (root pdp pd pt : PAddr) (a b c : ℕ) : Prop where
  pml4 : present (mem root a) = true ∧ ptePaddr (mem root a) = pdp
  pdp : present (mem pdp b) = true ∧ ptePaddr (mem pdp b) = pd
  pd : present (mem pd c) = true ∧ ptePaddr (mem pd c) = pt

variable {mem mem' : Tables} {root pdp pd pt tmpPaddr : PAddr} {a b c d j n : ℕ} {flags : Flags}

/-- The places on the way to an entry of the leaf table. -/
theorem Leads.walk (h : Leads mem root pdp pd pt a b c) (j : ℕ) :
    pageTables.slots mem root [a, b, c, j] = [(root, a), (pdp, b), (pd, c), (pt, j)] ∧
      pageTables.slots mem root [a, b, c] = [(root, a), (pdp, b), (pd, c)] ∧
      pageTables.leafSlot mem root [a, b, c, j] = some (pt, j) := by
  have hpml4 : pageTables.present (mem root a) = true ∧ pageTables.next (mem root a) = pdp := h.pml4
  have hpdp : pageTables.present (mem pdp b) = true ∧ pageTables.next (mem pdp b) = pd := h.pdp
  have hpd : pageTables.present (mem pd c) = true ∧ pageTables.next (mem pd c) = pt := h.pd
  refine ⟨?_, ?_, ?_⟩
  · rw [Radix.slots, if_pos hpml4.1, hpml4.2, Radix.slots, if_pos hpdp.1, hpdp.2, Radix.slots,
      if_pos hpd.1, hpd.2, Radix.slots_singleton]
  · rw [Radix.slots, if_pos hpml4.1, hpml4.2, Radix.slots, if_pos hpdp.1, hpdp.2,
      Radix.slots_singleton]
  · rw [Radix.leafSlot_cons (List.cons_ne_nil _ _), if_pos hpml4.1, hpml4.2,
      Radix.leafSlot_cons (List.cons_ne_nil _ _), if_pos hpdp.1, hpdp.2,
      Radix.leafSlot_cons (List.cons_ne_nil _ _), if_pos hpd.1, hpd.2, Radix.leafSlot_singleton]

/-- The entry of a page behind one leaf table. -/
theorem Leads.mapped_iff (h : Leads mem root pdp pd pt a b c) (j : ℕ) :
    mapped mem root [a, b, c, j] = present (mem pt j) := by
  rw [mapped, Radix.leaf, (h.walk j).2.2]
  show (pageTables.entry mem (pt, j)).isSome = _
  rw [Radix.entry]
  split
  next hpres => exact (show present (mem pt j) = true from hpres).symm
  next hpres => exact (Bool.eq_false_iff.mpr hpres).symm

theorem Leads.congr (h : Leads mem root pdp pd pt a b c) (hshape : pageTables.SameShape mem mem') :
    Leads mem' root pdp pd pt a b c where
  pml4 := ⟨(hshape root a).1.trans h.pml4.1, (hshape root a).2.trans h.pml4.2⟩
  pdp := ⟨(hshape pdp b).1.trans h.pdp.1, (hshape pdp b).2.trans h.pdp.2⟩
  pd := ⟨(hshape pd c).1.trans h.pd.1, (hshape pd c).2.trans h.pd.2⟩

/-- The leaf table and the tables above it. -/
structure Row (tmpPaddr : PAddr) (mem : Tables) (root pdp pd pt : PAddr) (a b c : ℕ) : Prop where
  leads : Leads mem root pdp pd pt a b c
  index : a < 512 ∧ b < 512 ∧ c < 512
  notTmp : root ≠ tmpPaddr ∧ pdp ≠ tmpPaddr ∧ pd ≠ tmpPaddr ∧ pt ≠ tmpPaddr
  last : pt ≠ root ∧ pt ≠ pdp ∧ pt ≠ pd

/-- The entries of the range are present. -/
def Filled (mem : Tables) (pt : PAddr) (d n : ℕ) : Prop :=
  ∀ j, d ≤ j → j < d + n → present (mem pt j) = true

section Row

variable (h : Row tmpPaddr mem root pdp pd pt a b c) (hn : 0 < n) (hfit : d + n ≤ 512)
  (hfilled : Filled mem pt d n)

include h hfit in
/-- A range in the leaf table is a part of a box. -/
theorem Row.take : (Radix.box 512 [a, b, c, d]).take n =
    (List.range' d n).map fun j => [a, b, c, j] := by
  have hone : n ≤ (Radix.box 512 [d]).length := by
    rw [Radix.box_singleton, List.length_map, List.length_range']
    omega
  have htwo := hone.trans (Radix.length_box_le h.index.2.2)
  have hthree := htwo.trans (Radix.length_box_le h.index.2.1)
  have hrange : (List.range' d (512 - d)).take n = List.range' d n := by
    rw [show 512 - d = n + (512 - d - n) by omega, ← List.range'_append_1]
    exact List.take_left' (List.length_range' ..)
  rw [Radix.take_box_cons h.index.1 hthree, Radix.take_box_cons h.index.2.1 htwo,
    Radix.take_box_cons h.index.2.2 hone, Radix.box_singleton, ← List.map_take, hrange,
    List.map_map, List.map_map, List.map_map]
  rfl

include h hfit hfilled in
theorem Row.mapped : ∀ path ∈ (Radix.box 512 [a, b, c, d]).take n,
    Vm.mapped mem root path = true := by
  rw [h.take hfit]
  intro path hpath
  obtain ⟨j, hj, rfl⟩ := List.mem_map.mp hpath
  rw [List.mem_range'_1] at hj
  rw [h.leads.mapped_iff]
  exact hfilled j hj.1 hj.2

include h hfit hfilled in
theorem Row.reached : reached mem root ((Radix.box 512 [a, b, c, d]).take n) =
    (List.range' d n).map fun j => [a, b, c, j] := by
  rw [reached_eq_self (h.mapped hfit hfilled), h.take hfit]

include h hn hfit hfilled in
theorem Row.innerOf (slot : PAddr × ℕ) :
    InnerOf mem root (Vm.reached mem root ((Radix.box 512 [a, b, c, d]).take n)) slot ↔
      slot = (root, a) ∨ slot = (pdp, b) ∨ slot = (pd, c) := by
  rw [h.reached hfit hfilled]
  have hslots : ∀ j, pageTables.slots mem root [a, b, c, j].dropLast =
      [(root, a), (pdp, b), (pd, c)] := fun j => (h.leads.walk j).2.1
  constructor
  · rintro ⟨path, hpath, hslot, -⟩
    obtain ⟨j, -, rfl⟩ := List.mem_map.mp hpath
    rw [hslots j] at hslot
    simpa only [List.mem_cons, List.not_mem_nil, or_false] using hslot
  · intro hslot
    refine ⟨[a, b, c, d], List.mem_map.mpr ⟨d, List.mem_range'_1.mpr (by omega), rfl⟩, ?_, ?_⟩
    · rw [hslots d]
      simpa only [List.mem_cons, List.not_mem_nil, or_false] using hslot
    · rcases hslot with rfl | rfl | rfl
      · exact h.leads.pml4.1
      · exact h.leads.pdp.1
      · exact h.leads.pd.1

include h hfit hfilled in
theorem Row.leafOf (slot : PAddr × ℕ) :
    LeafOf mem root (Vm.reached mem root ((Radix.box 512 [a, b, c, d]).take n)) slot ↔
      slot.1 = pt ∧ d ≤ slot.2 ∧ slot.2 < d + n := by
  rw [h.reached hfit hfilled]
  constructor
  · rintro ⟨path, hpath, hslot, -⟩
    obtain ⟨j, hj, rfl⟩ := List.mem_map.mp hpath
    rw [(h.leads.walk j).2.2, Option.some.injEq] at hslot
    rw [← hslot]
    exact ⟨rfl, List.mem_range'_1.mp hj⟩
  · rintro ⟨hpt, hj⟩
    refine ⟨[a, b, c, slot.2], List.mem_map.mpr ⟨slot.2, List.mem_range'_1.mpr hj, rfl⟩, ?_, ?_⟩
    · rw [(h.leads.walk slot.2).2.2, ← hpt]
    · rw [hpt]
      exact hfilled slot.2 hj.1 hj.2

/-- The leaf table and the entries above it, after a range of its entries was flagged. -/
structure RowFlagged (flags : Flags) (mem mem' : Tables) (root pdp pd pt : PAddr)
    (a b c d n : ℕ) : Prop where
  shape : pageTables.SameShape mem mem'
  pml4 : mem' root a = reflag (mem root a) flags
  pdp : mem' pdp b = reflag (mem pdp b) flags
  pd : mem' pd c = reflag (mem pd c) flags
  pt : ∀ j, mem' pt j =
    if d ≤ j ∧ j < d + n then setPte (ptePaddr (mem pt j)) flags else mem pt j

include h hn hfit hfilled in
theorem Row.flagged {vaddr : ℕ} (hindices : indices vaddr = [a, b, c, d])
    (hflagged : Flagged flags
      (InnerOf mem root (Vm.reached mem root ((Radix.box 512 (indices vaddr)).take n)))
      (LeafOf mem root (Vm.reached mem root ((Radix.box 512 (indices vaddr)).take n))) mem mem') :
    RowFlagged flags mem mem' root pdp pd pt a b c d n := by
  rw [hindices] at hflagged
  have hinner := h.innerOf hn hfit hfilled
  have hleaf := h.leafOf hfit hfilled
  refine ⟨hflagged.sameShape, ?_, ?_, ?_, fun j => ?_⟩
  · exact hflagged.onInner (root, a) ((hinner _).mpr (.inl rfl))
  · exact hflagged.onInner (pdp, b) ((hinner _).mpr (.inr (.inl rfl)))
  · exact hflagged.onInner (pd, c) ((hinner _).mpr (.inr (.inr rfl)))
  · split
    next hj => exact hflagged.onLeaf (pt, j) ((hleaf _).mpr ⟨rfl, hj⟩)
    next hj =>
      refine hflagged.other (pt, j) (fun hs => ?_) fun hs => hj ((hleaf _).mp hs).2
      rcases (hinner _).mp hs with heq | heq | heq
      · exact h.last.1 (congrArg Prod.fst heq)
      · exact h.last.2.1 (congrArg Prod.fst heq)
      · exact h.last.2.2 (congrArg Prod.fst heq)

end Row

theorem Row.congr (h : Row tmpPaddr mem root pdp pd pt a b c)
    (hshape : pageTables.SameShape mem mem') : Row tmpPaddr mem' root pdp pd pt a b c :=
  ⟨h.leads.congr hshape, h.index, h.notTmp, h.last⟩

theorem Filled.congr (h : Filled mem pt d n) (hshape : pageTables.SameShape mem mem') :
    Filled mem' pt d n :=
  fun j hd hj => (hshape pt j).1.trans (h j hd hj)

/-- A part of a range of entries. -/
theorem Filled.part {d' n' : ℕ} (h : Filled mem pt d n) (hd : d ≤ d') (hn : d' + n' ≤ d + n) :
    Filled mem pt d' n' :=
  fun j hj hlt => h j (by omega) (by omega)

/-- A call on a range of the leaf table tells the levels apart and stays off `tmp_pt`. -/
theorem Row.flagPre (h : Row tmpPaddr mem root pdp pd pt a b c) (hn : 0 < n) (hfit : d + n ≤ 512)
    (hfilled : Filled mem pt d n) : FlagPre tmpPaddr mem root (Radix.box 512 [a, b, c, d]) n := by
  have hinner := h.innerOf hn hfit hfilled
  have hleaf := h.leafOf hfit hfilled
  constructor
  · intro slot hi hl
    have hpt := ((hleaf slot).mp hl).1
    rcases (hinner slot).mp hi with rfl | rfl | rfl
    · exact h.last.1 hpt.symm
    · exact h.last.2.1 hpt.symm
    · exact h.last.2.2 hpt.symm
  · intro slot hi
    rcases (hinner slot).mp hi with rfl | rfl | rfl
    · rw [h.leads.pml4.2]
      exact h.notTmp.2.1
    · rw [h.leads.pdp.2]
      exact h.notTmp.2.2.1
    · rw [h.leads.pd.2]
      exact h.notTmp.2.2.2

/-! ## The image -/

/-- The number of a page of the image in its leaf table. -/
def ptIndex (vaddr : ℕ) : ℕ := (vaddr - higherHalf) / pageSize

/-- The indices of the addresses of the image. -/
theorem indices_image {vaddr : ℕ} (hle : higherHalf ≤ vaddr) (hlt : vaddr < higherHalf + 2 ^ 21) :
    indices vaddr = [511, 510, 0, ptIndex vaddr] := by
  rw [higherHalf] at hle hlt
  simp only [indices, ptIndex, higherHalf, pageSize, Nat.shiftRight_eq_div_pow, List.cons.injEq,
    and_true]
  omega

/-- The number of pages of a range of the image. -/
theorem pagesOf_range {first last : ℕ} (hle : higherHalf ≤ first) (hal : first % pageSize = 0)
    (hlt : first < last) (hend : last ≤ higherHalf + 2 ^ 21) :
    ptIndex first + pagesOf (sub64 last first) = ptIndex (align4K last) ∧
      0 < pagesOf (sub64 last first) ∧ ptIndex (align4K last) ≤ 512 := by
  rw [higherHalf, pageSize] at *
  have hlen : last - first + 4096 - 1 < 2 ^ 64 := by omega
  rw [sub64, if_neg (by omega), pagesOf, pageSize, wrap64_of_lt hlen, ptIndex, ptIndex, align4K,
    higherHalf, pageSize]
  omega

/-- The order of the sections, and the entries of the leaf table that they begin with. -/
theorem Layout.Linked.order {l : Layout} (hl : l.Linked) :
    l.dataEnd ≤ higherHalf + 2 ^ 21 ∧ vaddrStart < l.textStart ∧ l.textStart < l.rodataStart ∧
      l.rodataStart < l.dataStart ∧ l.rodataStart % pageSize = 0 ∧ l.dataStart % pageSize = 0 := by
  obtain ⟨hentry, htextStart, htext, hrodataStart, hrodata, hdataStart, hdata, hregion⟩ := hl
  rw [align4K, pageSize] at hrodataStart hdataStart
  rw [vaddrStart, higherHalf] at *
  rw [pageSize] at *
  omega

/-- Pages of the image are numbered in order. -/
theorem ptIndex_lt_iff {u v : ℕ} (hu : higherHalf ≤ u) (hv : higherHalf ≤ v)
    (halu : u % pageSize = 0) (halv : v % pageSize = 0) : ptIndex u < ptIndex v ↔ u < v := by
  rw [ptIndex, ptIndex]
  rw [higherHalf, pageSize] at *
  omega

/-- The calls go through the entries of the leaf table one section after the other. -/
theorem Layout.Linked.rows {l : Layout} (hl : l.Linked) :
    (16 + pagesOf (sub64 l.textStart vaddrStart) = ptIndex l.textStart ∧
      0 < pagesOf (sub64 l.textStart vaddrStart)) ∧
    (ptIndex l.textStart + pagesOf (sub64 l.textEnd l.textStart) = ptIndex l.rodataStart ∧
      0 < pagesOf (sub64 l.textEnd l.textStart)) ∧
    (ptIndex l.rodataStart + pagesOf (sub64 l.rodataEnd l.rodataStart) = ptIndex l.dataStart ∧
      0 < pagesOf (sub64 l.rodataEnd l.rodataStart)) ∧
    (ptIndex l.dataStart + pagesOf (sub64 l.dataEnd l.dataStart) = ptIndex (align4K l.dataEnd) ∧
      0 < pagesOf (sub64 l.dataEnd l.dataStart)) ∧
    ptIndex (align4K l.dataEnd) ≤ 512 := by
  obtain ⟨hbelow, hentry, htext, hrodata, halr, hald⟩ := hl.order
  have hhalf : vaddrStart = higherHalf + 0x10000 := rfl
  have hdata := hl.data
  have htextEnd : l.textEnd ≤ l.rodataStart := by
    rw [hl.rodataStart, align4K, pageSize]
    omega
  have hrodataEnd : l.rodataEnd ≤ l.dataStart := by
    rw [hl.dataStart, align4K, pageSize]
    omega
  have hself : align4K l.textStart = l.textStart := by
    have hal := hl.textStart
    rw [pageSize] at hal
    rw [align4K, pageSize]
    omega
  obtain ⟨h₁, hpos₁, -⟩ := pagesOf_range (show higherHalf ≤ vaddrStart by omega) (by decide)
    hentry (by omega)
  obtain ⟨h₂, hpos₂, -⟩ := pagesOf_range (show higherHalf ≤ l.textStart by omega) hl.textStart
    hl.text (by omega)
  obtain ⟨h₃, hpos₃, -⟩ := pagesOf_range (show higherHalf ≤ l.rodataStart by omega) halr
    hl.rodata (by omega)
  obtain ⟨h₄, hpos₄, hend⟩ := pagesOf_range (show higherHalf ≤ l.dataStart by omega) hald hdata
    hbelow
  rw [hself, show ptIndex vaddrStart = 16 by decide] at h₁
  rw [← hl.rodataStart] at h₂
  rw [← hl.dataStart] at h₃
  exact ⟨⟨h₁, hpos₁⟩, ⟨h₂, hpos₂⟩, ⟨h₃, hpos₃⟩, ⟨h₄, hpos₄⟩, hend⟩

/-- An address is mapped when the entries on its way are present. -/
theorem leads_of_mapped (h : mapped mem root [a, b, c, j] = true) :
    Leads mem root (ptePaddr (mem root a)) (ptePaddr (mem (ptePaddr (mem root a)) b))
      (ptePaddr (mem (ptePaddr (mem (ptePaddr (mem root a)) b)) c)) a b c := by
  have hstep : ∀ {p : PAddr} {i : ℕ} {path : List ℕ}, path ≠ [] → mapped mem p (i :: path) = true →
      present (mem p i) = true ∧ mapped mem (ptePaddr (mem p i)) path = true := by
    intro p i path hpath hm
    by_cases hpres : present (mem p i) = true
    · rw [mapped_cons hpres hpath] at hm
      exact ⟨hpres, hm⟩
    · rw [mapped, Radix.leaf_cons hpath,
        if_neg (show ¬ pageTables.present _ = true from hpres)] at hm
      cases hm
  obtain ⟨hpml4, h⟩ := hstep (List.cons_ne_nil _ _) h
  obtain ⟨hpdp, h⟩ := hstep (List.cons_ne_nil _ _) h
  obtain ⟨hpd, -⟩ := hstep (List.cons_ne_nil _ _) h
  exact ⟨⟨hpml4, rfl⟩, ⟨hpdp, rfl⟩, ⟨hpd, rfl⟩⟩

/-- The permissions of a page behind one leaf table. -/
theorem Leads.perms (h : Leads mem root pdp pd pt a b c) (hpres : present (mem pt j) = true) :
    walkPerms mem root [a, b, c, j] = some
      { writable := writable (mem root a) && writable (mem pdp b) && writable (mem pd c) &&
          writable (mem pt j)
        user := userAccessible (mem root a) && userAccessible (mem pdp b) &&
          userAccessible (mem pd c) && userAccessible (mem pt j)
        noExecute := noExecute (mem root a) || noExecute (mem pdp b) || noExecute (mem pd c) ||
          noExecute (mem pt j) } := by
  have hleaf : pageTables.leaf mem root [a, b, c, j] = some (mem pt j) := by
    rw [Radix.leaf, (h.walk j).2.2]
    exact if_pos (show pageTables.present _ = true from hpres)
  rw [walkPerms, hleaf, (h.walk j).1]
  simp only [Option.map_some, List.all_cons, List.all_nil, List.any_cons, List.any_nil,
    Bool.and_true, Bool.or_false, Bool.and_assoc, Bool.or_assoc]

/-- The tables of the image, when it is mapped through four tables. -/
theorem row_of_mapped {s : VmState} {stop : ℕ} (hstop : vaddrStart < stop)
    (hbelow : stop ≤ higherHalf + 2 ^ 21)
    (hmapped : ∀ vaddr, IsPage vaddr → vaddrStart ≤ vaddr → vaddr < stop →
      (s.leaf tmpPaddr root vaddr).isSome = true)
    (htables : (tmpPaddr :: (s.slots tmpPaddr root vaddrStart).map Prod.fst).Nodup) :
    ∃ pdp pd pt, Row tmpPaddr (s.tables tmpPaddr) root pdp pd pt 511 510 0 ∧
      Filled (s.tables tmpPaddr) pt 16 (ptIndex (align4K stop) - 16) := by
  have hindices : indices vaddrStart = [511, 510, 0, 16] := by decide
  have hstart := hmapped vaddrStart ⟨by decide, by decide, by decide⟩ le_rfl hstop
  rw [VmState.leaf, hindices] at hstart
  have hleads := leads_of_mapped hstart
  rw [VmState.slots, hindices, (hleads.walk 16).1] at htables
  simp only [List.map_cons, List.map_nil, List.nodup_cons, List.mem_cons, List.not_mem_nil,
    or_false, not_or] at htables
  obtain ⟨⟨hroot, hpdp, hpd, hpt⟩, ⟨-, -, hlast₁⟩, ⟨-, hlast₂⟩, hlast₃, -⟩ := htables
  refine ⟨_, _, _, ⟨hleads, by decide, ⟨Ne.symm hroot, Ne.symm hpdp, Ne.symm hpd, Ne.symm hpt⟩,
    Ne.symm hlast₁, Ne.symm hlast₂, Ne.symm hlast₃⟩, fun j hj hlt => ?_⟩
  have hvaddr : higherHalf + j * pageSize < stop := by
    rw [ptIndex, align4K, higherHalf, pageSize] at *
    omega
  have hle : vaddrStart ≤ higherHalf + j * pageSize := by
    rw [vaddrStart, pageSize]
    omega
  have hpage : IsPage (higherHalf + j * pageSize) := by
    rw [higherHalf, pageSize] at *
    refine ⟨by omega, (canonical_iff (by omega)).mpr (.inr (by omega)), ?_⟩
    rw [pageSize]
    omega
  have hleaf := hmapped _ hpage hle hvaddr
  have hindex : ptIndex (higherHalf + j * pageSize) = j := by
    rw [ptIndex, Nat.add_sub_cancel_left, Nat.mul_div_cancel _ (by decide)]
  rw [VmState.leaf, indices_image (Nat.le_add_right _ _) (by omega), hindex] at hleaf
  exact (hleads.mapped_iff j).symm.trans hleaf

/-! ## The calls -/

/-- The image is mapped up to an entry of its leaf table, and the window is in order. -/
structure Ready (tmpPaddr root pdp pd pt : PAddr) (last : ℕ) (s : VmState) : Prop where
  window : WindowOk s.tmpPt s.firstFreeTmpIndex
  row : Row tmpPaddr (s.tables tmpPaddr) root pdp pd pt 511 510 0
  filled : Filled (s.tables tmpPaddr) pt 16 (last - 16)
  last : last ≤ 512

/-- A range of the image that `kernel_remap` passes on. -/
structure InImage (start stop last : ℕ) : Prop where
  aligned : start % pageSize = 0
  above : vaddrStart ≤ start
  below : start < higherHalf + 2 ^ 21
  pos : 0 < pagesOf (sub64 stop start)
  fit : ptIndex start + pagesOf (sub64 stop start) ≤ last

section Calls

variable {s s' : VmState} {start stop last : ℕ} (h : Ready tmpPaddr root pdp pd pt last s)
  (himage : InImage start stop last)

include himage in
theorem InImage.indices : indices start = [511, 510, 0, ptIndex start] ∧ 16 ≤ ptIndex start := by
  have habove := himage.above
  have hhalf : vaddrStart = higherHalf + 0x10000 := rfl
  refine ⟨indices_image (by omega) himage.below, ?_⟩
  rw [ptIndex, pageSize]
  omega

include h himage in
theorem Ready.part :
    Filled (s.tables tmpPaddr) pt (ptIndex start) (pagesOf (sub64 stop start)) := by
  have hfit := himage.fit
  have hfirst := himage.indices.2
  exact h.filled.part hfirst (by omega)

include h himage in
/-- **One call of `kernel_remap`.** -/
theorem Ready.remap (hok : remap tmpPaddr root start stop flags s = .ok ((), s')) :
    Ready tmpPaddr root pdp pd pt last s' ∧
      RowFlagged flags (s.tables tmpPaddr) (s'.tables tmpPaddr) root pdp pd pt 511 510 0
        (ptIndex start) (pagesOf (sub64 stop start)) := by
  obtain ⟨res, s₁, hcall, hcheck⟩ := bind_eq_ok_iff.mp hok
  obtain ⟨-, rfl⟩ := check_eq_ok_iff.mp hcheck
  have hflag : call root (vmFlagPages (kernel tmpPaddr) (.table root) start
      (pagesOf (sub64 stop start)) flags) s = .ok (res, s') := by
    obtain ⟨_, s₂, hcheck₂, hrest⟩ := bind_eq_ok_iff.mp hcall
    obtain ⟨-, rfl⟩ := check_eq_ok_iff.mp hcheck₂
    obtain ⟨_, s₃, hcheck₃, hrest⟩ := bind_eq_ok_iff.mp hrest
    obtain ⟨-, rfl⟩ := check_eq_ok_iff.mp hcheck₃
    exact hrest
  have hindices := himage.indices.1
  have hfit := himage.fit.trans h.last
  have hpre := h.row.flagPre himage.pos hfit (h.part himage)
  rw [← hindices] at hpre
  have heffect := flag_of_call h.window h.row.notTmp.1 hpre hflag
  have hflagged := h.row.flagged himage.pos hfit (h.part himage) hindices heffect.flagged
  refine ⟨⟨?_, h.row.congr hflagged.shape, h.filled.congr hflagged.shape, h.last⟩, hflagged⟩
  rw [heffect.tmpPt_eq, heffect.first_eq]
  exact h.window

include h himage in
/-- A call of `kernel_remap` returns when the window has room. -/
theorem Ready.remap_returns (flags : Flags) (hroom : Room 3 s.tmpPt)
    (huser : isFlagUnset flags vmFlagUser = true) :
    ∃ s', Image.remap tmpPaddr root start stop flags s = .ok ((), s') ∧ s'.tmpPt = s.tmpPt := by
  have hindices := himage.indices.1
  have hfit := himage.fit.trans h.last
  have hpre := h.row.flagPre himage.pos hfit (h.part himage)
  have hmapped := h.row.mapped hfit (h.part himage)
  rw [← hindices] at hpre hmapped
  obtain ⟨res, s', hflag⟩ : ∃ res s', call root (vmFlagPages (kernel tmpPaddr) (.table root) start
      (pagesOf (sub64 stop start)) flags) s = .ok (res, s') :=
    flag_returns h.window hroom h.row.notTmp.1 himage.aligned himage.pos hpre
  have heffect := flag_of_call h.window h.row.notTmp.1 hpre hflag
  have hres : res = success := by
    rcases heffect.status with ⟨hres, -⟩ | ⟨-, hnot⟩
    · exact hres
    · exact absurd hmapped hnot
  have hkvaddr : isKvaddr start = true := by
    have habove := himage.above
    rw [vaddrStart, higherHalf] at habove
    rw [isKvaddr, decide_eq_true_eq, layoutHeapStart]
    omega
  refine ⟨s', ?_, heffect.tmpPt_eq⟩
  have hcall : call root (vmkFlagRange (kernel tmpPaddr) (.table root) start stop flags) s =
      .ok (res, s') :=
    bind_eq_ok_iff.mpr ⟨(), _, check_eq_ok_iff.mpr ⟨huser, rfl⟩,
      bind_eq_ok_iff.mpr ⟨(), _, check_eq_ok_iff.mpr ⟨hkvaddr, rfl⟩, hflag⟩⟩
  exact bind_eq_ok_iff.mpr ⟨res, s', hcall,
    check_eq_ok_iff.mpr ⟨decide_eq_true hres, rfl⟩⟩

end Calls

/-- The ranges that `kernel_remap` passes on. -/
theorem Layout.Linked.inImage {l : Layout} (hl : l.Linked) :
    InImage vaddrStart l.textStart (ptIndex (align4K l.dataEnd)) ∧
      InImage l.textStart l.textEnd (ptIndex (align4K l.dataEnd)) ∧
      InImage l.rodataStart l.rodataEnd (ptIndex (align4K l.dataEnd)) ∧
      InImage l.dataStart l.dataEnd (ptIndex (align4K l.dataEnd)) := by
  obtain ⟨hbelow, hentry, htext, hrodata, halr, hald⟩ := hl.order
  obtain ⟨⟨hrow₁, hpos₁⟩, ⟨hrow₂, hpos₂⟩, ⟨hrow₃, hpos₃⟩, ⟨hrow₄, hpos₄⟩, hend⟩ := hl.rows
  have hdata := hl.data
  have hstart : ptIndex vaddrStart = 16 := by decide
  exact ⟨⟨by decide, le_rfl, by omega, hpos₁, by omega⟩,
    ⟨hl.textStart, by omega, by omega, hpos₂, by omega⟩,
    ⟨halr, by omega, by omega, hpos₃, by omega⟩, ⟨hald, by omega, by omega, hpos₄, by omega⟩⟩

/-- An image that is mapped is ready to be remapped. -/
theorem Layout.Linked.ready {l : Layout} (hl : l.Linked) {s : VmState}
    (hwin : WindowOk s.tmpPt s.firstFreeTmpIndex)
    (hmapped : ∀ vaddr, IsPage vaddr → vaddrStart ≤ vaddr → vaddr < l.dataEnd →
      (s.leaf tmpPaddr root vaddr).isSome = true)
    (htables : (tmpPaddr :: (s.slots tmpPaddr root vaddrStart).map Prod.fst).Nodup) :
    ∃ pdp pd pt, Ready tmpPaddr root pdp pd pt (ptIndex (align4K l.dataEnd)) s := by
  obtain ⟨hbelow, hentry, htext, hrodata, -⟩ := hl.order
  have hdata := hl.data
  obtain ⟨pdp, pd, pt, hrow, hfilled⟩ := row_of_mapped (by omega) hbelow hmapped htables
  exact ⟨pdp, pd, pt, hwin, hrow, hfilled, hl.rows.2.2.2.2⟩

/-- `kernel_remap` returns when the window has room. -/
theorem kernelRemap_returns {l : Layout} (hl : l.Linked) {s : VmState}
    (hwin : WindowOk s.tmpPt s.firstFreeTmpIndex) (hroom : Room 3 s.tmpPt)
    (hmapped : ∀ vaddr, IsPage vaddr → vaddrStart ≤ vaddr → vaddr < l.dataEnd →
      (s.leaf tmpPaddr root vaddr).isSome = true)
    (htables : (tmpPaddr :: (s.slots tmpPaddr root vaddrStart).map Prod.fst).Nodup) :
    ∃ s', kernelRemap tmpPaddr root l s = .ok ((), s') := by
  obtain ⟨pdp, pd, pt, hready⟩ := hl.ready hwin hmapped htables
  obtain ⟨hin₁, hin₂, hin₃, hin₄⟩ := hl.inImage
  obtain ⟨s₁, hok₁, htmp₁⟩ := hready.remap_returns hin₁ (vmFlagRead ||| vmFlagWritable) hroom
    (by decide)
  have hready₁ := (hready.remap hin₁ hok₁).1
  rw [← htmp₁] at hroom
  obtain ⟨s₂, hok₂, htmp₂⟩ := hready₁.remap_returns hin₂ (vmFlagRead ||| vmFlagExecutable)
    hroom (by decide)
  have hready₂ := (hready₁.remap hin₂ hok₂).1
  rw [← htmp₂] at hroom
  obtain ⟨s₃, hok₃, htmp₃⟩ := hready₂.remap_returns hin₃ vmFlagRead hroom (by decide)
  have hready₃ := (hready₂.remap hin₃ hok₃).1
  rw [← htmp₃] at hroom
  obtain ⟨s₄, hok₄, -⟩ := hready₃.remap_returns hin₄ (vmFlagRead ||| vmFlagWritable) hroom
    (by decide)
  exact ⟨s₄, bind_eq_ok_iff.mpr ⟨_, _, hok₁, bind_eq_ok_iff.mpr ⟨_, _, hok₂,
    bind_eq_ok_iff.mpr ⟨_, _, hok₃, hok₄⟩⟩⟩⟩

/-- **The sections of the kernel get their permissions.** -/
theorem kernelRemap_perms {l : Layout} (hl : l.Linked) {s s' : VmState}
    (hwin : WindowOk s.tmpPt s.firstFreeTmpIndex)
    (hmapped : ∀ vaddr, IsPage vaddr → vaddrStart ≤ vaddr → vaddr < l.dataEnd →
      (s.leaf tmpPaddr root vaddr).isSome = true)
    (htables : (tmpPaddr :: (s.slots tmpPaddr root vaddrStart).map Prod.fst).Nodup)
    (hok : kernelRemap tmpPaddr root l s = .ok ((), s')) {vaddr : ℕ} (hpage : IsPage vaddr)
    (hfirst : vaddrStart ≤ vaddr) (hlast : vaddr < l.dataEnd) :
    s'.perms tmpPaddr root vaddr = some (l.perms vaddr) ∧
      (s'.leaf tmpPaddr root vaddr).map ptePaddr = (s.leaf tmpPaddr root vaddr).map ptePaddr := by
  obtain ⟨hbelow, hentry, htext, hrodata, halr, hald⟩ := hl.order
  obtain ⟨⟨hrow₁, hpos₁⟩, ⟨hrow₂, hpos₂⟩, ⟨hrow₃, hpos₃⟩, ⟨hrow₄, hpos₄⟩, hend⟩ := hl.rows
  have hhalf : vaddrStart = higherHalf + 0x10000 := rfl
  have hdata := hl.data
  obtain ⟨pdp, pd, pt, hready⟩ := hl.ready hwin hmapped htables
  obtain ⟨hin₁, hin₂, hin₃, hin₄⟩ := hl.inImage
  -- the four calls
  obtain ⟨_, s₁, hok₁, hok⟩ := bind_eq_ok_iff.mp hok
  obtain ⟨_, s₂, hok₂, hok⟩ := bind_eq_ok_iff.mp hok
  obtain ⟨_, s₃, hok₃, hok₄⟩ := bind_eq_ok_iff.mp hok
  obtain ⟨hready₁, hflag₁⟩ := hready.remap hin₁ hok₁
  obtain ⟨hready₂, hflag₂⟩ := hready₁.remap hin₂ hok₂
  obtain ⟨hready₃, hflag₃⟩ := hready₂.remap hin₃ hok₃
  obtain ⟨hready₄, hflag₄⟩ := hready₃.remap hin₄ hok₄
  have hshape₄ := ((hflag₁.shape.trans hflag₂.shape).trans hflag₃.shape).trans hflag₄.shape
  have hleads := hready₄.row.leads
  -- the entry of the page
  have hbound : 16 ≤ ptIndex vaddr ∧ ptIndex vaddr < ptIndex (align4K l.dataEnd) := by
    have hal := hpage.2.2
    rw [ptIndex, ptIndex, align4K]
    rw [vaddrStart, higherHalf] at *
    rw [pageSize] at *
    omega
  have hpres := hready₄.filled (ptIndex vaddr) hbound.1 (by omega)
  have hindices : indices vaddr = [511, 510, 0, ptIndex vaddr] :=
    indices_image (by omega) (by omega)
  have hlt₁ := ptIndex_lt_iff (u := vaddr) (v := l.textStart) (by omega) (by omega) hpage.2.2
    hl.textStart
  have hlt₂ := ptIndex_lt_iff (u := vaddr) (v := l.rodataStart) (by omega) (by omega) hpage.2.2 halr
  have hlt₃ := ptIndex_lt_iff (u := vaddr) (v := l.dataStart) (by omega) (by omega) hpage.2.2 hald
  have hleaf : s'.tables tmpPaddr pt (ptIndex vaddr) =
      setPte (ptePaddr (s.tables tmpPaddr pt (ptIndex vaddr))) (l.flags vaddr) := by
    have hentry₁ := hflag₁.pt (ptIndex vaddr)
    have hentry₂ := hflag₂.pt (ptIndex vaddr)
    have hentry₃ := hflag₃.pt (ptIndex vaddr)
    have hentry₄ := hflag₄.pt (ptIndex vaddr)
    rw [show ptIndex vaddrStart = 16 by decide, hrow₁] at hentry₁
    rw [hrow₂] at hentry₂
    rw [hrow₃] at hentry₃
    rw [hrow₄] at hentry₄
    rw [Layout.flags]
    by_cases hsec₁ : vaddr < l.textStart
    · rw [if_pos hsec₁, hentry₄, if_neg (by omega), hentry₃, if_neg (by omega), hentry₂,
        if_neg (by omega), hentry₁, if_pos (by omega)]
    · rw [if_neg hsec₁]
      by_cases hsec₂ : vaddr < l.rodataStart
      · rw [if_pos hsec₂, hentry₄, if_neg (by omega), hentry₃, if_neg (by omega), hentry₂,
          if_pos (by omega), hentry₁, if_neg (by omega)]
      · rw [if_neg hsec₂]
        by_cases hsec₃ : vaddr < l.dataStart
        · rw [if_pos hsec₃, hentry₄, if_neg (by omega), hentry₃, if_pos (by omega), hentry₂,
            if_neg (by omega), hentry₁, if_neg (by omega)]
        · rw [if_neg hsec₃, hentry₄, if_pos (by omega), hentry₃, if_neg (by omega), hentry₂,
            if_neg (by omega), hentry₁, if_neg (by omega)]
  constructor
  · rw [VmState.perms, hindices, hleads.perms hpres, hflag₄.pml4, hflag₄.pdp, hflag₄.pd, hleaf]
    simp only [writable_reflag, userAccessible_reflag, noExecute_reflag, writable_setPte,
      userAccessible_setPte, noExecute_setPte, Layout.flags, Layout.perms]
    split_ifs <;> rfl
  · have hleaf₀ := (hleads.congr hshape₄.symm).walk (ptIndex vaddr)
    rw [VmState.leaf, VmState.leaf, hindices, Radix.leaf, Radix.leaf,
      (hleads.walk (ptIndex vaddr)).2.2, hleaf₀.2.2]
    have hpres₀ := hready.filled (ptIndex vaddr) hbound.1 (by omega)
    show (pageTables.entry (s'.tables tmpPaddr) (pt, ptIndex vaddr)).map ptePaddr =
      (pageTables.entry (s.tables tmpPaddr) (pt, ptIndex vaddr)).map ptePaddr
    rw [Radix.entry, Radix.entry, if_pos (show pageTables.present _ = true from hpres),
      if_pos (show pageTables.present _ = true from hpres₀), Option.map_some, Option.map_some,
      hleaf, ptePaddr_setPte, ptePaddr_ptePaddr]

/-! ### A small image -/

/-- An image of five pages, two of them data. -/
def smallLayout : Layout where
  textStart := higherHalf + 0x11000
  textEnd := higherHalf + 0x11800
  rodataStart := higherHalf + 0x12000
  rodataEnd := higherHalf + 0x12010
  dataStart := higherHalf + 0x13000
  dataEnd := higherHalf + 0x14800

/-- Tables behind the image, as the boot enters them: the tables for the lower half of the
address space serve for the upper half as well. -/
def smallTables : Tables := fun p i =>
  if p = 0x21000#64 ∧ (i = 0 ∨ i = 511) then 0x22003#64
  else if p = 0x22000#64 ∧ (i = 0 ∨ i = 510) then 0x23003#64
  else if p = 0x23000#64 ∧ i = 0 then 0x24003#64
  else if p = 0x24000#64 ∧ 16 ≤ i ∧ i < 37 then BitVec.ofNat 64 (i * 0x1000 + 3)
  else 0#64

/-- The state after `vm_init`, with `tmp_pt` among the data of the image. -/
def smallState : VmState := vmInit 0x13000#64 0x21000#64
  { mem := smallTables, tmpPt := fun _ => 0#64, firstFreeTmpIndex := 0, frames := [], tlb := [],
    opened := [] }

/-- The pages of the small image get their permissions. -/
theorem kernelRemap_small : ∃ s', kernelRemap 0x13000#64 0x21000#64 smallLayout smallState =
      .ok ((), s') ∧
    s'.perms 0x13000#64 0x21000#64 (higherHalf + 0x11000) =
      some { writable := false, user := false, noExecute := false } := by
  have hlinked : smallLayout.Linked := by constructor <;> decide
  have hmapped : ∀ vaddr, IsPage vaddr → vaddrStart ≤ vaddr → vaddr < smallLayout.dataEnd →
      (smallState.leaf 0x13000#64 0x21000#64 vaddr).isSome = true := by
    intro vaddr hpage hfirst hlast
    have hle : higherHalf ≤ vaddr := le_trans (by decide) hfirst
    have hlt : vaddr < higherHalf + 2 ^ 21 := lt_of_lt_of_le hlast (by decide)
    have hindex : 16 ≤ ptIndex vaddr ∧ ptIndex vaddr < 21 := by
      obtain ⟨k, rfl⟩ := Nat.exists_eq_add_of_le hfirst
      have hk : k < 0x4800 := Nat.lt_of_add_lt_add_left (n := vaddrStart) hlast
      rw [ptIndex, show vaddrStart + k - higherHalf = 0x10000 + k by
        rw [vaddrStart, Nat.add_right_comm, Nat.add_sub_cancel], pageSize]
      omega
    rw [VmState.leaf, indices_image hle hlt]
    generalize ptIndex vaddr = j at hindex
    obtain ⟨hle, hlt⟩ := hindex
    interval_cases j <;> decide +kernel
  have htables : (0x13000#64 ::
      (smallState.slots 0x13000#64 0x21000#64 vaddrStart).map Prod.fst).Nodup := by
    decide +kernel
  obtain ⟨s', hok⟩ := kernelRemap_returns hlinked (window_vmInit _ _).1 (window_vmInit _ _).2
    hmapped htables
  have hsection : smallLayout.perms (higherHalf + 0x11000) =
      { writable := false, user := false, noExecute := false } := by decide
  refine ⟨s', hok, ?_⟩
  rw [← hsection]
  exact (kernelRemap_perms hlinked (window_vmInit _ _).1 hmapped htables hok
    ⟨by decide, by decide, by decide⟩ (by decide) (by decide)).1

end Mimik.Image
