/-
# When reflagging is exact

`recurse_flag` starts in every table at the indices of the first page, so that the pages it
visits are the first ones of a box (`Radix.box`).  They are those of the range when the
range is in order; for a range that crosses the end of a table from its middle they are not.
Then `vm_flag_pages` still does what it is asked for in one case: every page that it visits
instead is mapped and has the permissions asked for already, and so does every page of the
range that it leaves out (`flag_exact_iff`).
-/
import Mimik.VmFlag
import Mimik.VmFindSpace
import Mimik.VmMapExact
import Mimik.VmSparse

namespace Mimik.Vm

open FaultState

variable {tmpPaddr root : PAddr} {s s' : VmState} {vaddr pages u : ℕ} {flags : Flags}
  {path : List ℕ} {mem mem' : Tables} {paths : List (List ℕ)} {e : Pte}

/-! ## The pages of paths -/

/-- The digits of the number of a path are the path. -/
theorem digits_lin {height : ℕ} (hlen : path.length = height + 1) (hidx : ∀ i ∈ path, i < 512) :
    digits height (lin path) = path := by
  induction height generalizing path with
  | zero =>
    obtain ⟨i, rfl⟩ := List.length_eq_one_iff.mp hlen
    simp [lin, digits]
  | succ height ih =>
    obtain ⟨i, path, rfl⟩ := List.exists_cons_of_length_eq_add_one hlen
    have hlen' : path.length = height + 1 := by simpa using hlen
    have hidx' : ∀ j ∈ path, j < 512 := fun j hj => hidx j (List.mem_cons_of_mem i hj)
    have hlt := lin_lt hidx'
    rw [hlen'] at hlt
    rw [lin, hlen', digits_add height hlt, ih hlen' hidx']

/-- Every path is that of a page. -/
theorem exists_page (h : IsPath path) : ∃ u, IsPage u ∧ indices u = path := by
  have hlt := lin_lt h.2
  rw [h.1] at hlt
  have hnumber : ∀ {u}, pageNumber u = lin path → indices u = path := by
    intro u hu
    rw [indices_eq_digits, hu, digits_lin h.1 h.2]
  by_cases hlow : lin path < 2 ^ 35
  · have hsmall : lin path * 4096 < 2 ^ 64 := by omega
    refine ⟨lin path * 4096, ⟨hsmall, ?_, Nat.mul_mod_left _ _⟩, hnumber ?_⟩
    · rw [canonical_iff hsmall]
      omega
    · rw [pageNumber, pageSize]
      omega
  · have hsmall : lin path * 4096 + (2 ^ 64 - 2 ^ 48) < 2 ^ 64 := by omega
    refine ⟨lin path * 4096 + (2 ^ 64 - 2 ^ 48), ⟨hsmall, ?_, ?_⟩, hnumber ?_⟩
    · rw [canonical_iff hsmall]
      omega
    · rw [pageSize]
      omega
    · rw [pageNumber, pageSize]
      omega

/-- The path of an address. -/
theorem isPath_indices (vaddr : ℕ) : IsPath (indices vaddr) := ⟨rfl, fun _ hi => indices_lt hi⟩

/-! ## Leaf entries of flagged tables -/

/-- A leaf entry that is flagged. -/
theorem leaf_flagged (h : Flagged flags (InnerOf mem root paths) (LeafOf mem root paths) mem mem')
    (hmem : path ∈ paths) (hslot : pageTables.leafSlot mem root path =
      pageTables.leafSlot mem root (indices u))
    (hleaf : pageTables.leaf mem root (indices u) = some e) :
    pageTables.leaf mem' root (indices u) = some (setPte (ptePaddr e) flags) := by
  obtain ⟨slot, hu, hpres, rfl⟩ := Radix.leaf_eq_some_iff.mp hleaf
  have hflagged := h.onLeaf slot ⟨path, hmem, hslot.trans hu, hpres⟩
  refine Radix.leaf_eq_some_iff.mpr ⟨slot, ?_, present_setPte _ _, hflagged⟩
  rw [h.sameShape.leafSlot]
  exact hu

/-- A leaf entry that is not: it is neither the leaf entry of another page that is flagged nor,
with tables of one level each, an entry on the way to one. -/
theorem leaf_not_flagged
    (h : Flagged flags (InnerOf mem root paths) (LeafOf mem root paths) mem mem')
    (hinner : ∀ slot, InnerOf mem root paths slot → ¬ pageTables.At mem root 3 slot.1)
    (hother : ∀ path ∈ paths, mapped mem root path = true →
      pageTables.leafSlot mem root path ≠ pageTables.leafSlot mem root (indices u)) :
    pageTables.leaf mem' root (indices u) = pageTables.leaf mem root (indices u) := by
  rw [Radix.leaf, Radix.leaf, h.sameShape.leafSlot]
  cases hslot : pageTables.leafSlot mem root (indices u) with
  | none => rfl
  | some slot =>
    have hat := (Radix.At.root.leafSlot (isPath_indices u).2 hslot).1
    have hkept : mem' slot.1 slot.2 = mem slot.1 slot.2 := by
      apply h.other slot
      · exact fun hslot => hinner slot hslot hat
      · rintro ⟨path, hpath, hleaf, hpres⟩
        refine hother path hpath ?_ (hleaf.trans hslot.symm)
        rw [mapped, Radix.leaf_eq_some_iff.mpr ⟨slot, hleaf, hpres, rfl⟩]
        rfl
    show pageTables.entry mem' slot = pageTables.entry mem slot
    rw [Radix.entry, Radix.entry, hkept]

/-- Tables that do not lead to `tmp_pt` do not start with it. -/
theorem root_ne_of_clear (hclear : ¬ LeadsToWindow tmpPaddr s.tmpPt s.mem root) :
    root ≠ tmpPaddr := by
  rintro rfl
  exact hclear ⟨0, by omega, .root⟩

/-- No entry on the way to a page leads there. -/
theorem avoid_of_clear (hclear : ¬ LeadsToWindow tmpPaddr s.tmpPt s.mem root)
    (hpaths : ∀ path ∈ paths, IsPath path) {slot : PAddr × ℕ}
    (hslot : InnerOf (s.tables tmpPaddr) root paths slot) :
    ptePaddr (s.tables tmpPaddr slot.1 slot.2) ≠ tmpPaddr := by
  obtain ⟨path, hpath, hslot, hpres⟩ := hslot
  obtain ⟨hlen, hidx⟩ := hpaths path hpath
  obtain ⟨m, -, hm, hat, hlt⟩ := Radix.At.root.slots
    (fun i hi => hidx i (List.mem_of_mem_dropLast hi)) hslot
  rw [List.length_dropLast, hlen] at hm
  intro heq
  have hnext : pageTables.At (s.tables tmpPaddr) root (m + 1) _ := hat.step hlt hpres
  rw [show pageTables.next (s.tables tmpPaddr slot.1 slot.2) = tmpPaddr from heq] at hnext
  exact hclear ⟨m + 1, by omega, hnext⟩

/-! ## The range and the pages visited -/

/-- The paths that `vm_flag_pages` visits, as far as they are mapped. -/
def flagPaths (vaddr pages : ℕ) : List (List ℕ) := (Radix.box 512 (indices vaddr)).take pages

theorem isPath_of_mem_flagPaths (h : path ∈ flagPaths vaddr pages) : IsPath path :=
  Radix.of_mem_box (List.mem_of_mem_take h)

/-- The leaf entry of a path is mapped as the flags ask. -/
def FlagSettled (flags : Flags) (mem : Tables) (root : PAddr) (path : List ℕ) : Prop :=
  ∃ e, pageTables.leaf mem root path = some e ∧ setPte (ptePaddr e) flags = e

/-- What exact reflagging means: the leaf entry of each page of the range keeps its frame and
has the permissions asked for, and the leaf entry of every other page is as it was. -/
def FlagsExactly (tmpPaddr root : PAddr) (s s' : VmState) (vaddr pages : ℕ) (flags : Flags) :
    Prop :=
  (∀ k < pages, ∃ e, s.leaf tmpPaddr root (vaddr + k * pageSize) = some e ∧
    s'.leaf tmpPaddr root (vaddr + k * pageSize) = some (setPte (ptePaddr e) flags)) ∧
  ∀ u, IsPage u → (∀ k < pages, u ≠ vaddr + k * pageSize) →
    s'.leaf tmpPaddr root u = s.leaf tmpPaddr root u

/-- The pages of the range are mapped. -/
def RangeMapped (tmpPaddr root : PAddr) (s : VmState) (vaddr pages : ℕ) : Prop :=
  ∀ k < pages, IsPage (vaddr + k * pageSize) ∧
    ∃ e, s.leaf tmpPaddr root (vaddr + k * pageSize) = some e

/-- No other page has the leaf entry of a page of the range. -/
def LeafUnshared (tmpPaddr root : PAddr) (s : VmState) (vaddr pages : ℕ) : Prop :=
  ∀ u, IsPage u → ∀ k < pages,
    s.leafSlot tmpPaddr root u = s.leafSlot tmpPaddr root (vaddr + k * pageSize) →
      u = vaddr + k * pageSize

/-- The pages that are visited are those of the range, up to pages that are mapped with the
permissions asked for already. -/
structure VisitsRange (tmpPaddr root : PAddr) (s : VmState) (vaddr pages : ℕ) (flags : Flags) :
    Prop where
  mapped : ∀ path ∈ flagPaths vaddr pages, mapped (s.tables tmpPaddr) root path = true
  range : ∀ k < pages, indices (vaddr + k * pageSize) ∈ flagPaths vaddr pages ∨
    FlagSettled flags (s.tables tmpPaddr) root (indices (vaddr + k * pageSize))
  other : ∀ path ∈ flagPaths vaddr pages, (∀ k < pages, path ≠ indices (vaddr + k * pageSize)) →
    FlagSettled flags (s.tables tmpPaddr) root path

/-- A range in order that is mapped is what is visited. -/
theorem visitsRange_of_inOrder (hpage : IsPage vaddr) (hhalf : InHalf vaddr pages)
    (horder : InOrder pages (indices vaddr)) (hmapped : RangeMapped tmpPaddr root s vaddr pages) :
    VisitsRange tmpPaddr root s vaddr pages flags := by
  have hpaths : flagPaths vaddr pages =
      (List.range pages).map fun k => indices (vaddr + k * pageSize) :=
    take_box_indices hpage hhalf horder
  have hmem : ∀ {path}, path ∈ flagPaths vaddr pages →
      ∃ k < pages, path = indices (vaddr + k * pageSize) := by
    intro path hpath
    rw [hpaths] at hpath
    obtain ⟨k, hk, rfl⟩ := List.mem_map.mp hpath
    exact ⟨k, List.mem_range.mp hk, rfl⟩
  refine ⟨fun path hpath => ?_, fun k hk => .inl ?_, fun path hpath hout => ?_⟩
  · obtain ⟨k, hk, rfl⟩ := hmem hpath
    obtain ⟨-, e, he⟩ := hmapped k hk
    rw [Vm.mapped, show pageTables.leaf (s.tables tmpPaddr) root _ = some e from he]
    rfl
  · rw [hpaths]
    exact List.mem_map_of_mem (List.mem_range.mpr hk)
  · obtain ⟨k, hk, heq⟩ := hmem hpath
    exact absurd heq (hout k hk)

/-- **When reflagging is exact.**  For a range of mapped pages, whose leaf entries no other
page has, `vm_flag_pages` returns `SUCCESS` and reflags exactly the range if and only if the
pages it visits are those of the range, up to pages that are mapped with the permissions
asked for already. -/
theorem flag_exact_iff (hwin : WindowOk s.tmpPt s.firstFreeTmpIndex) (hroom : Room 3 s.tmpPt)
    (hclear : ¬ LeadsToWindow tmpPaddr s.tmpPt s.mem root)
    (hordered : Ordered tmpPaddr s.tmpPt root s.mem []) (hpages : 0 < pages)
    (hmapped : RangeMapped tmpPaddr root s vaddr pages)
    (hunshared : LeafUnshared tmpPaddr root s vaddr pages) :
    (∃ s', call root (vmFlagPages (kernel tmpPaddr) (.table root) vaddr pages flags) s =
        .ok (success, s') ∧ FlagsExactly tmpPaddr root s s' vaddr pages flags) ↔
      VisitsRange tmpPaddr root s vaddr pages flags := by
  have hal : vaddr % pageSize = 0 := by
    have hfirst := (hmapped 0 hpages).1.2.2
    rwa [Nat.zero_mul, Nat.add_zero] at hfirst
  have hroot : root ≠ tmpPaddr := root_ne_of_clear hclear
  have havoid : ∀ {paths}, (∀ path ∈ paths, IsPath path) → ∀ slot,
      InnerOf (s.tables tmpPaddr) root paths slot →
      ptePaddr (s.tables tmpPaddr slot.1 slot.2) ≠ tmpPaddr := fun hpaths _ =>
    avoid_of_clear hclear hpaths
  have hinner : ∀ slot, InnerOf (s.tables tmpPaddr) root (flagPaths vaddr pages) slot →
      ¬ TableAt tmpPaddr s.tmpPt root s.mem 3 slot.1 := fun _ hslot =>
    hordered.inner_not_leaf hroot (fun _ => isPath_of_mem_flagPaths)
      (havoid fun _ => isPath_of_mem_flagPaths) hslot
  have hpre : FlagPre tmpPaddr (s.tables tmpPaddr) root (Radix.box 512 (indices vaddr)) pages :=
    hordered.flagPre hroot (havoid fun _ => path_of_mem_reached)
  -- what a call that succeeds makes of the leaf entries
  have heffect : ∀ {s'},
    call root (vmFlagPages (kernel tmpPaddr) (.table root) vaddr pages flags) s =
      .ok (success, s') → (∀ path ∈ flagPaths vaddr pages, mapped (s.tables tmpPaddr) root path =
        true) ∧ Flagged flags (InnerOf (s.tables tmpPaddr) root (flagPaths vaddr pages))
          (LeafOf (s.tables tmpPaddr) root (flagPaths vaddr pages)) (s.tables tmpPaddr)
          (s'.tables tmpPaddr) := by
    intro s' hok
    have heff := flag_of_call hwin hroot hpre hok
    rcases heff.status with ⟨-, hall⟩ | ⟨hres, -⟩
    · have hflagged := heff.flagged
      rw [reached_eq_self hall] at hflagged
      exact ⟨hall, hflagged⟩
    · exact absurd hres (by decide)
  -- a page of the range that is visited under another name is visited
  have hsame : ∀ k < pages, ∀ path ∈ flagPaths vaddr pages,
      pageTables.leafSlot (s.tables tmpPaddr) root path =
        pageTables.leafSlot (s.tables tmpPaddr) root (indices (vaddr + k * pageSize)) →
      path = indices (vaddr + k * pageSize) := by
    intro k hk path hpath hslot
    obtain ⟨u, hu, rfl⟩ := exists_page (isPath_of_mem_flagPaths hpath)
    rw [hunshared u hu k hk hslot]
  constructor
  · rintro ⟨s', hok, hrange, hother⟩
    obtain ⟨hall, hflagged⟩ := heffect hok
    refine ⟨hall, fun k hk => ?_, fun path hpath hout => ?_⟩
    · rw [or_iff_not_imp_left]
      intro hmiss
      obtain ⟨e, he, he'⟩ := hrange k hk
      have hkept := leaf_not_flagged hflagged hinner
        (fun path hpath _ hslot => hmiss (hsame k hk path hpath hslot ▸ hpath))
      replace hkept : s'.leaf tmpPaddr root _ = s.leaf tmpPaddr root _ := hkept
      rw [he, he', Option.some.injEq] at hkept
      exact ⟨e, he, hkept⟩
    · obtain ⟨u, hu, rfl⟩ := exists_page (isPath_of_mem_flagPaths hpath)
      obtain ⟨e, he⟩ := Option.isSome_iff_exists.mp (hall _ hpath)
      have hset := leaf_flagged hflagged hpath rfl he
      have hkept : s'.leaf tmpPaddr root u = s.leaf tmpPaddr root u :=
        hother u hu fun k hk heq => hout k hk (by rw [heq])
      rw [VmState.leaf, VmState.leaf, he, hset, Option.some.injEq] at hkept
      exact ⟨e, he, hkept⟩
  · intro hvisits
    obtain ⟨res, s', hok⟩ : ∃ res s', call root (vmFlagPages (kernel tmpPaddr) (.table root) vaddr
        pages flags) s = .ok (res, s') := flag_returns hwin hroom hroot hal hpages hpre
    obtain rfl : res = success := by
      rcases (flag_of_call hwin hroot hpre hok).status with ⟨hres, -⟩ | ⟨-, hnot⟩
      · exact hres
      · exact absurd hvisits.mapped hnot
    obtain ⟨hall, hflagged⟩ := heffect hok
    refine ⟨s', hok, fun k hk => ?_, fun u hu hout => ?_⟩
    · obtain ⟨-, e, he⟩ := hmapped k hk
      refine ⟨e, he, ?_⟩
      by_cases hin : indices (vaddr + k * pageSize) ∈ flagPaths vaddr pages
      · exact leaf_flagged hflagged hin rfl he
      · have hkept := leaf_not_flagged hflagged hinner
          (fun path hpath _ hslot => hin (hsame k hk path hpath hslot ▸ hpath))
        obtain ⟨e', he', hset⟩ := (hvisits.range k hk).resolve_left hin
        rw [VmState.leaf] at he ⊢
        rw [he, Option.some.injEq] at he'
        rw [VmState.tables, ← VmState.tables, hkept, he, he', hset]
    · by_cases hhit : ∃ path ∈ flagPaths vaddr pages, mapped (s.tables tmpPaddr) root path = true ∧
          pageTables.leafSlot (s.tables tmpPaddr) root path =
            pageTables.leafSlot (s.tables tmpPaddr) root (indices u)
      · obtain ⟨path, hpath, -, hslot⟩ := hhit
        have hother : ∀ k < pages, path ≠ indices (vaddr + k * pageSize) := by
          rintro k hk rfl
          exact hout k hk (hunshared u hu k hk hslot.symm)
        obtain ⟨e, he, hset⟩ := hvisits.other path hpath hother
        -- the two have one leaf entry
        have hu : pageTables.leaf (s.tables tmpPaddr) root (indices u) = some e := by
          rw [Radix.leaf, ← hslot]
          exact he
        rw [VmState.leaf, VmState.leaf, hu, leaf_flagged hflagged hpath hslot hu, hset]
      · apply leaf_not_flagged hflagged hinner
        exact fun path hpath hpathMapped hslot => hhit ⟨path, hpath, hpathMapped, hslot⟩

/-! ## Failing -/

/-- A call of `vm_flag_pages` that returns `-ENOMAP` leaves the tables as they were. -/
def FailsCleanly (tmpPaddr root : PAddr) (s : VmState) (vaddr pages : ℕ) (flags : Flags) : Prop :=
  ∀ s', call root (vmFlagPages (kernel tmpPaddr) (.table root) vaddr pages flags) s =
      .ok (-enomap, s') →
    ∀ n ≤ 3, ∀ p, TableAt tmpPaddr s.tmpPt root s.mem n p → ∀ i < 512,
      s'.tables tmpPaddr p i = s.tables tmpPaddr p i

/-- The paths that `vm_flag_pages` comes to: those that it visits, up to the first that is not
mapped. -/
def flagReached (tmpPaddr root : PAddr) (s : VmState) (vaddr pages : ℕ) : List (List ℕ) :=
  reached (s.tables tmpPaddr) root (flagPaths vaddr pages)

/-- All entries on the way to the pages that are come to are as they are to be. -/
structure Settled (tmpPaddr root : PAddr) (s : VmState) (vaddr pages : ℕ) (flags : Flags) :
    Prop where
  inner : ∀ slot, InnerOf (s.tables tmpPaddr) root (flagReached tmpPaddr root s vaddr pages) slot →
    reflag (s.tables tmpPaddr slot.1 slot.2) flags = s.tables tmpPaddr slot.1 slot.2
  leaf : ∀ slot, LeafOf (s.tables tmpPaddr) root (flagReached tmpPaddr root s vaddr pages) slot →
    setPte (ptePaddr (s.tables tmpPaddr slot.1 slot.2)) flags = s.tables tmpPaddr slot.1 slot.2

/-- It can be tested. -/
theorem settled_of_all
    (h : ((flagReached tmpPaddr root s vaddr pages).all fun path =>
      ((pageTables.slots (s.tables tmpPaddr) root path.dropLast).all fun x =>
        decide (reflag (s.tables tmpPaddr x.1 x.2) flags = s.tables tmpPaddr x.1 x.2)) &&
      (pageTables.leafSlot (s.tables tmpPaddr) root path).all fun x =>
        !present (s.tables tmpPaddr x.1 x.2) ||
          decide (setPte (ptePaddr (s.tables tmpPaddr x.1 x.2)) flags =
            s.tables tmpPaddr x.1 x.2)) = true) :
    Settled tmpPaddr root s vaddr pages flags := by
  rw [List.all_eq_true] at h
  constructor
  · rintro x ⟨path, hpath, hslot, -⟩
    have htest := (Bool.and_eq_true_iff.mp (h path hpath)).1
    exact of_decide_eq_true (List.all_eq_true.mp htest x hslot)
  · rintro x ⟨path, hpath, hslot, hpres⟩
    have htest := (Bool.and_eq_true_iff.mp (h path hpath)).2
    rw [hslot, Option.all_some, hpres] at htest
    exact of_decide_eq_true htest

/-- **When reflagging fails cleanly.**  A call of `vm_flag_pages` that fails leaves the tables as
they were if and only if no page that it visits is missing, so that it does not fail, or there is
nothing to rewrite on the way to the pages before the first one that is. -/
theorem failsCleanly_iff (hwin : WindowOk s.tmpPt s.firstFreeTmpIndex) (hroom : Room 3 s.tmpPt)
    (hroot : root ≠ tmpPaddr) (hal : vaddr % pageSize = 0) (hpages : 0 < pages)
    (hpre : FlagPre tmpPaddr (s.tables tmpPaddr) root (Radix.box 512 (indices vaddr)) pages) :
    FailsCleanly tmpPaddr root s vaddr pages flags ↔
      (∀ path ∈ flagPaths vaddr pages, mapped (s.tables tmpPaddr) root path = true) ∨
        Settled tmpPaddr root s vaddr pages flags := by
  constructor
  · intro hclean
    rw [or_iff_not_imp_left]
    intro hmissing
    obtain ⟨res, s', hok⟩ : ∃ res s', call root (vmFlagPages (kernel tmpPaddr) (.table root) vaddr
        pages flags) s = .ok (res, s') := flag_returns hwin hroom hroot hal hpages hpre
    have heff := flag_of_call hwin hroot hpre hok
    obtain rfl : res = -enomap := by
      rcases heff.status with ⟨-, hall⟩ | ⟨hres, -⟩
      · exact absurd hall hmissing
      · exact hres
    refine ⟨fun slot hslot => ?_, fun slot hslot => ?_⟩
    · obtain ⟨path, hpath, hmem, -⟩ := id hslot
      obtain ⟨hlen, hidx⟩ := path_of_mem_reached hpath
      obtain ⟨m, -, hm, hat, hlt⟩ := Radix.At.root.slots
        (fun i hi => hidx i (List.mem_of_mem_dropLast hi)) hmem
      rw [List.length_dropLast, hlen] at hm
      rw [← heff.flagged.onInner slot hslot]
      exact hclean s' hok m (by omega) slot.1 hat slot.2 hlt
    · obtain ⟨path, hpath, hmem, -⟩ := id hslot
      obtain ⟨hlen, hidx⟩ := path_of_mem_reached hpath
      obtain ⟨hat, hlt⟩ := Radix.At.root.leafSlot hidx hmem
      rw [hlen] at hat
      rw [← heff.flagged.onLeaf slot hslot]
      exact hclean s' hok 3 le_rfl slot.1 hat slot.2 hlt
  · rintro hcond s' hok n - p - i -
    have heff := flag_of_call hwin hroot hpre hok
    have hsettled : Settled tmpPaddr root s vaddr pages flags := by
      rcases heff.status with ⟨hres, -⟩ | ⟨-, hmissing⟩
      · exact absurd hres (by decide)
      · exact hcond.resolve_left hmissing
    by_cases hinner : InnerOf (s.tables tmpPaddr) root
        (flagReached tmpPaddr root s vaddr pages) (p, i)
    · exact (heff.flagged.onInner (p, i) hinner).trans (hsettled.inner (p, i) hinner)
    · by_cases hleaf : LeafOf (s.tables tmpPaddr) root
          (flagReached tmpPaddr root s vaddr pages) (p, i)
      · exact (heff.flagged.onLeaf (p, i) hleaf).trans (hsettled.leaf (p, i) hleaf)
      · exact heff.flagged.other (p, i) hinner hleaf

/-! ## Two ranges of two pages -/

/-- Two pages in one leaf table. -/
def besideEntries : List Placed :=
  [(0x1000#64, 0, 0x2003#64), (0x2000#64, 0, 0x3003#64), (0x3000#64, 0, 0x4003#64),
    (0x4000#64, 0, 0x6003#64), (0x4000#64, 1, 0x7003#64)]

/-- Two pages on both sides of the end of a leaf table. -/
def acrossEntries : List Placed :=
  [(0x1000#64, 0, 0x2003#64), (0x2000#64, 0, 0x3003#64), (0x3000#64, 0, 0x4003#64),
    (0x3000#64, 1, 0x5003#64), (0x4000#64, 511, 0x6003#64), (0x5000#64, 0, 0x7003#64)]

/-- The leaf entries of a mapped range are not shared when no two walks end in one place. -/
theorem leafUnshared_sparse {entries : List Placed} {frames : List PAddr}
    (hout : ∀ n ≤ 3, 0x8000#64 ∉ reach entries root n)
    (hone : ∀ x ∈ walks entries 3 root, ∀ y ∈ walks entries 3 root, x.2 = y.2 → x.1 = y.1)
    (hmapped : RangeMapped 0x8000#64 root (sparseState entries frames) vaddr pages) :
    LeafUnshared 0x8000#64 root (sparseState entries frames) vaddr pages := by
  intro u hu k hk hslot
  obtain ⟨hpage, e, he⟩ := hmapped k hk
  obtain ⟨slot, hkslot, hpres, hread⟩ := Radix.leaf_eq_some_iff.mp he
  have hat := (Radix.At.root.leafSlot (isPath_indices _).2 hkslot).1
  have hne : slot.1 ≠ 0x8000#64 := fun heq =>
    hout 3 le_rfl (heq ▸ mem_reach hout hat (Nat.zero_add 3).le)
  rw [← hread, VmState.tables, view_of_ne hne] at hpres
  have hkmem := mem_walks_of_leafSlot hout hkslot hpres
  have humem := mem_walks_of_leafSlot hout (hslot.trans hkslot) hpres
  have hindices : indices u = indices (vaddr + k * pageSize) := hone _ humem _ hkmem rfl
  apply hu.ext hpage
  rw [← lin_indices, hindices, lin_indices]

/-- The tables of the two pages in one leaf table are in order beside frames that are none of
them. -/
theorem ordered_beside {tmpPt : ℕ → Pte} {frames : List PAddr}
    (haligned : ∀ f ∈ frames, ptePaddr f = f)
    (hframes : ∀ x ∈ levelled besideEntries 0x1000#64, x.2 ∉ frames) (hnodup : frames.Nodup) :
    Ordered 0x8000#64 tmpPt 0x1000#64 (sparseTables besideEntries) frames :=
  ordered_sparse (by decide +kernel) (by decide +kernel) haligned hframes hnodup

/-- The two pages in one leaf table are reflagged exactly. -/
theorem flag_exact_beside :
    ∃ s', call 0x1000#64 (vmFlagPages (kernel 0x8000#64) (.table 0x1000#64) 0 2 vmFlagUser)
        (sparseState besideEntries []) = .ok (success, s') ∧
      FlagsExactly 0x8000#64 0x1000#64 (sparseState besideEntries []) s' 0 2 vmFlagUser := by
  have hmapped : RangeMapped 0x8000#64 0x1000#64 (sparseState besideEntries []) 0 2 := by
    intro k hk
    interval_cases k
    · exact ⟨⟨by decide, by decide, by decide⟩, 0x6003#64, by decide +kernel⟩
    · exact ⟨⟨by decide, by decide, by decide⟩, 0x7003#64, by decide +kernel⟩
  have hunshared : LeafUnshared 0x8000#64 0x1000#64 (sparseState besideEntries []) 0 2 :=
    leafUnshared_sparse (by decide +kernel) (by decide +kernel) hmapped
  have hordered : Ordered 0x8000#64 (sparseState besideEntries []).tmpPt 0x1000#64
      (sparseState besideEntries []).mem [] :=
    ordered_beside (List.forall_mem_nil _) (fun _ _ => List.not_mem_nil) List.nodup_nil
  rw [flag_exact_iff window_sparse room_sparse (clear_sparse (by decide +kernel)) hordered
    (by decide) hmapped hunshared]
  apply visitsRange_of_inOrder ⟨by decide, by decide, by decide⟩ (.inl (by decide)) _ hmapped
  exact .inr ⟨by decide, by decide⟩

/-- The second page of a range that goes on in the next leaf table is looked for at the end of
that table, not at its start. -/
theorem not_flag_exact_across :
    RangeMapped 0x8000#64 0x1000#64 (sparseState acrossEntries []) 0x1ff000 2 ∧
      LeafUnshared 0x8000#64 0x1000#64 (sparseState acrossEntries []) 0x1ff000 2 ∧
      ¬ ∃ s', call 0x1000#64 (vmFlagPages (kernel 0x8000#64) (.table 0x1000#64) 0x1ff000 2
          vmFlagUser) (sparseState acrossEntries []) = .ok (success, s') ∧
        FlagsExactly 0x8000#64 0x1000#64 (sparseState acrossEntries []) s' 0x1ff000 2
          vmFlagUser := by
  have hmapped : RangeMapped 0x8000#64 0x1000#64 (sparseState acrossEntries []) 0x1ff000 2 := by
    intro k hk
    interval_cases k
    · exact ⟨⟨by decide, by decide, by decide⟩, 0x6003#64, by decide +kernel⟩
    · exact ⟨⟨by decide, by decide, by decide⟩, 0x7003#64, by decide +kernel⟩
  refine ⟨hmapped, leafUnshared_sparse (by decide +kernel) (by decide +kernel) hmapped, ?_⟩
  rintro ⟨s', hok, -⟩
  have hrun : (call 0x1000#64 (vmFlagPages (kernel 0x8000#64) (.table 0x1000#64) 0x1ff000 2
      vmFlagUser) (sparseState acrossEntries [])).toOption.any (fun x =>
        x.1 == -enomap) = true := by
    decide +kernel
  obtain ⟨r, hr, htest⟩ := Except.exists_of_any hrun
  rw [hok] at hr
  cases hr
  exact absurd htest (by show ¬ (success == -enomap) = true; decide)

/-- The tables of the two pages in one leaf table can be reflagged. -/
theorem flagPre_beside (pages : ℕ) : FlagPre 0x8000#64
    ((sparseState besideEntries []).tables 0x8000#64) 0x1000#64
    (Radix.box 512 (indices 0)) pages := by
  have hordered : Ordered 0x8000#64 (sparseState besideEntries []).tmpPt 0x1000#64
      (sparseState besideEntries []).mem [] :=
    ordered_beside (List.forall_mem_nil _) (fun _ _ => List.not_mem_nil) List.nodup_nil
  exact hordered.flagPre (by decide) fun _ hslot =>
    avoid_of_clear (clear_sparse (by decide +kernel)) (fun _ => path_of_mem_reached) hslot

/-- Where both pages are there, no call for them fails; and where a third is asked for that is not,
the call fails cleanly if the two have the permissions already. -/
theorem failsCleanly_beside :
    FailsCleanly 0x8000#64 0x1000#64 (sparseState besideEntries []) 0 2 vmFlagUser ∧
      (∃ s', call 0x1000#64 (vmFlagPages (kernel 0x8000#64) (.table 0x1000#64) 0 3
          (vmFlagWritable ||| vmFlagExecutable)) (sparseState besideEntries []) =
            .ok (-enomap, s')) ∧
      FailsCleanly 0x8000#64 0x1000#64 (sparseState besideEntries []) 0 3
        (vmFlagWritable ||| vmFlagExecutable) := by
  refine ⟨?_, ?_, ?_⟩
  · refine (failsCleanly_iff window_sparse room_sparse (by decide) (by decide) (by decide)
      (flagPre_beside 2)).mpr (.inl ?_)
    have hall : ((flagPaths 0 2).all fun path =>
        mapped ((sparseState besideEntries []).tables 0x8000#64) 0x1000#64 path) = true := by
      decide +kernel
    exact List.all_eq_true.mp hall
  · have hrun : (call 0x1000#64 (vmFlagPages (kernel 0x8000#64) (.table 0x1000#64) 0 3
        (vmFlagWritable ||| vmFlagExecutable)) (sparseState besideEntries [])).toOption.any
        (fun x => decide (x.1 = -enomap)) = true := by
      decide +kernel
    obtain ⟨⟨res, s'⟩, hok, htest⟩ := Except.exists_of_any hrun
    obtain rfl : res = -enomap := of_decide_eq_true htest
    exact ⟨s', hok⟩
  · refine (failsCleanly_iff window_sparse room_sparse (by decide) (by decide) (by decide)
      (flagPre_beside 3)).mpr (.inr ?_)
    exact settled_of_all (by decide +kernel)

/-- **With a page missing behind them, they are reflagged**, and the call fails. -/
theorem not_failsCleanly_beside :
    ¬ FailsCleanly 0x8000#64 0x1000#64 (sparseState besideEntries []) 0 3 vmFlagUser := by
  intro hclean
  have hrun : (call 0x1000#64 (vmFlagPages (kernel 0x8000#64) (.table 0x1000#64) 0 3 vmFlagUser)
      (sparseState besideEntries [])).toOption.any (fun x => x.1 == -enomap &&
        x.2.tables 0x8000#64 0x1000#64 0 != 0x2003#64) = true := by
    decide +kernel
  obtain ⟨⟨res, s'⟩, hok, htest⟩ := Except.exists_of_any hrun
  rw [Bool.and_eq_true, beq_iff_eq, bne_iff_ne] at htest
  obtain ⟨rfl, hne⟩ : res = -enomap ∧ s'.tables 0x8000#64 0x1000#64 0 ≠ 0x2003#64 := htest
  have hkept := hclean s' hok 0 (by decide) 0x1000#64 .root 0 (by decide)
  have hold : (sparseState besideEntries []).tables 0x8000#64 0x1000#64 0 = 0x2003#64 := by
    decide +kernel
  exact hne (hkept.trans hold)

end Mimik.Vm
