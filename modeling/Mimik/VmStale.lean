/-
# Stale translations

The processor keeps translations that it has used (`VmState.tlb`), and only `invlpg` takes one
away.  `vm_unmap_pages` invalidates each page whose leaf entry it clears, at the address that it
counts along; `vm_map_pages` fills only entries that are not present, of which no translation is
kept.  But `vm_set_backing` and `vm_flag_pages` rewrite present leaf entries and invalidate
nothing, and a leaf table that is shared has pages at other addresses than the one counted.

So every translation that is kept is current in runs in which no call rewrites the leaf entry of
a page that is kept, and `vm_unmap_pages` clears it only at this page's own address
(`current_of_run`).
-/
import Mimik.VmLeafCall

namespace Mimik.Vm

open FaultState

/-! ## Translations that are kept -/

/-- Two entries give a page the same frame and the same permissions. -/
def SameTranslation (e e' : Pte) : Prop :=
  ptePaddr e = ptePaddr e' ∧ writable e = writable e' ∧
    userAccessible e = userAccessible e' ∧ noExecute e = noExecute e'

theorem SameTranslation.refl (e : Pte) : SameTranslation e e := ⟨rfl, rfl, rfl, rfl⟩

instance (e e' : Pte) : Decidable (SameTranslation e e') :=
  inferInstanceAs (Decidable (_ ∧ _ ∧ _ ∧ _))

/-- No translation is stale: each one that is kept agrees with the leaf entry of its page. -/
def Current (tmpPaddr root : PAddr) (s : VmState) : Prop :=
  ∀ x ∈ s.tlb, ∃ e, s.leaf tmpPaddr root (x.1 * pageSize) = some e ∧ SameTranslation x.2 e

/-- What happens to the active table: an access to an address, or a call. -/
inductive TlbEvent where
  | access (vaddr : ℕ)
  | call (c : VmCall)

/-- The state after an access: the processor keeps the leaf entry of a page that is mapped. -/
def accessed (tmpPaddr root : PAddr) (s : VmState) (vaddr : ℕ) : VmState :=
  match s.leaf tmpPaddr root vaddr with
  | some e => if canonical vaddr then { s with tlb := (vpage vaddr, e) :: s.tlb } else s
  | none => s

/-- The state after an event. -/
def tlbStep (tmpPaddr root : PAddr) (s : VmState) : TlbEvent → Except Fault VmState
  | .access vaddr => .ok (accessed tmpPaddr root s vaddr)
  | .call c => (call root (c.run (kernel tmpPaddr) (.table root)) s).map Prod.snd

/-! ### Calls that leave no stale translation -/

section Guard

variable (tmpPaddr root : PAddr) (s : VmState)

/-- The call stores an entry over a present leaf entry. -/
inductive Rewrites : VmCall → PAddr × ℕ → Pte → Prop
  | setBacking {vaddr : ℕ} {slot : PAddr × ℕ} (paddr : PAddr) :
      s.leafSlot tmpPaddr root vaddr = some slot →
      present (s.tables tmpPaddr slot.1 slot.2) = true →
      Rewrites (.setBacking vaddr paddr) slot
        (setBackingPte (s.tables tmpPaddr slot.1 slot.2) paddr)
  | flagPages {vaddr pages : ℕ} {slot : PAddr × ℕ} (flags : Flags) :
      LeafOf (s.tables tmpPaddr) root
        (reached (s.tables tmpPaddr) root ((Radix.box 512 (indices vaddr)).take pages)) slot →
      Rewrites (.flagPages vaddr pages flags) slot
        (setPte (ptePaddr (s.tables tmpPaddr slot.1 slot.2)) flags)

/-- The call clears a leaf entry, and invalidates a page. -/
inductive Clears : VmCall → PAddr × ℕ → ℕ → Prop
  | unmapPages {vaddr pages a d k : ℕ} {q : PAddr} :
      Lands (s.tables tmpPaddr) pages (indices vaddr) root (q, a) d → k < min pages (512 - a) →
      Clears (.unmapPages vaddr pages) (q, a + k) (vpage (wrap64 (vaddr + (d + k) * pageSize)))

/-- No leaf entry of a page that is kept is rewritten with other contents, and when one is
cleared the page invalidated is this page. -/
structure KeepsCurrent (c : VmCall) : Prop where
  inRange : c.InRange
  staysOut : StaysOut tmpPaddr root s c
  rewrites : ∀ slot e, Rewrites tmpPaddr root s c slot e → ∀ x ∈ s.tlb,
    s.leafSlot tmpPaddr root (x.1 * pageSize) = some slot → SameTranslation x.2 e
  clears : ∀ slot page, Clears tmpPaddr root s c slot page → ∀ x ∈ s.tlb,
    s.leafSlot tmpPaddr root (x.1 * pageSize) = some slot → x.1 = page

/-- The events of the runs considered. -/
def TlbGuard : TlbEvent → Prop
  | .access _ => True
  | .call c => KeepsCurrent tmpPaddr root s c

/-- What is kept from event to event. -/
structure TlbInv : Prop where
  window : WindowOk s.tmpPt s.firstFreeTmpIndex
  ordered : Ordered tmpPaddr s.tmpPt root s.mem s.frames
  current : Current tmpPaddr root s

end Guard

section Steps

variable {tmpPaddr root : PAddr} {s s' : VmState} {vaddr pages : ℕ}
  {places : PAddr × ℕ → Prop}

/-- An access changes nothing but the translations. -/
theorem accessed_eq (vaddr : ℕ) : ∃ tlb, accessed tmpPaddr root s vaddr = { s with tlb } := by
  rw [accessed]
  split
  next e he =>
    split
    · exact ⟨_, rfl⟩
    · exact ⟨s.tlb, rfl⟩
  next => exact ⟨s.tlb, rfl⟩

/-- Accesses leave current translations. -/
theorem current_accessed (h : Current tmpPaddr root s) (vaddr : ℕ) :
    Current tmpPaddr root (accessed tmpPaddr root s vaddr) := by
  rw [accessed]
  split
  next e he =>
    split
    · intro x hx
      rcases List.mem_cons.mp hx with rfl | hx
      · have hindices : indices (vpage vaddr * pageSize) = indices vaddr := by
          rw [indices_eq_digits, indices_eq_digits, pageNumber, pageNumber, vpage,
            Nat.shiftRight_eq_div_pow, Nat.mul_div_cancel _ (by decide)]
          rfl
        refine ⟨e, ?_, .refl e⟩
        show pageTables.leaf _ root (indices (vpage vaddr * pageSize)) = some e
        rw [hindices]
        exact he
      · exact h x hx
    · exact h
  next => exact h

/-- Stores to leaf tables leave current translations, when those of the places are gone or
agree with what was stored. -/
theorem LeafCall.current (h : LeafCall tmpPaddr root s s' places)
    (hcurrent : Current tmpPaddr root s)
    (hordered : Ordered tmpPaddr s.tmpPt root s.mem s.frames)
    (hplaces : ∀ x ∈ s'.tlb, ∀ slot, s.leafSlot tmpPaddr root (x.1 * pageSize) = some slot →
      places slot → present (s'.mem slot.1 slot.2) = true ∧
        SameTranslation x.2 (s'.mem slot.1 slot.2)) : Current tmpPaddr root s' := by
  intro x hx
  obtain ⟨e, he, hsame⟩ := hcurrent x (h.tlb x hx)
  obtain ⟨slot, hslot, hpres, hread⟩ := Radix.leaf_eq_some_iff.mp he
  rw [VmState.leaf, VmState.tables, h.tmpPt_eq]
  by_cases hplace : places slot
  · obtain ⟨hpres', hsame'⟩ := hplaces x hx slot hslot hplace
    refine ⟨_, Radix.leaf_eq_some_iff.mpr ⟨slot, ?_, hpres', ?_⟩, hsame'⟩
    · rw [h.stores.leafSlot hordered (isPath_indices _)]
      exact hslot
    · rw [view_of_ne (h.stores.leaf slot hplace).2]
  · refine ⟨e, ?_, hsame⟩
    rw [h.stores.leaf_eq hordered (isPath_indices _) fun slot' hslot' => ?_]
    · exact he
    · obtain rfl : slot' = slot := Option.some.inj (hslot'.symm.trans hslot)
      exact hplace

/-- A call that stores nothing. -/
theorem TlbInv.of_same (h : TlbInv tmpPaddr root s)
    (hcall : LeafCall tmpPaddr root s s' fun _ => False) : TlbInv tmpPaddr root s' :=
  ⟨hcall.window h.window, hcall.ordered h.ordered,
    hcall.current h.current h.ordered fun _ _ _ _ => False.elim⟩

/-- The machine without a window takes on no translation. -/
theorem flat_keeps_tlb (tlb : Tlb) :
    (flat tmpPaddr).Keeps fun t : FlatState => ∀ x ∈ t.tlb, x ∈ tlb where
  toLookKeeps := flat_lookKeeps _
  write p i e := flat_write p i e fun _ h => h
  pmRequestPage := by
    constructor
    intro t ht paddr t' hok
    simp only [flat] at hok
    split at hok
    next => cases hok
    next => cases hok; exact ht
  memSet p := Triple.of_apply (fun _ => ()) _ (fun _ => rfl) fun _ h => h
  invalidatePage vaddr := flat_invalidatePage vaddr fun t h x hx => h x (List.mem_filter.mp hx).1

/-! ### One lemma for each call -/

/-- Mapping leaves every leaf entry of a page that is kept. -/
theorem TlbInv.mapPages {fuel : ℕ} {paddrStart : PAddr} {flags : Flags} {r : Status × ℕ}
    (h : TlbInv tmpPaddr root s) (hok : call root (vmMapPages (kernel tmpPaddr) fuel (.table root)
      paddrStart pages vaddr flags) s = .ok (r, s')) (hclear : tmpPaddr ∉ s'.opened) :
    TlbInv tmpPaddr root s' := by
  obtain ⟨-, t, hflat, hleaves⟩ := vmMapPages_flat h.window hok hclear
  have htlb : ∀ x ∈ t.tlb, x ∈ s.tlb :=
    (keeps_vmMapPages (flat_keeps_tlb s.tlb) fuel root paddrStart pages vaddr flags).run s.flat
      (fun _ hx => hx) r t hflat
  obtain ⟨t', hleaves', hgrown⟩ := grown_of_call h.window h.ordered hok hclear
  refine ⟨hleaves.window h.window, hleaves'.ordered hgrown.ordered, fun x hx => ?_⟩
  obtain ⟨e, he, hsame⟩ := h.current x (htlb x (hleaves.tlb x hx))
  exact ⟨e, map_keeps_leaf h.window h.ordered hok hclear he, hsame⟩

/-- A leaf entry that is given another frame. -/
theorem TlbInv.setBacking {paddr : PAddr} {r : Status} (h : TlbInv tmpPaddr root s)
    (hok : call root (vmSetBacking (kernel tmpPaddr) (.table root) vaddr paddr) s = .ok (r, s'))
    (hclear : tmpPaddr ∉ s'.opened)
    (hrewrites : ∀ slot e, Rewrites tmpPaddr root s (.setBacking vaddr paddr) slot e →
      ∀ x ∈ s.tlb, s.leafSlot tmpPaddr root (x.1 * pageSize) = some slot →
        SameTranslation x.2 e) : TlbInv tmpPaddr root s' := by
  rcases setBacking_of_call h.window hok hclear with hcall | ⟨slot, hslot, hpres, hstored, hcall⟩
  · exact h.of_same hcall
  · refine ⟨hcall.window h.window, hcall.ordered h.ordered, hcall.current h.current h.ordered ?_⟩
    rintro x hx _ hx' rfl
    rw [hstored]
    exact ⟨present_setBackingPte hpres,
      hrewrites _ _ (.setBacking paddr hslot hpres) x (hcall.tlb x hx) hx'⟩

/-- Leaf entries that are cleared. -/
theorem TlbInv.unmapPages {r : ℕ} (h : TlbInv tmpPaddr root s)
    (hok : call root (vmUnmapPages (kernel tmpPaddr) (.table root) vaddr pages) s = .ok (r, s'))
    (hvaddr : vaddr < 2 ^ 64) (hclear : tmpPaddr ∉ s'.opened)
    (hclears : ∀ slot page, Clears tmpPaddr root s (.unmapPages vaddr pages) slot page →
      ∀ x ∈ s.tlb, s.leafSlot tmpPaddr root (x.1 * pageSize) = some slot → x.1 = page) :
    TlbInv tmpPaddr root s' := by
  rcases unmapPages_of_call h.window hok hvaddr hclear with hcall | ⟨q, a, d, hlands, hcall, hfar⟩
  · exact h.of_same hcall
  · refine ⟨hcall.window h.window, hcall.ordered h.ordered, hcall.current h.current h.ordered ?_⟩
    -- a page whose entry is cleared is the one that is invalidated
    rintro x hx _ hx' ⟨k, hk, rfl⟩
    exact absurd (hclears _ _ (.unmapPages hlands hk) x (hcall.tlb x hx) hx') (hfar x hx k hk)

/-- Leaf entries that are given other permissions. -/
theorem TlbInv.flagPages {flags : Flags} {r : Status} (h : TlbInv tmpPaddr root s)
    (hok : call root (vmFlagPages (kernel tmpPaddr) (.table root) vaddr pages flags) s =
      .ok (r, s')) (hout : StaysOut tmpPaddr root s (.flagPages vaddr pages flags))
    (hrewrites : ∀ slot e, Rewrites tmpPaddr root s (.flagPages vaddr pages flags) slot e →
      ∀ x ∈ s.tlb, s.leafSlot tmpPaddr root (x.1 * pageSize) = some slot →
        SameTranslation x.2 e) : TlbInv tmpPaddr root s' := by
  obtain ⟨hroot, havoid⟩ := hout
  have heff := flag_of_call h.window hroot (h.ordered.flagPre hroot havoid) hok
  refine ⟨?_, heff.ordered h.ordered, fun x hx => ?_⟩
  · rw [heff.tmpPt_eq, heff.first_eq]
    exact h.window
  · obtain ⟨e, he, hsame⟩ := h.current x (heff.tlb x hx)
    by_cases hhit : ∃ path ∈ reached (s.tables tmpPaddr) root
        ((Radix.box 512 (indices vaddr)).take pages), mapped (s.tables tmpPaddr) root path = true ∧
          pageTables.leafSlot (s.tables tmpPaddr) root path =
            s.leafSlot tmpPaddr root (x.1 * pageSize)
    · obtain ⟨path, hpath, -, hslot⟩ := hhit
      obtain ⟨slot, hx', hpres, rfl⟩ := Radix.leaf_eq_some_iff.mp he
      exact ⟨_, leaf_flagged heff.flagged hpath hslot he, hrewrites slot _
        (.flagPages flags ⟨path, hpath, hslot.trans hx', hpres⟩) x (heff.tlb x hx) hx'⟩
    · refine ⟨e, ?_, hsame⟩
      rw [VmState.leaf, leaf_not_flagged heff.flagged
        (fun _ hslot => h.ordered.inner_not_leaf hroot (fun _ => path_of_mem_reached) havoid hslot)
        fun path hpath hpathMapped hslot => hhit ⟨path, hpath, hpathMapped, hslot⟩]
      exact he

/-! ## Runs -/

/-- What one event keeps. -/
theorem TlbInv.step {e : TlbEvent} (h : TlbInv tmpPaddr root s)
    (hguard : TlbGuard tmpPaddr root s e) (hok : tlbStep tmpPaddr root s e = .ok s') :
    TlbInv tmpPaddr root s' := by
  cases e with
  | access vaddr =>
    cases hok
    have hcurrent := current_accessed h.current vaddr
    obtain ⟨tlb, htlb⟩ : ∃ tlb, accessed tmpPaddr root s vaddr = { s with tlb } := accessed_eq vaddr
    rw [htlb] at hcurrent ⊢
    exact ⟨h.window, h.ordered, hcurrent⟩
  | call c =>
    obtain ⟨-, hout, hrewrites, hclears⟩ := id hguard
    have hcall : call root (c.run (kernel tmpPaddr) (.table root)) s = .ok ((), s') := by
      rw [tlbStep] at hok
      cases hrun : call root (c.run (kernel tmpPaddr) (.table root)) s with
      | error f =>
        rw [hrun] at hok
        cases hok
      | ok r =>
        rw [hrun] at hok
        cases hok
        rfl
    cases c with
    | mapPages fuel paddrStart pages vaddrHint flags =>
      obtain ⟨r, hr⟩ := call_map_ok hcall
      exact h.mapPages hr (hout s' hcall)
    | unmapPages vaddrStart pages =>
      obtain ⟨r, hr⟩ := call_map_ok hcall
      exact h.unmapPages hr hguard.inRange (hout s' hcall) hclears
    | vaddrToPaddr vaddr =>
      obtain ⟨r, hr⟩ := call_map_ok hcall
      exact h.of_same (vaddrToPaddr_of_call h.window hr (hout s' hcall))
    | setBacking vaddr paddr =>
      obtain ⟨r, hr⟩ := call_map_ok hcall
      exact h.setBacking hr (hout s' hcall) hrewrites
    | flagPages vaddrStart pages flags =>
      obtain ⟨r, hr⟩ := call_map_ok hcall
      exact h.flagPages hr hout hrewrites

/-- **No stale translation.**  In runs in which no call rewrites the leaf entry of a page that
is kept with other contents, nor clears it away from this page's own address, and no call comes
to `tmp_pt`, every translation that is kept is current. -/
theorem current_of_run {es : List TlbEvent} (hwin : WindowOk s.tmpPt s.firstFreeTmpIndex)
    (hordered : Ordered tmpPaddr s.tmpPt root s.mem s.frames)
    (hcurrent : Current tmpPaddr root s)
    (hrun : GuardedRun.Run (tlbStep tmpPaddr root) (TlbGuard tmpPaddr root) s es s') :
    Current tmpPaddr root s' :=
  (hrun.invariant (I := TlbInv tmpPaddr root) (fun _ _ _ h hguard hok => h.step hguard hok)
    ⟨hwin, hordered, hcurrent⟩).current

end Steps

/-- A range of one page starts where it lands. -/
theorem Lands.one {mem : Tables} {index : List ℕ} {p : PAddr} {slot : PAddr × ℕ} {d : ℕ}
    (h : Lands mem 1 index p slot d) : d = 0 := by
  induction h with
  | leaf => rfl
  | @inner i j k d path p slot _ _ hfew _ _ ih =>
    have hpos : 0 < pagesPerEntry (path.length + 1) := Nat.pow_pos (by decide)
    have hzero : k = 0 := by
      by_contra hk
      have := Nat.mul_le_mul (Nat.one_le_iff_ne_zero.mpr hk) hpos
      omega
    rw [hzero, ih, Nat.zero_mul]

/-- A page that was accessed is unmapped. -/
theorem current_beside :
    ∃ s', GuardedRun.Run (tlbStep 0x8000#64 0x1000#64) (TlbGuard 0x8000#64 0x1000#64)
        (sparseState besideEntries []) [.access 0x1000, .call (.unmapPages 0x1000 1)] s' ∧
      Current 0x8000#64 0x1000#64 s' := by
  have htlb : (accessed 0x8000#64 0x1000#64 (sparseState besideEntries []) 0x1000).tlb =
      [(1, 0x7003#64)] := by decide +kernel
  have hcall : (tlbStep 0x8000#64 0x1000#64
      (accessed 0x8000#64 0x1000#64 (sparseState besideEntries []) 0x1000)
      (.call (.unmapPages 0x1000 1))).toOption.any (fun s' => decide (0x8000#64 ∉ s'.opened)) =
      true := by
    decide +kernel
  obtain ⟨s', hok, htest⟩ := Except.exists_of_any hcall
  have hrun : GuardedRun.Run (tlbStep 0x8000#64 0x1000#64) (TlbGuard 0x8000#64 0x1000#64)
      (sparseState besideEntries []) [.access 0x1000, .call (.unmapPages 0x1000 1)] s' := by
    apply GuardedRun.Run.cons trivial rfl
    refine .cons ⟨(by decide : (0x1000 : ℕ) < 2 ^ 64), ?_, ?_, ?_⟩ hok (.nil s')
    · intro s₁ hs₁
      rw [tlbStep, hs₁] at hok
      cases hok
      exact of_decide_eq_true htest
    · rintro slot e ⟨⟩
    · rintro slot page ⟨hlands, hk⟩ x hx -
      rw [htlb, List.mem_singleton] at hx
      obtain rfl := hlands.one
      obtain rfl := Nat.lt_one_iff.mp (lt_of_lt_of_le hk (min_le_left _ _))
      rw [hx]
      decide
  refine ⟨s', hrun, current_of_run window_sparse ?_ (List.forall_mem_nil _) hrun⟩
  exact ordered_beside (List.forall_mem_nil _) (fun _ _ => List.not_mem_nil) List.nodup_nil

/-- Two pages in one leaf table, and the way to `tmp_pt`. -/
def kernelEntries : List Placed :=
  besideEntries ++
    [(0x1000#64, 511, 0x5003#64), (0x5000#64, 511, setPte 0x8000#64 vmFlagWritable)]

/-- A page keeps its translation when it is given another frame. -/
theorem not_current_backing :
    WindowOk (sparseState kernelEntries []).tmpPt (sparseState kernelEntries []).firstFreeTmpIndex ∧
      Current 0x8000#64 0x1000#64 (sparseState kernelEntries []) ∧
      ∃ s', GuardedRun.Run (tlbStep 0x8000#64 0x1000#64) (fun _ _ => True)
          (sparseState kernelEntries []) [.access 0, .call (.setBacking 0 0x9000#64)] s' ∧
        ¬ Current 0x8000#64 0x1000#64 s' := by
  refine ⟨window_sparse, List.forall_mem_nil _, ?_⟩
  obtain ⟨s', hrun, htest⟩ : ∃ s', GuardedRun.Run (tlbStep 0x8000#64 0x1000#64) (fun _ _ => True)
      (sparseState kernelEntries []) [.access 0, .call (.setBacking 0 0x9000#64)] s' ∧
      decide ((0, 0x6003#64) ∈ s'.tlb ∧ s'.leaf 0x8000#64 0x1000#64 0 = some 0x9003#64) = true :=
    GuardedRun.Run.exists_of_exec _ (fun _ _ _ => trivial) (by decide +kernel)
  refine ⟨s', hrun, fun hcurrent => ?_⟩
  obtain ⟨hmem, hleaf⟩ := of_decide_eq_true htest
  obtain ⟨e, he, hsame⟩ := hcurrent _ hmem
  obtain rfl : 0x9003#64 = e := Option.some.inj (hleaf.symm.trans he)
  exact absurd hsame (by decide)

end Mimik.Vm
