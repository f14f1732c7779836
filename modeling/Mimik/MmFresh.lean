/-
# `mm_map` from machine to machine

The body of `mm_map` uses the operations of a machine and the functions of `vm.c`, and nothing
else.  So what was shown for these functions is shown for it, clause by clause: it does the
same on the two managers as on `kernel`, and as on the machine without a window.

On the machine without a window it keeps the tables in order, however it ends: reserving
adds tables, and backing changes leaf entries only.
-/
import Mimik.MmLend
import Mimik.VmBacking

namespace Mimik.Vm

open FaultState

/-! ## Relations of programs -/

section Relations

variable {σ τ π : Type} {M : Machine σ π} {N : Machine τ π}
  {Rel : ∀ {α : Type}, Prog Fault σ α → Prog Fault τ α → Prop}

theorem Carries.backPages (h : Carries M N Rel) {setBacking : ℕ → PAddr → Prog Fault σ Status}
    {setBacking' : ℕ → PAddr → Prog Fault τ Status}
    (hset : ∀ vaddr paddr, Rel (setBacking vaddr paddr) (setBacking' vaddr paddr))
    (pages vaddr : ℕ) :
    Rel (Vm.backPages M setBacking pages vaddr) (Vm.backPages N setBacking' pages vaddr) := by
  induction pages generalizing vaddr with
  | zero => exact h.pure ()
  | succ pages ih =>
    apply h.bind h.pmRequestPage
    intro paddr
    apply h.bind (hset vaddr paddr)
    intro res
    exact h.bind (h.check _ _) fun _ => ih _

/-- `mm_map_in_table`. -/
theorem Carries.mmMapInTable (h : Carries M N Rel) (fuel : ℕ) (table : π) (hint size : ℕ)
    (flags : Flags) : Rel (Vm.mmMapInTable M fuel table hint size flags)
      (Vm.mmMapInTable N fuel table hint size flags) := by
  apply h.bind (h.vmMapPages table)
  intro r
  apply h.ite (h.pure _)
  exact h.bind (h.backPages (fun _ _ => h.vmSetBacking table _) _ _) fun _ => h.pure _

/-- What the operations keep. -/
theorem keeps_backPages {kept : σ → Prop} (hM : M.Keeps kept) (table : π) (pages vaddr : ℕ) :
    Keeps kept (backPages M (vmSetBacking M table) pages vaddr) := by
  induction pages generalizing vaddr with
  | zero => exact Keeps.pure ()
  | succ pages ih =>
    apply Keeps.bind hM.pmRequestPage
    intro paddr
    apply Keeps.bind (keeps_vmSetBacking hM table vaddr paddr)
    intro res
    exact Keeps.bind (keeps_check _ _) fun _ => ih _

theorem keeps_mmMapInTable {kept : σ → Prop} (hM : M.Keeps kept) (fuel : ℕ) (table : π)
    (hint size : ℕ) (flags : Flags) : Keeps kept (mmMapInTable M fuel table hint size flags) := by
  apply Keeps.bind (keeps_vmMapPages hM ..)
  rintro ⟨res, hint⟩
  apply Keeps.ite (Keeps.pure _)
  exact Keeps.bind (keeps_backPages hM ..) fun _ => Keeps.pure _

end Relations

/-- **`mm_map`** is `mm_map_in_table` on the kernel's table, for flags without `USER` and a kernel
address, or none, as hint. -/
theorem mmMap_eq {σ π : Type} (M : Machine σ π) (fuel layoutVaddrEnd : ℕ) (kpml4 : π)
    {hint size : ℕ} {flags : Flags} (hflags : isFlagUnset flags vmFlagUser = true)
    (hhint : hint = 0 ∨ isKvaddr hint = true) :
    mmMap M fuel layoutVaddrEnd kpml4 hint size flags =
      mmMapInTable M fuel kpml4 (if hint = 0 then layoutVaddrEnd else hint) size flags := by
  have hreserve : vmkReservePages M fuel layoutVaddrEnd kpml4 hint (pagesOf size) flags =
      vmReservePages M fuel kpml4 (if hint = 0 then layoutVaddrEnd else hint) (pagesOf size)
        flags := by
    rw [vmkReservePages, vmkMapPages, check, if_pos hflags, pure_bind, kernelHint]
    by_cases hzero : hint = 0
    · rw [if_pos hzero, if_pos hzero, pure_bind]
      rfl
    · rw [if_neg hzero, if_neg hzero, check, if_pos (hhint.resolve_left hzero), pure_bind,
        pure_bind]
      rfl
  rw [mmMap, mapFresh, hreserve]
  rfl

/-- Otherwise it fails an assertion. -/
theorem mmMap_fault {σ π : Type} (M : Machine σ π) (fuel layoutVaddrEnd : ℕ) (kpml4 : π)
    {hint size : ℕ} {flags : Flags}
    (h : ¬ (isFlagUnset flags vmFlagUser = true ∧ (hint = 0 ∨ isKvaddr hint = true))) :
    ∃ expr, mmMap M fuel layoutVaddrEnd kpml4 hint size flags = fault (.assertion expr) := by
  rw [mmMap, mapFresh, vmkReservePages, vmkMapPages, check]
  by_cases hflags : isFlagUnset flags vmFlagUser = true
  · obtain ⟨hzero, hhint⟩ := not_or.mp fun hhint => h ⟨hflags, hhint⟩
    rw [if_pos hflags, pure_bind, kernelHint, if_neg hzero, check, if_neg hhint]
    exact ⟨_, rfl⟩
  · rw [if_neg hflags]
    exact ⟨_, rfl⟩

/-- So when it returns it has returned there. -/
theorem mmMap_ok {σ π : Type} {M : Machine σ π} {fuel layoutVaddrEnd : ℕ} {kpml4 : π}
    {hint size r : ℕ} {flags : Flags} {t t' : σ}
    (hok : mmMap M fuel layoutVaddrEnd kpml4 hint size flags t = .ok (r, t')) :
    mmMapInTable M fuel kpml4 (if hint = 0 then layoutVaddrEnd else hint) size flags t =
      .ok (r, t') := by
  by_cases hvalid : isFlagUnset flags vmFlagUser = true ∧ (hint = 0 ∨ isKvaddr hint = true)
  · rwa [mmMap_eq M fuel layoutVaddrEnd kpml4 hvalid.1 hvalid.2] at hok
  · obtain ⟨expr, hfault⟩ := mmMap_fault M fuel layoutVaddrEnd kpml4 hvalid
    rw [hfault] at hok
    cases hok

/-! ## With the window and without it -/

section Window

variable {tmpPaddr root : PAddr} {tmpPt : ℕ → Pte} {first : ℕ} {slots : List ℕ} {room : Prop}

theorem sim_backPages (hlevel : Level room 3 tmpPt first) {pt : PtPtr} {p : PAddr}
    (hpt : Points tmpPaddr tmpPt pt p) (pages vaddr : ℕ) :
    Window.Same tmpPaddr room tmpPt first slots
      (backPages (kernel tmpPaddr) (vmSetBacking (kernel tmpPaddr) pt) pages vaddr)
      (backPages (flat tmpPaddr) (vmSetBacking (flat tmpPaddr) p) pages vaddr) := by
  have hK := keeps_kernel tmpPaddr tmpPaddr
  induction pages generalizing vaddr with
  | zero => exact sim_pure ()
  | succ pages ih =>
    have hrest : Keeps (Strayed tmpPaddr) (backPages (kernel tmpPaddr)
      (vmSetBacking (kernel tmpPaddr) pt) pages (wrap64 (vaddr + pageSize))) :=
      keeps_backPages hK ..
    apply Sim.same_bind sim_pmRequestPage
    · exact fun paddr => Keeps.bind (keeps_vmSetBacking hK ..) fun _ =>
        Keeps.bind (keeps_check _ _) fun _ => hrest
    intro paddr
    apply Sim.same_bind (sim_vmSetBacking hlevel hpt vaddr paddr)
    · exact fun _ => Keeps.bind (keeps_check _ _) fun _ => hrest
    intro res
    apply Sim.same_bind (sim_check _ _) fun _ => hrest
    exact fun _ => ih _

theorem sim_mmMapInTable (hlevel : Level room 3 tmpPt first) {pt : PtPtr} {p : PAddr}
    (hpt : Points tmpPaddr tmpPt pt p) (fuel hint size : ℕ) (flags : Flags) :
    Window.Same tmpPaddr room tmpPt first slots
      (mmMapInTable (kernel tmpPaddr) fuel pt hint size flags)
      (mmMapInTable (flat tmpPaddr) fuel p hint size flags) := by
  have hK := keeps_kernel tmpPaddr tmpPaddr
  have hback : ∀ hint, Keeps (Strayed tmpPaddr) (do
      backPages (kernel tmpPaddr) (vmSetBacking (kernel tmpPaddr) pt) (pagesOf size) hint
      return hint) := fun hint =>
    Keeps.bind (keeps_backPages hK ..) fun _ => Keeps.pure _
  apply Sim.same_bind (sim_vmMapPages hlevel hpt ..)
  · exact fun r => Keeps.ite (Keeps.pure _) (hback r.2)
  rintro ⟨res, hint⟩
  apply Sim.ite fun _ => sim_pure _
  intro _
  apply Sim.same_bind (sim_backPages hlevel hpt _ _) fun _ => Keeps.pure _
  exact fun _ => sim_pure _

end Window

/-! ## The tables stay in order -/

section Ordered

variable {tmpPaddr root : PAddr} {tmpPt : ℕ → Pte} {s s' : VmState}

/-- The tables and the frames to come are in order, on the machine without a window. -/
abbrev FlatOrdered (tmpPaddr : PAddr) (tmpPt : ℕ → Pte) (root : PAddr) (t : FlatState) : Prop :=
  Ordered tmpPaddr tmpPt root t.mem t.frames

theorem flatOrdered_pmRequestPage :
    Keeps (FlatOrdered tmpPaddr tmpPt root) (flat tmpPaddr).pmRequestPage := by
  constructor
  intro t h paddr t' hok
  simp only [flat] at hok
  split at hok
  next => cases hok
  next frames hframes =>
    cases hok
    rw [FlatOrdered, hframes] at h
    exact ⟨h.oneLevel, fun f hf => h.aligned f (List.mem_cons_of_mem _ hf),
      fun f hf => h.noTable f (List.mem_cons_of_mem _ hf), h.nodup.of_cons⟩

theorem flatOrdered_vmSetBacking (hroot : root ≠ tmpPaddr) (vaddr : ℕ) (paddr : PAddr) :
    Keeps (FlatOrdered tmpPaddr tmpPt root) (vmSetBacking (flat tmpPaddr) root vaddr paddr) := by
  apply Keeps.bind (keeps_check _ _)
  intro _
  apply Keeps.bind (keeps_check _ _)
  intro _
  apply Triple.of_start
  intro t h
  have hat : TableAt tmpPaddr tmpPt root t.mem 0 root := .root
  apply (recurseSetBacking_eq 3 rfl (fun _ hi => indices_lt hi) hroot hat rfl).mono fun _ ht => ht
  rintro res t' (⟨-, rfl⟩ | ⟨-, q, i, -, hleaf, hne, -, rfl⟩)
  · exact h
  · have hstores : LeafStores tmpPaddr tmpPt root t.mem
        (t.mem.set q i (setBackingPte (t.mem q i) paddr)) (· = (q, i)) := by
      refine ⟨fun slot heq => by rw [heq]; exact ⟨hleaf, hne⟩, fun slot hother => ?_⟩
      rw [Tables.set_apply, if_neg fun heq => hother (Prod.ext heq.1 heq.2)]
    exact hstores.ordered h

/-- `mm_map_in_table` keeps the tables in order. -/
theorem flatOrdered_mmMapInTable (hroot : root ≠ tmpPaddr) (fuel hint size : ℕ) (flags : Flags) :
    Keeps (FlatOrdered tmpPaddr tmpPt root)
      (mmMapInTable (flat tmpPaddr) fuel root hint size flags) := by
  have hreserve : Keeps (FlatOrdered tmpPaddr tmpPt root)
      (vmReservePages (flat tmpPaddr) fuel root hint (pagesOf size) flags) := by
    apply Triple.of_start
    intro t h
    apply (vmMapPages_grown hroot fuel (reservedPaddr (pagesOf size)) (pagesOf size) hint flags t
      h).mono fun _ ht => ht
    exact fun _ t' ht' => ht'.ordered
  have hback : ∀ pages vaddr, Keeps (FlatOrdered tmpPaddr tmpPt root)
      (backPages (flat tmpPaddr) (vmSetBacking (flat tmpPaddr) root) pages vaddr) := by
    intro pages
    induction pages with
    | zero => exact fun _ => Keeps.pure ()
    | succ pages ih =>
      intro vaddr
      apply Keeps.bind flatOrdered_pmRequestPage
      intro paddr
      apply Keeps.bind (flatOrdered_vmSetBacking hroot vaddr paddr)
      exact fun _ => Keeps.bind (keeps_check _ _) fun _ => ih _
  apply Keeps.bind hreserve
  rintro ⟨res, hint⟩
  apply Keeps.ite (Keeps.pure _)
  exact Keeps.bind (hback _ _) fun _ => Keeps.pure _

/-- A call of `mm_map_in_table` that does not walk `tmp_pt`. -/
theorem ordered_of_mmMapInTable {fuel hint size r : ℕ} {flags : Flags}
    (hwin : WindowOk s.tmpPt s.firstFreeTmpIndex)
    (hordered : Ordered tmpPaddr s.tmpPt root s.mem s.frames)
    (hok : call root (mmMapInTable (kernel tmpPaddr) fuel (.table root) hint size flags) s =
      .ok (r, s')) (hclear : tmpPaddr ∉ s'.opened) :
    WindowOk s'.tmpPt s'.firstFreeTmpIndex ∧
      Ordered tmpPaddr s'.tmpPt root s'.mem s'.frames := by
  obtain ⟨hroot, t, hflat, hleaves⟩ := call_flat
    (y := fun p => mmMapInTable (flat tmpPaddr) fuel p hint size flags)
    (fun _ _ hlevel _ _ hpt => sim_mmMapInTable hlevel hpt ..)
    (fun q _ => keeps_mmMapInTable (keeps_kernel tmpPaddr q) ..) hwin hok hclear
  have hordered' : FlatOrdered tmpPaddr s.tmpPt root t :=
    (flatOrdered_mmMapInTable hroot fuel hint size flags).run s.flat hordered r t hflat
  exact ⟨hleaves.window hwin, hleaves.ordered hordered'⟩

/-- A call of the interface that does not come to `tmp_pt`. -/
theorem ordered_of_call {c : VmCall} (hwin : WindowOk s.tmpPt s.firstFreeTmpIndex)
    (hordered : Ordered tmpPaddr s.tmpPt root s.mem s.frames) (hrange : c.InRange)
    (hok : call root (c.run (kernel tmpPaddr) (.table root)) s = .ok ((), s'))
    (hout : StaysOut tmpPaddr root s c) :
    WindowOk s'.tmpPt s'.firstFreeTmpIndex ∧
      Ordered tmpPaddr s'.tmpPt root s'.mem s'.frames := by
  have hleaf : ∀ {places}, LeafCall tmpPaddr root s s' places →
      WindowOk s'.tmpPt s'.firstFreeTmpIndex ∧
        Ordered tmpPaddr s'.tmpPt root s'.mem s'.frames := fun hcall =>
    ⟨hcall.window hwin, hcall.ordered hordered⟩
  cases c with
  | mapPages fuel paddrStart pages vaddrHint flags =>
    obtain ⟨r, hr⟩ := call_map_ok hok
    obtain ⟨t, hleaves, hgrown⟩ := grown_of_call hwin hordered hr (hout s' hok)
    exact ⟨hleaves.window hwin, hleaves.ordered hgrown.ordered⟩
  | unmapPages vaddrStart pages =>
    obtain ⟨r, hr⟩ := call_map_ok hok
    rcases unmapPages_of_call hwin hr hrange (hout s' hok) with h | ⟨_, _, _, -, h, -⟩
    · exact hleaf h
    · exact hleaf h
  | vaddrToPaddr vaddr =>
    obtain ⟨r, hr⟩ := call_map_ok hok
    exact hleaf (vaddrToPaddr_of_call hwin hr (hout s' hok))
  | setBacking vaddr paddr =>
    obtain ⟨r, hr⟩ := call_map_ok hok
    rcases setBacking_of_call hwin hr (hout s' hok) with h | ⟨_, -, -, -, h⟩
    · exact hleaf h
    · exact hleaf h
  | flagPages vaddrStart pages flags =>
    obtain ⟨r, hr⟩ := call_map_ok hok
    obtain ⟨hroot, havoid⟩ := hout
    have heff := flag_of_call hwin hroot (hordered.flagPre hroot havoid) hr
    refine ⟨?_, heff.ordered hordered⟩
    rw [heff.tmpPt_eq, heff.first_eq]
    exact hwin

end Ordered

end Mimik.Vm
