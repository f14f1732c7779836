/-
# Mappings that are refused

`vm_map_pages` gives an error back when `find_space` does: it only looks, through tables
that it takes into the temporary window and puts back.  `recurse_map`, which writes, has
no error of its own, so that an error never comes from a mapping that has begun.
-/
import Mimik.VmMapExact

namespace Mimik.Vm

open FaultState

section Refused

variable {tmpPaddr root paddrStart : PAddr} {s s' : VmState} {fuel pages vaddrHint v : ℕ}
  {flags : Flags} {t : FlatState} {res : Status}

/-- `recurse_map` returns nothing but `SUCCESS`: a round passes on what the level below
returns, and the loops end with it. -/
theorem recurseMap_success (height : ℕ) (index : List ℕ) (p paddr : PAddr) (n : ℕ) :
    Triple (fun _ => True) (recurseMap (flat tmpPaddr) flags height index p paddr n)
      fun r _ => r.1 = success := by
  induction height generalizing index p paddr n with
  | zero =>
    apply Triple.rounds fun _ _ _ => True
    · intro _ w
      apply Triple.ite
      · intro _
        apply Triple.bind (flat_read (Q := fun _ _ => True) p w.i fun _ _ => trivial)
        intro e
        apply Triple.ite
        · exact fun _ => Triple.pure fun _ _ => trivial
        · intro _
          apply Triple.bind (flat_write (Q := fun _ _ => True) p w.i _ fun _ _ => trivial)
          exact fun _ => Triple.pure fun _ _ => trivial
      · exact fun _ => Triple.pure fun _ _ => rfl
    · exact fun _ => Triple.pure fun _ _ => rfl
  | succ height ih =>
    apply Triple.rounds fun _ _ _ => True
    · intro _ w
      apply Triple.ite
      · intro _
        apply Triple.bind (flat_read (Q := fun _ _ => True) p w.i fun _ _ => trivial)
        intro e
        apply Triple.bind (Q := fun _ _ => True)
        · apply Triple.ite
          · exact fun _ => flat_mapPageTmp _ _ fun _ _ _ => trivial
          · exact fun _ => flat_createPt p w.i fun _ _ _ _ _ _ => trivial
        intro ptVaddr
        apply Triple.bind (flat_updatePtPteFlags (Q := fun _ _ => True) p w.i flags
          fun _ _ => trivial)
        intro _
        apply Triple.bind (ih index.tail ptVaddr w.paddr w.pages)
        rintro ⟨res, u⟩
        apply Triple.bind (Q := fun _ _ => res = success)
          (flat_unmapPageTmp ptVaddr fun _ hres => hres)
        intro _
        apply Triple.pure
        rintro t rfl
        trivial
      · exact fun _ => Triple.pure fun _ _ => rfl
    · exact fun _ => Triple.pure fun _ _ => rfl

/-- Without a window, an error leaves the state and the hint. -/
theorem vmMapPages_refused :
    Triple (fun u => u = t)
      (vmMapPages (flat tmpPaddr) fuel root paddrStart pages vaddrHint flags)
      fun r u => isError r.1 = true → u = t ∧ r.2 = vaddrHint := by
  have hcheck : ∀ x expr, Triple (fun u => u = t) (check x expr : Prog Fault FlatState Unit)
      fun _ u => u = t := by
    intro x expr
    apply Triple.ite
    · exact fun _ => Triple.pure fun _ hu => hu
    · exact fun _ => Triple.fault _
  apply Triple.bind (hcheck _ _)
  intro _
  apply Triple.bind (hcheck _ _)
  intro _
  apply Triple.bind (hcheck _ _)
  intro _
  apply Triple.bind (flat_findSpace fuel paddrStart pages flags 3 (indices vaddrHint) root)
  rintro ⟨res, index⟩
  apply Triple.ite
  · exact fun _ => Triple.pure fun u hu _ => ⟨hu, rfl⟩
  · intro _
    -- from here on there is no error to give back
    apply Triple.bind ((recurseMap_success 3 index root paddrStart pages).mono
      (fun _ _ => trivial) fun _ _ hres => hres)
    rintro ⟨res, w⟩
    apply Triple.ite
    · intro herr
      apply Triple.pure
      rintro u rfl
      cases herr
    · intro hnot
      exact Triple.pure fun u _ herr => absurd herr hnot

/-- **A failed mapping leaves no trace.**  When `vm_map_pages` returns an error, every table,
what `pm_request_page` is going to return, the temporary window and the hint are as before
the call, provided that `tmp_pt` is not one of the tables the call has walked. -/
theorem map_refused_leaves (hwin : WindowOk s.tmpPt s.firstFreeTmpIndex)
    (hok : call root (vmMapPages (kernel tmpPaddr) fuel (.table root) paddrStart pages vaddrHint
      flags) s = .ok ((res, v), s')) (herr : isError res = true) (hout : tmpPaddr ∉ s'.opened) :
    s'.mem = s.mem ∧ s'.frames = s.frames ∧ s'.tmpPt = s.tmpPt ∧
      s'.firstFreeTmpIndex = s.firstFreeTmpIndex ∧ v = vaddrHint := by
  obtain ⟨-, t, hflat, hleaves⟩ := vmMapPages_flat hwin hok hout
  obtain ⟨rfl, hv⟩ := vmMapPages_refused.run _ rfl _ _ hflat herr
  exact ⟨hleaves.mem_eq, hleaves.frames_eq, hleaves.tmpPt_eq, hleaves.first_eq, hv⟩

end Refused

/-- A page that is mapped is refused with `VM_FLAG_STRICT`. -/
theorem map_refused_leaves_strict :
    ∃ s', call 0x1000#64 (vmMapPages (kernel 0x8000#64) 1 (.table 0x1000#64) 0x6000#64 1 0
        vmFlagStrict) (rowState (fun i => if i = 0 then 0x5003#64 else 0#64) vmFlagWritable []) =
        .ok ((-eoverlap, 0), s') ∧
      s'.mem = rowTables (fun i => if i = 0 then 0x5003#64 else 0#64) vmFlagWritable := by
  have hrun : (call 0x1000#64
      (vmMapPages (kernel 0x8000#64) 1 (.table 0x1000#64) 0x6000#64 1 0 vmFlagStrict)
      (rowState (fun i => if i = 0 then 0x5003#64 else 0#64) vmFlagWritable [])).toOption.any
      (fun x => decide (x.1 = (-eoverlap, 0) ∧ 0x8000#64 ∉ x.2.opened)) = true := by
    decide +kernel
  obtain ⟨⟨r, s'⟩, hok, htest⟩ := Except.exists_of_any hrun
  obtain ⟨rfl, hout⟩ : r = (-eoverlap, 0) ∧ 0x8000#64 ∉ s'.opened := of_decide_eq_true htest
  exact ⟨s', hok, (map_refused_leaves window_rowState hok (by decide) hout).1⟩

end Mimik.Vm
