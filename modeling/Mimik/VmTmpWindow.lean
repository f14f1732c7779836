/-
# The temporary window after `vm_init`

`vm_init` makes the last 2 MiB of the address space a window on the entries of `tmp_pt`.
All three indices on the way there are 511.  The loop follows the tables of the boot as
far as they go; where an entry is missing it enters `tmp_pt`, and from then on `tmp_pt`
is the table of each level that is left, its own entry 511 leading to itself.

* No round of the loop undoes an earlier one (`slots_linkRounds`), so that the walk of the
  processor ends where the loop ended (`leafSlot_linkRounds`); that is `tmp_pt` unless all
  entries were there (`linkRounds_of_ne`).
* Then `map_page_tmp` and `unmap_page_tmp` are followed through every run
  (`WindowRun.Ok`): the slots in use are those of the addresses handed out, and
  `first_free_tmp_index` is the lowest of the others.
-/
import Mimik.VmReserved
import Mimik.PageWalk
import Mimik.GuardedRun

namespace Mimik.Vm

open FaultState

variable {tmpPaddr root pt : PAddr} {s s' : VmState} {i : ℕ}

/-! ## The way to the window -/

/-- The indices of the addresses in the window. -/
theorem indices_tmpVaddr (hi : i < 512) :
    indices (tmpVaddr i) = List.replicate 3 511 ++ [i] := by
  simp only [indices, tmpVaddr, ptTmpStartVaddr, pageSize, Nat.shiftRight_eq_div_pow,
    List.replicate, List.cons_append, List.nil_append, List.cons.injEq, and_true]
  omega

/-- The walk of an address in the window reads entry 511 of tables. -/
theorem leafSlot_window_congr {read read' : Tables} (h : ∀ p, read' p 511 = read p 511) (n : ℕ)
    (p : PAddr) :
    pageTables.leafSlot read' p (List.replicate n 511 ++ [i]) =
      pageTables.leafSlot read p (List.replicate n 511 ++ [i]) := by
  induction n generalizing p with
  | zero => rfl
  | succ n ih =>
    have hne : List.replicate n 511 ++ [i] ≠ [] := by simp
    rw [List.replicate_succ, List.cons_append, Radix.leafSlot_cons hne,
      Radix.leafSlot_cons hne, h, ih]

/-! ## The rounds of `vm_init` -/

/-- **The walk ends where the loop ends.** -/
theorem leafSlot_linkRounds (hal : ptePaddr tmpPaddr = tmpPaddr) (n : ℕ) (r : VmState × PAddr)
    (h : OnlySelf tmpPaddr r.1.tmpPt) :
    pageTables.leafSlot ((linkRounds tmpPaddr n r).1.tables tmpPaddr) r.2
      (List.replicate n 511 ++ [i]) = some ((linkRounds tmpPaddr n r).2, i) := by
  induction n generalizing r with
  | zero => rfl
  | succ n ih =>
    have hne : List.replicate n 511 ++ [i] ≠ [] := by simp
    obtain ⟨hpres, hnext⟩ := entry_linkTmpPt hal r.1 r.2
    obtain ⟨hkept, -⟩ := slots_linkRounds hal n (linkTmpPt tmpPaddr r.1 r.2 511) (h.linkTmpPt r.2)
    have hentry := hkept r.2 511 hpres
    rw [← hentry] at hpres hnext
    have hgo : pageTables.present ((linkRounds tmpPaddr (n + 1) r).1.tables tmpPaddr r.2 511) =
        true := hpres
    have hto : pageTables.next ((linkRounds tmpPaddr (n + 1) r).1.tables tmpPaddr r.2 511) =
        (linkTmpPt tmpPaddr r.1 r.2 511).2 := hnext
    rw [List.replicate_succ, List.cons_append, Radix.leafSlot_cons hne, if_pos hgo, hto]
    exact ih _ (h.linkTmpPt r.2)

/-- Once it has come to `tmp_pt`, the loop stays there. -/
theorem linkRounds_tmp (n : ℕ) (s : VmState) :
    (linkRounds tmpPaddr n (s, tmpPaddr)).2 = tmpPaddr := by
  induction n generalizing s with
  | zero => rfl
  | succ n ih =>
    have hlink : (linkTmpPt tmpPaddr s tmpPaddr 511).2 = tmpPaddr := by
      unfold linkTmpPt
      simp
    unfold linkRounds
    rw [← Prod.mk.eta (p := linkTmpPt tmpPaddr (s, tmpPaddr).1 (s, tmpPaddr).2 511), hlink]
    exact ih _

/-- A round that does not end at `tmp_pt` has followed an entry that was there. -/
theorem linkTmpPt_of_ne (h : (linkTmpPt tmpPaddr s pt 511).2 ≠ tmpPaddr) :
    pt ≠ tmpPaddr ∧ (linkTmpPt tmpPaddr s pt 511).1 = s ∧
      present (s.tables tmpPaddr pt 511) = true ∧
      ptePaddr (s.tables tmpPaddr pt 511) = (linkTmpPt tmpPaddr s pt 511).2 := by
  unfold linkTmpPt at h ⊢
  split at h
  next hgo =>
    rw [if_pos hgo]
    simp only [Bool.and_eq_true, bne_iff_ne] at hgo
    exact ⟨hgo.2, rfl, hgo.1, rfl⟩
  next => exact absurd rfl h

/-- **Rounds that do not end at `tmp_pt`** have followed entries that were there, in tables
other than `tmp_pt`. -/
theorem linkRounds_of_ne (n : ℕ) (r : VmState × PAddr)
    (h : (linkRounds tmpPaddr n r).2 ≠ tmpPaddr) {read : Tables}
    (hread : ∀ p ≠ tmpPaddr, read p 511 = r.1.tables tmpPaddr p 511) :
    pageTables.leafSlot read r.2 (List.replicate n 511 ++ [i]) =
      some ((linkRounds tmpPaddr n r).2, i) := by
  induction n generalizing r with
  | zero => rfl
  | succ n ih =>
    have hlink : (linkTmpPt tmpPaddr r.1 r.2 511).2 ≠ tmpPaddr := by
      intro heq
      refine h ?_
      unfold linkRounds
      rw [← Prod.mk.eta (p := linkTmpPt tmpPaddr r.1 r.2 511), heq]
      exact linkRounds_tmp n _
    obtain ⟨hpt, hsame, hpres, hnext⟩ := linkTmpPt_of_ne hlink
    rw [← hread r.2 hpt] at hpres hnext
    have hne : List.replicate n 511 ++ [i] ≠ [] := by simp
    have hgo : pageTables.present (read r.2 511) = true := hpres
    have hto : pageTables.next (read r.2 511) = (linkTmpPt tmpPaddr r.1 r.2 511).2 := hnext
    rw [List.replicate_succ, List.cons_append, Radix.leafSlot_cons hne, if_pos hgo, hto]
    refine ih _ h ?_
    rw [hsame]
    exact hread

/-- **The window addresses the temporary table.**  Where one of the three entries on the
way to the window is missing, the walk of the window's `i`-th page ends, after
`vm_init`, at entry `i` of `tmp_pt`. -/
theorem vmInit_leafSlot (hal : ptePaddr tmpPaddr = tmpPaddr)
    (habsent : s.leafSlot tmpPaddr root ptTmpStartVaddr = none) (hi : i < 512) :
    (vmInit tmpPaddr root s).leafSlot tmpPaddr root (tmpVaddr i) = some (tmpPaddr, i) := by
  have hstart : indices ptTmpStartVaddr = List.replicate 3 511 ++ [0] := by decide
  -- an entry was missing, so that the last round ends at `tmp_pt`
  have hlast : (linkRounds tmpPaddr 3 ({ s with tmpPt := fun _ => 0#64 }, root)).2 = tmpPaddr := by
    by_contra hne
    have hread : ∀ p ≠ tmpPaddr, s.tables tmpPaddr p 511 =
        VmState.tables { s with tmpPt := fun _ => 0#64 } tmpPaddr p 511 := by
      intro p hp
      unfold VmState.tables
      rw [view_of_ne hp, view_of_ne hp]
    have hwalk := linkRounds_of_ne (i := 0) 3 _ hne hread
    unfold VmState.leafSlot at habsent
    rw [hstart, hwalk] at habsent
    exact Option.some_ne_none _ habsent
  have hwalk := leafSlot_linkRounds (i := i) hal 3 ({ s with tmpPt := fun _ => 0#64 }, root)
    ⟨fun _ _ => rfl, Or.inl rfl⟩
  rw [hlast] at hwalk
  unfold VmState.leafSlot
  rw [indices_tmpVaddr hi, vmInit_eq]
  exact hwalk

/-! ## Runs of the window -/

instance : DecidableEq PtPtr
  | .table p, .table q => decidable_of_iff (p = q) (by simp)
  | .window v, .window w => decidable_of_iff (v = w) (by simp)
  | .table _, .window _ => .isFalse (by simp)
  | .window _, .table _ => .isFalse (by simp)

/-- A call of `map_page_tmp` or `unmap_page_tmp`. -/
inductive WindowEvent where
  | map (paddr : PAddr) (flags : Flags)
  | unmap (vaddr : PtPtr)

/-- The state, and the addresses that `map_page_tmp` returned and that are still in
use, each with the frame it was asked for. -/
structure WindowRun where
  state : VmState
  live : List (PtPtr × PAddr)

namespace WindowRun

/-- One call. -/
def step (r : WindowRun) : WindowEvent → Except Fault WindowRun
  | .map paddr flags => do
    let (vaddr, state) ← Kernel.mapPageTmp paddr flags r.state
    return { state := state, live := (vaddr, paddr) :: r.live }
  | .unmap vaddr => do
    let ((), state) ← Kernel.unmapPageTmp vaddr r.state
    return { state := state, live := r.live.filter fun x => x.1 ≠ vaddr }

/-- The calls that are made: fewer than 511 addresses are in use when a frame is
mapped, and only addresses in use are unmapped. -/
def Allowed (r : WindowRun) : WindowEvent → Prop
  | .map paddr _ => r.live.length < 511 ∧ paddr.toNat % pageSize = 0 ∧ paddr.toNat < 2 ^ 52
  | .unmap vaddr => vaddr ∈ r.live.map Prod.fst

/-- The processor holds no translation of a page of the window. -/
def Cold (s : VmState) : Prop := ∀ c ∈ s.tlb, ∀ i < 511, c.1 ≠ vpage (tmpVaddr i)

/-- What every run keeps, from the state `s` after `vm_init` on. -/
structure Ok (tmpPaddr root : PAddr) (s : VmState) (r : WindowRun) : Prop where
  window : WindowOk r.state.tmpPt r.state.firstFreeTmpIndex
  /-- The walk of the window's `i`-th page ends at entry `i` of `tmp_pt`. -/
  path : ∀ i < 511, r.state.leafSlot tmpPaddr root (tmpVaddr i) = some (tmpPaddr, i)
  last : r.state.tmpPt 511 = s.tmpPt 511
  /-- Each address in use is that of a slot which holds its frame. -/
  held : ∀ x ∈ r.live, ∃ i < 511, x.1 = .window (tmpVaddr i) ∧
    present (r.state.tmpPt i) = true ∧ ptePaddr (r.state.tmpPt i) = x.2
  /-- Each slot that is taken is that of an address in use. -/
  used : ∀ i < 511, present (r.state.tmpPt i) = true →
    .window (tmpVaddr i) ∈ r.live.map Prod.fst
  nodup : (r.live.map Prod.fst).Nodup
  /-- The translations held for the window are those of `tmp_pt`. -/
  cached : Cold s → ∀ c ∈ r.state.tlb, ∀ i < 511, c.1 = vpage (tmpVaddr i) →
    present (r.state.tmpPt i) = true ∧ c.2 = r.state.tmpPt i

/-- Distinct slots have distinct addresses. -/
theorem window_tmpVaddr_injective {j : ℕ} (h : PtPtr.window (tmpVaddr i) = .window (tmpVaddr j)) :
    i = j := by
  simp only [tmpVaddr, pageSize, PtPtr.window.injEq] at h
  omega

/-- They lie in distinct pages. -/
theorem vpage_tmpVaddr_injective {j : ℕ} (h : vpage (tmpVaddr i) = vpage (tmpVaddr j)) :
    i = j := by
  simp only [vpage, tmpVaddr, ptTmpStartVaddr, pageSize, Nat.shiftRight_eq_div_pow] at h
  omega

variable {r r' : WindowRun}

/-- As long as fewer than 511 addresses are in use there is a free slot. -/
theorem Ok.first_lt (hr : Ok tmpPaddr root s r) (hlive : r.live.length < 511) :
    r.state.firstFreeTmpIndex < 511 := by
  by_contra hge
  -- otherwise all 511 slots are taken
  have hfull : ∀ i < 511, present (r.state.tmpPt i) = true := by
    intro i hi
    exact hr.window.lowest i (by have := hr.window.ne; omega) (by omega)
  have hnodup : ((List.range 511).map fun i => PtPtr.window (tmpVaddr i)).Nodup :=
    List.nodup_range.map fun _ _ h => window_tmpVaddr_injective h
  have hsub : ((List.range 511).map fun i => PtPtr.window (tmpVaddr i)) ⊆
      r.live.map Prod.fst := by
    intro v hv
    obtain ⟨i, hi, rfl⟩ := List.mem_map.mp hv
    rw [List.mem_range] at hi
    exact hr.used i hi (hfull i hi)
  have hle := (List.subperm_of_subset hnodup hsub).length_le
  simp only [List.length_map, List.length_range] at hle
  omega

/-- A change of `tmp_pt` below its last entry leaves the way to the window alone. -/
theorem path_update (hi : i < 511) {e : Pte} (hmem : s'.mem = s.mem)
    (htmp : s'.tmpPt = Function.update s.tmpPt i e)
    (hpath : ∀ j < 511, s.leafSlot tmpPaddr root (tmpVaddr j) = some (tmpPaddr, j)) :
    ∀ j < 511, s'.leafSlot tmpPaddr root (tmpVaddr j) = some (tmpPaddr, j) := by
  intro j hj
  rw [← hpath j hj]
  unfold VmState.leafSlot
  rw [indices_tmpVaddr (by omega)]
  refine leafSlot_window_congr ?_ 3 root
  intro p
  have hne : (511 : ℕ) ≠ i := by omega
  unfold VmState.tables view
  rw [hmem, htmp, Function.update_of_ne hne]

/-- **`map_page_tmp`** returns the address of a slot that was free. -/
theorem Ok.map (hr : Ok tmpPaddr root s r) {paddr : PAddr} (flags : Flags)
    (hlive : r.live.length < 511) (hframe : ptePaddr paddr = paddr) :
    ∃ r', r.step (.map paddr flags) = .ok r' ∧ Ok tmpPaddr root s r' := by
  have hfirst := hr.first_lt hlive
  have hfree : present (r.state.tmpPt r.state.firstFreeTmpIndex) = false :=
    hr.window.free (by unfold ptLength; omega)
  generalize hi : r.state.firstFreeTmpIndex = i at hfirst hfree
  have hmod : i % 512 = i := Nat.mod_eq_of_lt (by omega)
  have hmap : Kernel.mapPageTmp paddr flags r.state =
      .ok (.window (tmpVaddr i), Kernel.tmpMapped r.state paddr flags) := by
    unfold Kernel.mapPageTmp
    rw [if_pos (by rw [hi, ptLength]; omega), hi, hmod]
  have htmp : (Kernel.tmpMapped r.state paddr flags).tmpPt =
      Function.update r.state.tmpPt i (setPte paddr flags) := by
    unfold Kernel.tmpMapped
    rw [hi, hmod]
  have hnext : (Kernel.tmpMapped r.state paddr flags).firstFreeTmpIndex =
      Kernel.nextFreeTmpIndex (Function.update r.state.tmpPt i (setPte paddr flags))
        ptLength i := by
    unfold Kernel.tmpMapped
    rw [hi, hmod]
  have hnew : PtPtr.window (tmpVaddr i) ∉ r.live.map Prod.fst := by
    intro hmem
    obtain ⟨x, hx, hxi⟩ := List.mem_map.mp hmem
    obtain ⟨j, -, hxj, hpres, -⟩ := hr.held x hx
    rw [hxj] at hxi
    rw [window_tmpVaddr_injective hxi, hfree] at hpres
    cases hpres
  refine ⟨{ state := Kernel.tmpMapped r.state paddr flags,
            live := (.window (tmpVaddr i), paddr) :: r.live }, ?_, ?_⟩
  · show (Kernel.mapPageTmp paddr flags r.state >>= _) = _
    rw [hmap]
    rfl
  constructor
  · rw [htmp, hnext, ← hi]
    exact WindowOk.take hr.window (by rw [hi]; exact hfirst) (present_setPte paddr flags)
  · exact path_update (s := r.state) hfirst rfl htmp hr.path
  · rw [htmp, Function.update_of_ne (by omega)]
    exact hr.last
  · intro x hx
    rcases List.mem_cons.mp hx with rfl | hx
    · refine ⟨i, hfirst, rfl, ?_⟩
      rw [htmp, Function.update_self, present_setPte, ptePaddr_setPte, hframe]
      exact ⟨rfl, rfl⟩
    · obtain ⟨j, hj, hxj, hpres, hpaddr⟩ := hr.held x hx
      have hne : j ≠ i := by
        rintro rfl
        rw [hfree] at hpres
        cases hpres
      refine ⟨j, hj, hxj, ?_⟩
      rw [htmp, Function.update_of_ne hne]
      exact ⟨hpres, hpaddr⟩
  · intro j hj hpres
    rw [List.map_cons, List.mem_cons]
    by_cases hji : j = i
    · exact Or.inl (by rw [hji])
    · rw [htmp, Function.update_of_ne hji] at hpres
      exact Or.inr (hr.used j hj hpres)
  · rw [List.map_cons]
    exact List.nodup_cons.mpr ⟨hnew, hr.nodup⟩
  · intro hcold c hc j hj hcj
    have hc' : c = (vpage (tmpVaddr i), setPte paddr flags) ∨ c ∈ r.state.tlb := by
      rw [← hmod, ← hi]
      exact List.mem_cons.mp hc
    rw [htmp]
    rcases hc' with rfl | hc'
    · rw [← vpage_tmpVaddr_injective hcj, Function.update_self]
      exact ⟨present_setPte paddr flags, rfl⟩
    · obtain ⟨hpres, hentry⟩ := hr.cached hcold c hc' j hj hcj
      have hne : j ≠ i := by
        rintro rfl
        rw [hfree] at hpres
        cases hpres
      rw [Function.update_of_ne hne]
      exact ⟨hpres, hentry⟩

/-- A slot that is given back keeps the invariant of the window. -/
theorem windowOk_release {tmpPt : ℕ → Pte} {first : ℕ} (hwin : WindowOk tmpPt first)
    (hi : i < 511) :
    WindowOk (Function.update tmpPt i 0#64) (if i < first then i else first) := by
  have hle := hwin.le
  have hne := hwin.ne
  refine ⟨?_, ?_, ?_, ?_, ?_⟩
  · intro j hj habs
    by_cases hji : j = i
    · rw [hji, Function.update_self]
    · rw [Function.update_of_ne hji] at habs ⊢
      exact hwin.clear j hj habs
  · split <;> omega
  · split <;> omega
  · intro hlt
    by_cases hif : i < first
    · rw [if_pos hif, Function.update_self, present_zero]
    · rw [if_neg hif] at hlt ⊢
      by_cases hfi : first = i
      · rw [hfi, Function.update_self, present_zero]
      · rw [Function.update_of_ne hfi]
        exact hwin.free hlt
  · intro j hj hj'
    have hji : j ≠ i := by
      rintro rfl
      split at hj <;> omega
    rw [Function.update_of_ne hji]
    refine hwin.lowest j ?_ hj'
    split at hj <;> omega

/-- **`unmap_page_tmp`** of an address in use clears its slot. -/
theorem Ok.unmap (hr : Ok tmpPaddr root s r) {vaddr : PtPtr}
    (hmem : vaddr ∈ r.live.map Prod.fst) :
    ∃ r', r.step (.unmap vaddr) = .ok r' ∧ Ok tmpPaddr root s r' := by
  obtain ⟨x, hx, rfl⟩ := List.mem_map.mp hmem
  obtain ⟨i, hi, hxi, -, -⟩ := hr.held x hx
  have hindex : tmpIndex (tmpVaddr i) = i := tmpIndex_tmpVaddr (by omega)
  have hstart : ¬ tmpVaddr i < ptTmpStartVaddr := by
    unfold tmpVaddr
    omega
  have hunmap : Kernel.unmapPageTmp x.1 r.state =
      .ok ((), Kernel.tmpUnmapped r.state (tmpVaddr i)) := by
    have hne : ¬ tmpIndex (tmpVaddr i) = 511 := by omega
    rw [hxi]
    unfold Kernel.unmapPageTmp
    simp only [if_neg hstart, if_neg hne]
  have htmp : (Kernel.tmpUnmapped r.state (tmpVaddr i)).tmpPt =
      Function.update r.state.tmpPt i 0#64 := by
    unfold Kernel.tmpUnmapped
    rw [hindex]
  have hnext : (Kernel.tmpUnmapped r.state (tmpVaddr i)).firstFreeTmpIndex =
      if i < r.state.firstFreeTmpIndex then i else r.state.firstFreeTmpIndex := by
    unfold Kernel.tmpUnmapped
    rw [hindex]
  refine ⟨{ state := Kernel.tmpUnmapped r.state (tmpVaddr i),
            live := r.live.filter fun y => y.1 ≠ x.1 }, ?_, ?_⟩
  · show (Kernel.unmapPageTmp x.1 r.state >>= _) = _
    rw [hunmap]
    rfl
  constructor
  · rw [htmp, hnext]
    exact windowOk_release hr.window hi
  · exact path_update (s := r.state) hi rfl htmp hr.path
  · rw [htmp, Function.update_of_ne (by omega)]
    exact hr.last
  · intro y hy
    rw [List.mem_filter, decide_eq_true_eq] at hy
    obtain ⟨j, hj, hyj, hpres, hpaddr⟩ := hr.held y hy.1
    have hne : j ≠ i := by
      rintro rfl
      exact hy.2 (by rw [hyj, hxi])
    refine ⟨j, hj, hyj, ?_⟩
    rw [htmp, Function.update_of_ne hne]
    exact ⟨hpres, hpaddr⟩
  · intro j hj hpres
    have hji : j ≠ i := by
      rintro rfl
      rw [htmp, Function.update_self, present_zero] at hpres
      cases hpres
    rw [htmp, Function.update_of_ne hji] at hpres
    obtain ⟨y, hy, hyj⟩ := List.mem_map.mp (hr.used j hj hpres)
    refine List.mem_map.mpr ⟨y, List.mem_filter.mpr ⟨hy, ?_⟩, hyj⟩
    rw [decide_eq_true_eq, hyj, hxi]
    intro heq
    exact hji (window_tmpVaddr_injective heq)
  · exact (List.filter_sublist.map _).nodup hr.nodup
  · intro hcold c hc j hj hcj
    have hc' : c ∈ r.state.tlb ∧ (c.1 != vpage (tmpVaddr i)) = true := List.mem_filter.mp hc
    obtain ⟨hpres, hentry⟩ := hr.cached hcold c hc'.1 j hj hcj
    have hji : j ≠ i := by
      rintro rfl
      exact (bne_iff_ne.mp hc'.2) hcj
    rw [htmp, Function.update_of_ne hji]
    exact ⟨hpres, hentry⟩

/-- **One allowed call** returns and keeps the window in order. -/
theorem Ok.step (hr : Ok tmpPaddr root s r) {e : WindowEvent} (he : r.Allowed e) :
    ∃ r', r.step e = .ok r' ∧ Ok tmpPaddr root s r' := by
  cases e with
  | map paddr flags => exact hr.map flags he.1 (ptePaddr_of_page he.2.1 he.2.2)
  | unmap vaddr => exact hr.unmap he

end WindowRun

/-- **The temporary window.**  Where one of the three entries on the way to the window
is missing, the walk of the window's `i`-th page ends, after `vm_init`, at entry `i` of
`tmp_pt`.  From then on, in every run that unmaps only addresses in use and maps only
while fewer than 511 are, each call returns; the addresses in use are distinct, and the
walk of each ends at an entry that holds the frame it was mapped to, as does any
translation that the processor has kept of it; and entry 511 of `tmp_pt` is what
`vm_init` left there. -/
theorem tmp_window (htmp : tmpPaddr.toNat % pageSize = 0 ∧ tmpPaddr.toNat < 2 ^ 52)
    (habsent : s.leafSlot tmpPaddr root ptTmpStartVaddr = none) :
    (∀ i < 511,
      (vmInit tmpPaddr root s).leafSlot tmpPaddr root (tmpVaddr i) = some (tmpPaddr, i)) ∧
    ∀ es r, GuardedRun.Run WindowRun.step WindowRun.Allowed ⟨vmInit tmpPaddr root s, []⟩ es r →
      (∀ e, r.Allowed e → ∃ r', r.step e = .ok r') ∧
      (r.live.map Prod.fst).Nodup ∧
      (∀ x ∈ r.live, ∃ i < 511, x.1 = .window (tmpVaddr i) ∧
        (∃ e, r.state.leaf tmpPaddr root (tmpVaddr i) = some e ∧ ptePaddr e = x.2) ∧
        (WindowRun.Cold (vmInit tmpPaddr root s) →
          ∀ c ∈ r.state.tlb, c.1 = vpage (tmpVaddr i) → ptePaddr c.2 = x.2)) ∧
      r.state.tmpPt 511 = (vmInit tmpPaddr root s).tmpPt 511 := by
  have hpath : ∀ i < 511,
      (vmInit tmpPaddr root s).leafSlot tmpPaddr root (tmpVaddr i) = some (tmpPaddr, i) :=
    fun i hi => vmInit_leafSlot (ptePaddr_of_page htmp.1 htmp.2) habsent (by omega)
  refine ⟨hpath, ?_⟩
  intro es r hrun
  have hclear : ∀ i, i ≠ 511 → (vmInit tmpPaddr root s).tmpPt i = 0#64 :=
    (onlySelf_vmInit s root).1.1
  have hinit : WindowRun.Ok tmpPaddr root (vmInit tmpPaddr root s)
      ⟨vmInit tmpPaddr root s, []⟩ := by
    refine ⟨(window_vmInit s root).1, hpath, rfl, by simp, ?_, List.nodup_nil, ?_⟩
    · intro i hi hpres
      rw [hclear i (by omega), present_zero] at hpres
      cases hpres
    · intro hcold c hc i hi hci
      exact absurd hci (hcold c hc i hi)
  have hok : WindowRun.Ok tmpPaddr root (vmInit tmpPaddr root s) r := by
    refine hrun.invariant ?_ hinit
    intro r₁ e r₂ hr₁ he hstep
    obtain ⟨r₃, hstep', hr₃⟩ := hr₁.step he
    rw [hstep] at hstep'
    cases hstep'
    exact hr₃
  refine ⟨?_, hok.nodup, ?_, hok.last⟩
  · intro e he
    obtain ⟨r', hstep, -⟩ := hok.step he
    exact ⟨r', hstep⟩
  · intro x hx
    obtain ⟨i, hi, hxi, hpres, hpaddr⟩ := hok.held x hx
    refine ⟨i, hi, hxi, ⟨r.state.tmpPt i, ?_, hpaddr⟩, ?_⟩
    · unfold VmState.leaf
      rw [Radix.leaf_eq_some_iff]
      refine ⟨(tmpPaddr, i), hok.path i hi, hpres, ?_⟩
      unfold VmState.tables
      rw [view_self]
    · intro hcold c hc hci
      rw [(hok.cached hcold c hc i hi hci).2, hpaddr]

/-- Tables of which all entries are missing. -/
def bootState : VmState where
  mem := fun _ _ => 0#64
  tmpPt := fun _ => 0#64
  firstFreeTmpIndex := 0
  frames := []
  tlb := []
  opened := []

/-- With `tmp_pt` at `0x8000` the window is reached through it; two frames are mapped and the first
is unmapped, and the address of the second still leads to it. -/
theorem tmp_window_empty :
    (vmInit 0x8000#64 0x1000#64 bootState).leafSlot 0x8000#64 0x1000#64 (tmpVaddr 7) =
        some (0x8000#64, 7) ∧
      ∃ r, GuardedRun.Run WindowRun.step WindowRun.Allowed
          ⟨vmInit 0x8000#64 0x1000#64 bootState, []⟩
          [.map 0x2000#64 vmFlagWritable, .map 0x3000#64 vmFlagWritable,
            .unmap (.window (tmpVaddr 0))] r ∧
        r.live = [(.window (tmpVaddr 1), 0x3000#64)] ∧
        ∃ i < 511, PtPtr.window (tmpVaddr 1) = .window (tmpVaddr i) ∧
          ∃ e, r.state.leaf 0x8000#64 0x1000#64 (tmpVaddr i) = some e ∧ ptePaddr e = 0x3000#64 := by
  obtain ⟨hpath, hruns⟩ := @tmp_window 0x8000#64 0x1000#64 bootState ⟨by decide, by decide⟩
    (by decide)
  have htest : ((WindowRun.step ⟨vmInit 0x8000#64 0x1000#64 bootState, []⟩
      (.map 0x2000#64 vmFlagWritable)).toOption.any fun r₁ =>
        decide (r₁.live = [(.window (tmpVaddr 0), 0x2000#64)]) &&
        (r₁.step (.map 0x3000#64 vmFlagWritable)).toOption.any fun r₂ =>
          decide (r₂.live =
            [(.window (tmpVaddr 1), 0x3000#64), (.window (tmpVaddr 0), 0x2000#64)]) &&
          (r₂.step (.unmap (.window (tmpVaddr 0)))).toOption.any fun r =>
            decide (r.live = [(.window (tmpVaddr 1), 0x3000#64)])) = true := by
    decide +kernel
  obtain ⟨r₁, hfirst, htest⟩ := Except.exists_of_any htest
  rw [Bool.and_eq_true, decide_eq_true_eq] at htest
  obtain ⟨hlive₁, htest⟩ := htest
  obtain ⟨r₂, hsecond, htest⟩ := Except.exists_of_any htest
  rw [Bool.and_eq_true, decide_eq_true_eq] at htest
  obtain ⟨hlive₂, htest⟩ := htest
  obtain ⟨r, hthird, htest⟩ := Except.exists_of_any htest
  have hlive : r.live = [(.window (tmpVaddr 1), 0x3000#64)] := of_decide_eq_true htest
  have hrun : GuardedRun.Run WindowRun.step WindowRun.Allowed
      ⟨vmInit 0x8000#64 0x1000#64 bootState, []⟩
      [.map 0x2000#64 vmFlagWritable, .map 0x3000#64 vmFlagWritable,
        .unmap (.window (tmpVaddr 0))] r := by
    refine .cons ⟨by decide, by decide, by decide⟩ hfirst
      (.cons ⟨?_, by decide, by decide⟩ hsecond (.cons ?_ hthird (.nil r)))
    · rw [hlive₁]
      decide
    · rw [WindowRun.Allowed, hlive₂]
      decide
  obtain ⟨-, -, hheld, -⟩ := hruns _ r hrun
  obtain ⟨i, hi, haddr, hleaf, -⟩ := hheld (.window (tmpVaddr 1), 0x3000#64) (by
    rw [hlive]
    exact List.mem_singleton_self _)
  exact ⟨hpath 7 (by decide), r, hrun, hlive, i, hi, haddr, hleaf⟩

end Mimik.Vm
