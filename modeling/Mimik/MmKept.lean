/-
# What `mm_map` gives stays given

A call of `mm_map` that returns has backed the pages of its range, wherever `vm_map_pages` has put
them: the loop asserts that each page is found mapped.  So each page leads to a frame that
was free before, two pages lead to one frame only if they share their leaf entry, and other
pages keep what they have.  A call whose reservation is refused leaves both managers alone.

These frames are locked, and no client of the allocator holds them: they are not handed out
again in the rest of the run (`fresh_memory_kept`).
-/
import Mimik.MmExact
import Mimik.VmRefused

namespace Mimik.Vm

open FaultState

/-! ## The loop, when it returns -/

section Loop

variable {tmpPaddr root : PAddr} {tmpPt : ℕ → Pte} {t t' : FlatState} {n v : ℕ}

/-- The address at which a range goes on has the walk of the next page, also past the end of the
addresses. -/
theorem indices_wrap64 (v k : ℕ) :
    indices (wrap64 (v + pageSize) + k * pageSize) = indices (v + (k + 1) * pageSize) := by
  have hnumber : pageNumber (wrap64 (v + pageSize) + k * pageSize) =
      pageNumber (v + (k + 1) * pageSize) := by
    unfold pageNumber wrap64 pageSize
    omega
  rw [indices_eq_digits, indices_eq_digits, hnumber]

/-- Each page was found mapped, and its leaf entry holds the last frame that it was given. -/
structure BacksSome (tmpPaddr : PAddr) (tmpPt : ℕ → Pte) (root : PAddr) (n v : ℕ)
    (slot : ℕ → PAddr × ℕ) (t t' : FlatState) : Prop where
  place : ∀ k < n, pageTables.leafSlot (view tmpPaddr tmpPt t.mem) root
    (indices (v + k * pageSize)) = some (slot k)
  stores : LeafStores tmpPaddr tmpPt root t.mem t'.mem (fun x => ∃ k < n, x = slot k)
  enough : n ≤ t.frames.length
  rest : t'.frames = t.frames.drop n
  frame : ∀ k < n, present (t'.mem (slot k).1 (slot k).2) = true ∧ ∃ j < n, slot j = slot k ∧
    ptePaddr (t'.mem (slot k).1 (slot k).2) = t.frames.getD j 0#64

/-- One place before others. -/
def before (x : PAddr × ℕ) (slot : ℕ → PAddr × ℕ) : ℕ → PAddr × ℕ
  | 0 => x
  | k + 1 => slot k

/-- **The loop of `mm_map_in_table`** has found all pages mapped when it returns. -/
theorem backPages_some (hroot : root ≠ tmpPaddr) (hordered : FlatOrdered tmpPaddr tmpPt root t)
    (hok : backPages (flat tmpPaddr) (vmSetBacking (flat tmpPaddr) root) n v t = .ok ((), t')) :
    ∃ slot, BacksSome tmpPaddr tmpPt root n v slot t t' := by
  induction n generalizing v t with
  | zero =>
    cases hok
    exact ⟨fun _ => (root, 0), fun k hk => absurd hk (Nat.not_lt_zero k),
      ⟨fun x hx => by obtain ⟨k, hk, -⟩ := hx; exact absurd hk (Nat.not_lt_zero k), fun _ _ => rfl⟩,
      Nat.zero_le _, rfl, fun k hk => absurd hk (Nat.not_lt_zero k)⟩
  | succ n ih =>
    obtain ⟨f, t₁, hreq, hok⟩ := bind_eq_ok_iff.mp hok
    obtain ⟨res, _, hset, hok⟩ := bind_eq_ok_iff.mp hok
    obtain ⟨_, t₂, hcheck, hok⟩ := bind_eq_ok_iff.mp hok
    obtain ⟨hres, rfl⟩ := check_eq_ok_iff.mp hcheck
    obtain rfl : res = success := of_decide_eq_true hres
    have hordered₁ : FlatOrdered tmpPaddr tmpPt root t₁ :=
      flatOrdered_pmRequestPage.run t hordered f _ hreq
    have hordered₂ : FlatOrdered tmpPaddr tmpPt root t₂ :=
      (flatOrdered_vmSetBacking hroot v f).run _ hordered₁ _ _ hset
    -- the request, and the store for the first page
    obtain ⟨frames, hframes, rfl⟩ : ∃ frames, t.frames = f :: frames ∧ t₁ = { t with frames } := by
      simp only [flat] at hreq
      split at hreq
      next => cases hreq
      next frames hframes =>
        cases hreq
        exact ⟨frames, hframes, rfl⟩
    obtain ⟨_, _, hcheck₁, hset⟩ := bind_eq_ok_iff.mp hset
    obtain ⟨-, rfl⟩ := check_eq_ok_iff.mp hcheck₁
    obtain ⟨_, _, hcheck₂, hset⟩ := bind_eq_ok_iff.mp hset
    obtain ⟨-, rfl⟩ := check_eq_ok_iff.mp hcheck₂
    have hat : TableAt tmpPaddr tmpPt root ({ t with frames } : FlatState).mem 0 root := .root
    rcases (recurseSetBacking_eq 3 rfl (fun _ hi => indices_lt hi) hroot hat rfl).run _ rfl _ _
      hset with ⟨habs, -⟩ | ⟨-, q, i, hslot, htable, hne, hpres, rfl⟩
    · cases habs
    have hstores : LeafStores tmpPaddr tmpPt root t.mem
        (t.mem.set q i (setBackingPte (t.mem q i) f)) (· = (q, i)) := by
      refine ⟨fun x hx => by rw [hx]; exact ⟨htable, hne⟩, fun x hx => ?_⟩
      rw [Tables.set_apply, if_neg fun heq => hx (Prod.ext heq.1 heq.2)]
    obtain ⟨slot, hplace, hstores', henough, hrest, hframe⟩ := ih hordered₂ hok
    have hplaces : ∀ k < n + 1, pageTables.leafSlot (view tmpPaddr tmpPt t.mem) root
        (indices (v + k * pageSize)) = some (before (q, i) slot k) := by
      intro k hk
      cases k with
      | zero =>
        rw [Nat.zero_mul, Nat.add_zero]
        exact hslot
      | succ k =>
        rw [← indices_wrap64, ← hstores.leafSlot hordered₁ (isPath_indices _)]
        exact hplace k (Nat.lt_of_succ_lt_succ hk)
    refine ⟨before (q, i) slot, hplaces, ⟨?_, fun x hx => ?_⟩, ?_, ?_, fun k hk => ?_⟩
    · rintro x ⟨k, hk, rfl⟩
      refine ⟨(Radix.At.root.leafSlot (fun _ hj => indices_lt hj) (hplaces k hk)).1, ?_⟩
      cases k with
      | zero => exact hne
      | succ k => exact (hstores'.leaf _ ⟨k, Nat.lt_of_succ_lt_succ hk, rfl⟩).2
    · rw [hstores'.other x fun hx' => hx ?_]
      · exact hstores.other x fun heq => hx ⟨0, Nat.succ_pos n, heq⟩
      · obtain ⟨k, hk, rfl⟩ := hx'
        exact ⟨k + 1, Nat.succ_lt_succ hk, rfl⟩
    · rw [hframes]
      exact Nat.succ_le_succ henough
    · rw [hrest, hframes]
      rfl
    · have hlater : ∀ k < n, present (t'.mem (slot k).1 (slot k).2) = true ∧
          ∃ j < n + 1, before (q, i) slot j = slot k ∧
            ptePaddr (t'.mem (slot k).1 (slot k).2) = t.frames.getD j 0#64 := by
        intro k hk
        obtain ⟨hpresk, j, hj, hsame, haddr⟩ := hframe k hk
        exact ⟨hpresk, j + 1, Nat.succ_lt_succ hj, hsame, by rw [hframes]; exact haddr⟩
      cases k with
      | zero =>
        by_cases hagain : ∃ k < n, slot k = (q, i)
        · -- the entry was given another frame
          obtain ⟨k, hk, heq⟩ := hagain
          have hlast := hlater k hk
          rwa [heq] at hlast
        · have hentry : t'.mem q i = setBackingPte (t.mem q i) f := by
            have hnot : ¬ ∃ k < n, (q, i) = slot k := fun hx => by
              obtain ⟨k, hk, heq⟩ := hx
              exact hagain ⟨k, hk, heq.symm⟩
            rw [hstores'.other (q, i) hnot]
            exact (Tables.set_apply ..).trans (if_pos ⟨rfl, rfl⟩)
          have hal : ptePaddr f = f :=
            hordered.aligned f (by rw [hframes]; exact List.mem_cons_self)
          show present (t'.mem q i) = true ∧ _
          rw [hentry]
          refine ⟨present_setBackingPte hpres, 0, Nat.succ_pos n, rfl, ?_⟩
          show ptePaddr (t'.mem q i) = _
          rw [hentry, ptePaddr_setBackingPte hal, hframes]
          rfl
      | succ k => exact hlater k (Nat.lt_of_succ_lt_succ hk)

/-- Frames are used in order. -/
theorem flat_suffix (tmpPaddr : PAddr) (frames : List PAddr) :
    (flat tmpPaddr).Keeps fun t => t.frames <:+ frames := by
  refine ⟨flat_lookKeeps _, ?_, ⟨?_⟩, ?_, ?_⟩
  · exact fun p i e => ⟨fun t ht a t' hok => by cases hok; exact ht⟩
  · intro t ht a t' hok
    simp only [flat] at hok
    split at hok
    next => cases hok
    next rest hframes =>
      cases hok
      rw [hframes] at ht
      exact (List.suffix_cons _ rest).trans ht
  · exact fun p => ⟨fun t ht a t' hok => by cases hok; exact ht⟩
  · exact fun v => ⟨fun t ht a t' hok => by cases hok; exact ht⟩

end Loop

/-! ## The call -/

section Call

variable {env : Pm.PmEnv} {depth : ℕ} {tmpPaddr root : PAddr} {fuel hint size r : ℕ}
  {flags : Flags} {w : MmWorld} {s s' : MmState}

/-- What `mm_map` has done when it returns. -/
theorem mapFresh_ok {σ π : Type} {M : Machine σ π} {reserve : ℕ → Prog Fault σ (Status × ℕ)}
    {setBacking : ℕ → PAddr → Prog Fault σ Status} {t t' : σ}
    (hok : mapFresh M reserve setBacking size t = .ok (r, t')) : ∃ res v t₁,
      reserve (pagesOf size) t = .ok ((res, v), t₁) ∧
      (isError res = true ∧ r = 0 ∧ t' = t₁ ∨
        isError res = false ∧ r = v ∧
          backPages M setBacking (pagesOf size) v t₁ = .ok ((), t')) := by
  obtain ⟨⟨res, v⟩, t₁, hreserve, hrest⟩ := bind_eq_ok_iff.mp hok
  refine ⟨res, v, t₁, hreserve, ?_⟩
  replace hrest : (if isError res = true then pure 0 else (do
      backPages M setBacking (pagesOf size) v
      return v) : Prog Fault σ ℕ) t₁ = .ok (r, t') := hrest
  split at hrest
  next herr =>
    obtain ⟨rfl, rfl⟩ := pure_eq_ok_iff.mp hrest
    exact .inl ⟨herr, rfl, rfl⟩
  next hfound =>
    obtain ⟨_, t₂, hback, hret⟩ := bind_eq_ok_iff.mp hrest
    obtain ⟨rfl, rfl⟩ := pure_eq_ok_iff.mp hret
    exact .inr ⟨Bool.not_eq_true _ ▸ hfound, rfl, hback⟩

/-- No frames, no requests. -/
theorem Draws.eq_of_nil {p p' : Pm.PmState} (h : Draws env depth p [] p') : p' = p := by
  cases h
  rfl

/-- Both managers are as they were. -/
structure Untouched (s s' : MmState) : Prop where
  pm : s'.pm = s.pm
  mem : s'.vm.mem = s.vm.mem
  window : s'.vm.tmpPt = s.vm.tmpPt ∧ s'.vm.firstFreeTmpIndex = s.vm.firstFreeTmpIndex

/-- Each page of the range leads to a frame that was free and is locked, and that is the page of
no table; pages with one leaf entry have one frame, and no others do; and the pages that
were mapped through other entries are mapped as before. -/
structure MapsOwn (tmpPaddr root : PAddr) (s s' : MmState) (v pages : ℕ) (frame : ℕ → PAddr) :
    Prop where
  leaf : ∀ k < pages, ∃ e, s'.vm.leaf tmpPaddr root (v + k * pageSize) = some e ∧
    ptePaddr e = frame k
  page : ∀ k < pages, framePage (frame k) < Pm.bitmapSize
  free : ∀ k < pages, s.pm.pageBit (framePage (frame k)) = false
  locked : ∀ k < pages, s'.pm.pageBit (framePage (frame k)) = true
  noTable : ∀ k < pages, ¬ IsTable tmpPaddr root s'.vm (frame k)
  apart : ∀ j < pages, ∀ k < pages, frame j = frame k ↔
    s'.vm.leafSlot tmpPaddr root (v + j * pageSize) =
      s'.vm.leafSlot tmpPaddr root (v + k * pageSize)
  kept : ∀ u e, s.vm.leaf tmpPaddr root u = some e → (∀ k < pages,
    s'.vm.leafSlot tmpPaddr root u ≠ s'.vm.leafSlot tmpPaddr root (v + k * pageSize)) →
      s'.vm.leaf tmpPaddr root u = some e

/-- **A call of `mm_map_in_table`** that returns and does not walk `tmp_pt`. -/
theorem Owned.mapsOwn (hdepth : Pm.bitmapSize < depth) (h : Owned tmpPaddr root w)
    (hok : callTogether root (mmMapInTable (together env depth tmpPaddr) fuel (.table root) hint
      size flags) w.toMmState = .ok (r, s'))
    (hout : tmpPaddr ∉ s'.vm.opened) (hleft : 0 < s'.pm.freePages) :
    (r = 0 ∧ Untouched w.toMmState s') ∨
      ∃ frame, MapsOwn tmpPaddr root w.toMmState s' r (pagesOf size) frame := by
  have hlends : Lends env depth (callTogether root (mmMapInTable (together env depth tmpPaddr)
      fuel (.table root) hint size flags)) (call root (mmMapInTable (kernel tmpPaddr)
        fuel (.table root) hint size flags)) := (carries_lends.mmMapInTable ..).call
  obtain ⟨drawn, hdraws, hy⟩ := hlends.back w.toMmState r s' hok
  obtain ⟨hcount, hpages, hnodup, hbits⟩ := hdraws.drawn hdepth h.count hleft
  obtain ⟨hordered, hnext⟩ := h.next hdepth hdraws hleft
  have hcall := hy []
  rw [List.append_nil] at hcall
  obtain ⟨hroot, t, hflat, hleaves⟩ := call_flat (s := { w.vm with frames := drawn })
    (y := fun p => mmMapInTable (flat tmpPaddr) fuel p hint size flags)
    (fun _ _ hlevel _ _ hpt => sim_mmMapInTable hlevel hpt ..)
    (fun q _ => keeps_mmMapInTable (keeps_kernel tmpPaddr q) ..) h.window hcall hout
  have hframes : t.frames = [] := hleaves.frames_eq.symm
  have htmpPt : s'.vm.tmpPt = w.vm.tmpPt := hleaves.tmpPt_eq
  have hmem : s'.vm.mem = t.mem := hleaves.mem_eq
  obtain ⟨res, v, t₁, hmap, ⟨herr, rfl, rfl⟩ | ⟨-, rfl, hback⟩⟩ := mapFresh_ok hflat
  · -- nothing was reserved, so nothing was drawn
    left
    obtain ⟨rfl, -⟩ := vmMapPages_refused.run _ rfl _ _ hmap herr
    replace hframes : drawn = [] := hframes
    have hpm : s'.pm = w.pm := by
      rw [hframes] at hdraws
      exact hdraws.eq_of_nil
    exact ⟨rfl, hpm, hmem, htmpPt, hleaves.first_eq⟩
  · right
    have hgrown := (vmMapPages_grown hroot fuel (reservedPaddr (pagesOf size)) (pagesOf size) hint
      flags _ hordered).run _ rfl _ _ hmap
    have hfrom : t₁.frames <:+ drawn :=
      (keeps_vmMapPages (flat_suffix tmpPaddr drawn) ..).run _ (List.suffix_refl _) _ _ hmap
    obtain ⟨slot, hplace, hstores, henough, -, hframe⟩ := backPages_some hroot hgrown.ordered hback
    have htables : s'.vm.tables tmpPaddr = view tmpPaddr w.vm.tmpPt t.mem := by
      rw [VmState.tables, htmpPt, hmem]
    have hslot : ∀ k < pagesOf size, s'.vm.leafSlot tmpPaddr root (r + k * pageSize) =
        some (slot k) := by
      intro k hk
      rw [VmState.leafSlot, htables]
      exact (hstores.leafSlot hgrown.ordered (isPath_indices _)).trans (hplace k hk)
    -- the frame of a page is one of those that were drawn
    have hgiven : ∀ k < pagesOf size, ∃ j < pagesOf size, slot j = slot k ∧
        ptePaddr (t.mem (slot k).1 (slot k).2) = t₁.frames.getD j 0#64 := fun k hk =>
      (hframe k hk).2
    have hin : ∀ j < pagesOf size, t₁.frames.getD j 0#64 ∈ t₁.frames := by
      intro j hj
      rw [List.getD_eq_getElem?_getD, List.getElem?_eq_getElem (by omega)]
      exact List.getElem_mem _
    have hdrawn : ∀ k < pagesOf size, ptePaddr (t.mem (slot k).1 (slot k).2) ∈ t₁.frames := by
      intro k hk
      obtain ⟨j, hj, -, heq⟩ := hgiven k hk
      rw [heq]
      exact hin j hj
    refine ⟨fun k => ptePaddr (t.mem (slot k).1 (slot k).2), fun k hk => ?_, fun k hk => ?_,
      fun k hk => ?_, fun k hk => ?_, fun k hk => ?_, fun j hj k hk => ?_, fun u e he hother => ?_⟩
    · refine ⟨t.mem (slot k).1 (slot k).2, ?_, rfl⟩
      have hne := (hstores.leaf (slot k) ⟨k, hk, rfl⟩).2
      have hentry : s'.vm.tables tmpPaddr (slot k).1 (slot k).2 = t.mem (slot k).1 (slot k).2 := by
        rw [htables, view_of_ne hne]
      exact Radix.leaf_eq_some_iff.mpr ⟨slot k, hslot k hk, (hframe k hk).1, hentry⟩
    · exact (hpages _ (hfrom.subset (hdrawn k hk))).2.1
    · exact (hpages _ (hfrom.subset (hdrawn k hk))).2.2
    · exact (hbits _).mpr (.inr ⟨_, hfrom.subset (hdrawn k hk), rfl⟩)
    · rintro (htmp | ⟨n, hn, hat⟩)
      · exact (hnext _ (hfrom.subset (hdrawn k hk))).1 htmp
      · rw [htmpPt, hmem] at hat
        exact (hstores.ordered hgrown.ordered).noTable _ (hdrawn k hk) n hn hat
    · rw [hslot j hj, hslot k hk, Option.some.injEq]
      constructor
      · -- frames are handed out once
        intro heq
        obtain ⟨j', hj', hsame, hj''⟩ := hgiven j hj
        obtain ⟨k', hk', hsame', hk''⟩ := hgiven k hk
        rw [hj'', hk'', List.getD_eq_getElem?_getD, List.getD_eq_getElem?_getD,
          List.getElem?_eq_getElem (by omega), List.getElem?_eq_getElem (by omega)] at heq
        obtain rfl : j' = k' := hgrown.ordered.nodup.getElem_inj_iff.mp heq
        exact hsame.symm.trans hsame'
      · intro heq
        simp only [heq]
    · have hgrow : pageTables.leaf (view tmpPaddr w.vm.tmpPt t₁.mem) root (indices u) = some e :=
        hgrown.grows.leaf u e he
      rw [VmState.leaf, htables, hstores.leaf_eq hgrown.ordered (isPath_indices u)]
      · exact hgrow
      · rintro x hx ⟨k, hk, rfl⟩
        apply hother k hk
        rw [hslot k hk, VmState.leafSlot, htables]
        exact (hstores.leafSlot hgrown.ordered (isPath_indices u)).trans hx

end Call

/-! ## The rest of the run -/

section Runs

variable {env : Pm.PmEnv} {depth : ℕ} {tmpPaddr kpml4 : PAddr} {layoutVaddrEnd : ℕ}
  {w₀ w w' : MmWorld} {s' : MmState} {α : Type}

/-- Calls of the virtual memory manager release nothing. -/
theorem Lends.onlyLocks {x : Prog Fault MmState α} {y : Prog Fault VmState α} {a : α}
    {s : MmState} (h : Lends env depth x y) (hok : x s = .ok (a, s')) :
    Pm.OnlyLocks s.pm s'.pm := by
  obtain ⟨drawn, hdraws, -⟩ := h.back s a s' hok
  exact hdraws.onlyLocks

/-- A page that is locked, and that no client holds, stays so. -/
theorem Owned.stays (hdepth : Pm.bitmapSize < depth) (h : Owned tmpPaddr kpml4 w) {e : MmEvent}
    (hguard : MmGuard env depth tmpPaddr layoutVaddrEnd kpml4 w e)
    (hok : mmStep env depth tmpPaddr layoutVaddrEnd kpml4 w e = .ok w') {i : ℕ}
    (hi : w.pm.pageBit i = true ∧ i ∉ w.held) : w'.pm.pageBit i = true ∧ i ∉ w'.held := by
  cases e with
  | pm e => exact stays_of_client hdepth h.count hguard.clients hok hi.1 hi.2
  | vm c =>
    rw [mmStep] at hok
    cases hrun : callTogether kpml4 (c.run (together env depth tmpPaddr) (.table kpml4))
        w.toMmState with
    | error f =>
      rw [hrun] at hok
      cases hok
    | ok r =>
      rw [hrun] at hok
      cases hok
      exact ⟨(carries_lends.run (.table kpml4) c).call.onlyLocks hrun i hi.1, hi.2⟩
  | mmMap fuel hint size flags =>
    rw [mmStep] at hok
    cases hrun : callTogether kpml4 (mmMap (together env depth tmpPaddr) fuel layoutVaddrEnd
        (.table kpml4) hint size flags) w.toMmState with
    | error f =>
      rw [hrun] at hok
      cases hok
    | ok r =>
      rw [hrun] at hok
      cases hok
      exact ⟨(carries_lends.mmMapInTable ..).call.onlyLocks (mmMap_ok hrun) i hi.1, hi.2⟩

/-- **Memory from `mm_map` is nobody else's.**  In a run of the two managers a call of `mm_map` that
returns has left both as they were and returned `NULL`, or each page of the range that it
returned leads to a page of memory of its own; and whatever happens afterwards, these pages of
memory stay locked, no client holds them, and they are not handed out again. -/
theorem fresh_memory_kept (hdepth : Pm.bitmapSize < depth)
    (hboot : Booted env depth tmpPaddr kpml4 w₀) {es : List MmEvent}
    (hrun : GuardedRun.Run (mmStep env depth tmpPaddr layoutVaddrEnd kpml4)
      (MmGuard env depth tmpPaddr layoutVaddrEnd kpml4) w₀ es w) {fuel hint size r : ℕ}
    {flags : Flags}
    (hguard : MmGuard env depth tmpPaddr layoutVaddrEnd kpml4 w (.mmMap fuel hint size flags))
    (hok : callTogether kpml4 (mmMap (together env depth tmpPaddr) fuel layoutVaddrEnd
      (.table kpml4) hint size flags) w.toMmState = .ok (r, s')) {es' : List MmEvent}
    (hrest : GuardedRun.Run (mmStep env depth tmpPaddr layoutVaddrEnd kpml4)
      (MmGuard env depth tmpPaddr layoutVaddrEnd kpml4) { s' with held := w.held } es' w') :
    (r = 0 ∧ Untouched w.toMmState s') ∨
    ∃ frame, MapsOwn tmpPaddr kpml4 w.toMmState s' r (pagesOf size) frame ∧
      ∀ k < pagesOf size, w'.pm.pageBit (framePage (frame k)) = true ∧
        framePage (frame k) ∉ w'.held ∧
        ∀ drawn p', Draws env depth w'.pm drawn p' → 0 < p'.freePages → frame k ∉ drawn := by
  have hw := (hboot.owned hdepth).run hdepth hrun
  have hstep : mmStep env depth tmpPaddr layoutVaddrEnd kpml4 w (.mmMap fuel hint size flags) =
      .ok { s' with held := w.held } := by
    rw [mmStep, hok]
    rfl
  have hnext := hw.step hdepth hguard hstep
  have hout := hguard.staysOut _ hstep
  have hleft := hguard.leaves _ hstep
  rcases hw.mapsOwn hdepth (mmMap_ok hok) hout hleft with hrefused | ⟨frame, howns⟩
  · exact .inl hrefused
  · refine .inr ⟨frame, howns, fun k hk => ?_⟩
    have hfree : framePage (frame k) ∉ w.held := fun hmem => by
      have hset := hw.held _ hmem
      rw [howns.free k hk] at hset
      cases hset
    obtain ⟨hend, hset, hnot⟩ : Owned tmpPaddr kpml4 w' ∧
        w'.pm.pageBit (framePage (frame k)) = true ∧ framePage (frame k) ∉ w'.held :=
      hrest.invariant (I := fun w => Owned tmpPaddr kpml4 w ∧
          w.pm.pageBit (framePage (frame k)) = true ∧ framePage (frame k) ∉ w.held)
        (fun _ _ _ h hguard hok => ⟨h.1.step hdepth hguard hok, h.1.stays hdepth hguard hok h.2⟩)
        ⟨hnext, howns.locked k hk, hfree⟩
    refine ⟨hset, hnot, fun drawn p' hdraws hleft' hmem => ?_⟩
    have hclear := ((hdraws.drawn hdepth hend.count hleft').page _ hmem).2.2
    rw [hset] at hclear
    cases hclear

/-- A heap of two pages, and a request afterwards. -/
theorem fresh_memory_kept_heap : ∃ pm s' w' r, Pm.pmInit tablesEnv 40000 Pm.flatMap = .ok pm ∧
    callTogether 0x1000#64 (mmMap (together tablesEnv 40000 0x8000#64) 2 0xffffffff80100000
      (.table 0x1000#64) 0xffff800000000000 0x2000 vmFlagWritable) (startWorld pm).toMmState =
        .ok (r, s') ∧ r ≠ 0 ∧
    mmStep tablesEnv 40000 0x8000#64 0xffffffff80100000 0x1000#64 { s' with held := ∅ }
      (.pm .requestPage) = .ok w' ∧
    ∃ frame, MapsOwn 0x8000#64 0x1000#64 (startWorld pm).toMmState s' r 2 frame ∧
      ∀ k < 2, w'.pm.pageBit (framePage (frame k)) = true := by
  have htest : ((Pm.pmInit tablesEnv 40000 Pm.flatMap).toOption.any fun pm =>
      ((List.range 12).all fun i => pm.pageBit i) && !pm.pageBit 100 &&
      (callTogether 0x1000#64 (mmMap (together tablesEnv 40000 0x8000#64) 2 0xffffffff80100000
        (.table 0x1000#64) 0xffff800000000000 0x2000 vmFlagWritable)
        { pm, vm := sparseState heapEntries [] }).toOption.any fun x =>
          x.1 != 0 && !x.2.pm.pageBit 100 && !x.2.pm.pageBit 101 &&
          decide (0x8000#64 ∉ x.2.vm.opened) &&
          (mmStep tablesEnv 40000 0x8000#64 0xffffffff80100000 0x1000#64
            { x.2 with held := ∅ } (.pm .requestPage)).toOption.any fun w' =>
              !w'.pm.pageBit 100) = true := by
    decide +kernel
  obtain ⟨pm, hinit, htest⟩ := Except.exists_of_any htest
  rw [Bool.and_eq_true, Bool.and_eq_true, List.all_eq_true] at htest
  obtain ⟨⟨hlow, hclear⟩, htest⟩ := htest
  rw [← vmInit_heap] at htest
  obtain ⟨⟨r, s'⟩, hmap, htest⟩ := Except.exists_of_any htest
  simp only [Bool.and_eq_true, Bool.not_eq_true', bne_iff_ne] at htest
  obtain ⟨⟨⟨⟨hr, h100⟩, h101⟩, hopened⟩, htest⟩ := htest
  obtain ⟨w', hreq, hleft⟩ := Except.exists_of_any htest
  have hfree : ∀ {p : Pm.PmState}, p.pageBit 100 = false → 0 < p.freePages := fun h =>
    Finset.card_pos.mpr ⟨100, Pm.PmState.mem_freeSet.mpr ⟨by decide, h⟩⟩
  have hstep : mmStep tablesEnv 40000 0x8000#64 0xffffffff80100000 0x1000#64 (startWorld pm)
      (.mmMap 2 0xffff800000000000 0x2000 vmFlagWritable) = .ok { s' with held := ∅ } := by
    rw [mmStep]
    exact congrArg (Except.map _) hmap
  have hguard : MmGuard tablesEnv 40000 0x8000#64 0xffffffff80100000 0x1000#64 (startWorld pm)
      (.mmMap 2 0xffff800000000000 0x2000 vmFlagWritable) := by
    refine ⟨trivial, fun w hw => ?_, fun w hw => ?_⟩
    · cases hstep.symm.trans hw
      exact of_decide_eq_true hopened
    · cases hstep.symm.trans hw
      exact hfree h100
  have hrest : GuardedRun.Run (mmStep tablesEnv 40000 0x8000#64 0xffffffff80100000 0x1000#64)
      (MmGuard tablesEnv 40000 0x8000#64 0xffffffff80100000 0x1000#64) { s' with held := ∅ }
      [.pm .requestPage] w' := by
    refine .cons ⟨⟨?_, fun a ha => absurd ha List.not_mem_nil⟩, trivial, fun w hw => ?_⟩ hreq
      (.nil w')
    · exact Pm.one_lt_freePages (by decide) (by decide) (by decide) h100 h101
    · cases hreq.symm.trans hw
      exact hfree (by simpa using hleft)
  rcases fresh_memory_kept (by decide) (booted_start hinit hlow (by simpa using hclear))
    (.nil (startWorld pm)) hguard hmap hrest with ⟨hzero, -⟩ | ⟨frame, howns, hkept⟩
  · exact absurd hzero hr
  · exact ⟨pm, s', w', r, hinit, hmap, hr, hreq, frame, howns, fun k hk => (hkept k hk).1⟩

end Runs

end Mimik.Vm
