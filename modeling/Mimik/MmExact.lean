/-
# What `mm_map_in_table` gives

On a range that is free at the hint, with pages enough in the allocator and three free slots of the
temporary window, `mm_map_in_table` returns the hint: each page of the range then has a page
of memory of its own, which was free and is locked now, with the permissions asked for, and
what was mapped stays as it was (`mapFresh_exact`).  The permissions are those of the
entries that `vm_map_pages` has made for the range: the frames in these are
`(addr_t)-BYTES(pages)` and what follows, and `vm_set_backing` puts the others in their place.
-/
import Mimik.MmOwned
import Mimik.VmMapExact

namespace Mimik.Vm

open FaultState

/-! ## Another frame in an entry -/

/-- The entry of another frame. -/
theorem setBackingPte_setPte (addr : PAddr) {paddr : PAddr} (h : ptePaddr paddr = paddr)
    (flags : Flags) : setBackingPte (setPte addr flags) paddr = setPte paddr flags := by
  apply BitVec.eq_of_getLsbD_eq
  intro j hj
  have hframe : paddr.getLsbD j = (paddr.getLsbD j && decide (12 ≤ j ∧ j < 52)) := by
    rw [← getLsbD_ptePaddr paddr hj, h]
  rw [setBackingPte, BitVec.getLsbD_or, BitVec.getLsbD_and, BitVec.getLsbD_not,
    getLsbD_paddrMask hj, getLsbD_setPte _ _ hj, getLsbD_setPte _ _ hj, getLsbD_ptePaddr _ hj,
    getLsbD_ptePaddr _ hj, hframe]
  by_cases hin : 12 ≤ j ∧ j < 52
  · have h63 : j ≠ 63 := by omega
    have h2 : j ≠ 2 := by omega
    have h1 : j ≠ 1 := by omega
    have h0 : j ≠ 0 := by omega
    simp [hin, h63, h2, h1, h0]
  · simp [hin, hj]

/-- An address in an entry is that of a page. -/
theorem page_of_ptePaddr {paddr : PAddr} (h : ptePaddr paddr = paddr) :
    paddr.toNat % pageSize = 0 := by
  rw [← h, toNat_ptePaddr]
  exact Nat.mul_mod_left _ _

/-- `(addr_t)-BYTES(pages)` is the address of a page. -/
theorem reservedPaddr_page (pages : ℕ) : (reservedPaddr pages).toNat % pageSize = 0 := by
  rw [reservedPaddr, BitVec.toNat_sub, BitVec.toNat_ofNat, pageSize]
  simp only [BitVec.toNat_zero]
  omega

/-! ## Frames enough -/

section Draws

variable {env : Pm.PmEnv} {depth : ℕ}

/-- As many frames can be drawn as are free but one. -/
theorem exists_draws (hdepth : Pm.bitmapSize < depth) {n : ℕ} {p : Pm.PmState}
    (hs : Pm.InCount p) (hfree : n < p.freePages) (hmem : n * pageSize ≤ p.memInfo.free) :
    ∃ drawn p', Draws env depth p drawn p' ∧ drawn.length = n ∧ 0 < p'.freePages := by
  induction n generalizing p with
  | zero => exact ⟨[], p, .nil p, rfl, hfree⟩
  | succ n ih =>
    obtain ⟨c, hready⟩ := hs.ready
    obtain ⟨hreturns, -⟩ := hs.pmRequestPage env hdepth hready (by omega)
    rw [Nat.add_mul, Nat.one_mul] at hmem
    have hpage : pageSize ≤ p.memInfo.free := by omega
    obtain ⟨p₁, hreq, hcount, hbits, hinfo, -⟩ := hreturns hpage
    have hfree₁ : p₁.freePages + 1 = p.freePages := by
      apply Pm.freePages_set hready.lt hready.free
      intro i
      rw [hbits.bits, List.map_singleton, Pm.pageOf_mul]
      exact if_congr List.mem_singleton rfl rfl
    have hmem₁ : n * pageSize ≤ p₁.memInfo.free := by
      have hless : p₁.memInfo.free = sub64 p.memInfo.free pageSize := congrArg (·.free) hinfo
      rw [sub64, if_neg (by omega)] at hless
      omega
    obtain ⟨drawn, p', hdraws, hlen, hleft⟩ := ih hcount (by omega) hmem₁
    exact ⟨_ :: drawn, p', .cons hreq hdraws, by rw [List.length_cons, hlen], hleft⟩

end Draws

section Visits

variable {flags : Flags} {p paddr : PAddr} {pages : ℕ} {path : List ℕ} {L : List (List ℕ)}
  {t : FlatState} {r : PAddr × ℕ × FlatState}

/-- An entry that is present takes no frame, one that is not takes one. -/
theorem settled_frames (flags : Flags) (t : FlatState) (p : PAddr) (i : ℕ) :
    (present (t.mem p i) = true → ∃ t', t.settled flags p i = some t' ∧ t'.frames = t.frames ∧
      pageTables.SameShape t.mem t'.mem) ∧
    (0 < t.frames.length → ∃ t', t.settled flags p i = some t' ∧
      t.frames.length ≤ t'.frames.length + 1) := by
  have hkept : present (t.mem p i) = true →
      t.settled flags p i = some (t.set p i (reflag (t.mem p i) flags)) := fun hpres => if_pos hpres
  constructor
  · intro hpres
    have hflagged : Flagged flags _ _ t.mem (t.mem.set p i (reflag (t.mem p i) flags)) :=
      Flagged.reflag t.mem p i
    exact ⟨_, hkept hpres, rfl, hflagged.sameShape⟩
  · intro hpos
    by_cases hpres : present (t.mem p i) = true
    · exact ⟨_, hkept hpres, Nat.le_succ _⟩
    · obtain ⟨f, frames, hframes⟩ := List.exists_cons_of_length_pos hpos
      rw [FlatState.settled, if_neg hpres, hframes]
      refine ⟨_, rfl, ?_⟩
      show (f :: frames).length ≤ t.frames.tail.length + 1
      rw [hframes]
      exact le_rfl

/-- A visit takes no frame for a path that is mapped, and else at most one for each level. -/
theorem visit_frames (flags : Flags) (paddr : PAddr) (path : List ℕ) (p : PAddr) (t : FlatState) :
    (mapped t.mem p path = true → ∃ t', visit flags paddr path p t = some t' ∧
      t'.frames = t.frames) ∧
    (path.length ≤ t.frames.length + 1 → ∃ t', visit flags paddr path p t = some t' ∧
      t.frames.length + 1 ≤ t'.frames.length + max path.length 1) := by
  induction path generalizing p t with
  | nil => exact ⟨fun _ => ⟨t, rfl, rfl⟩, fun _ => ⟨t, rfl, le_rfl⟩⟩
  | cons i path ih =>
    by_cases hpath : path = []
    · subst hpath
      have hframes : (if present (t.mem p i) then t else t.set p i (setPte paddr flags)).frames =
          t.frames := by
        split <;> rfl
      exact ⟨fun _ => ⟨_, rfl, hframes⟩, fun _ => ⟨_, rfl, by rw [hframes]; exact le_rfl⟩⟩
    · have hpos := List.length_pos_iff.mpr hpath
      rw [visit_cons hpath, List.length_cons]
      obtain ⟨hkept, htaken⟩ := settled_frames flags t p i
      constructor
      · intro hmapped
        have hpres : present (t.mem p i) = true := by
          rw [mapped, Radix.leaf_cons hpath] at hmapped
          split at hmapped
          next hpres => exact hpres
          next => cases hmapped
        obtain ⟨t₁, hsettled, hframes, hshape⟩ := hkept hpres
        rw [mapped_cons hpres hpath] at hmapped
        have haddr : ptePaddr (t₁.mem p i) = ptePaddr (t.mem p i) := (hshape p i).2
        obtain ⟨t', hvisit, hframes'⟩ := (ih (ptePaddr (t₁.mem p i)) t₁).1 (by
          rw [mapped, hshape.isSome_leaf, haddr]
          exact hmapped)
        exact ⟨t', by rw [hsettled]; exact hvisit, hframes'.trans hframes⟩
      · intro hlen
        obtain ⟨t₁, hsettled, hframes⟩ := htaken (by omega)
        obtain ⟨t', hvisit, hframes'⟩ := (ih (ptePaddr (t₁.mem p i)) t₁).2 (by omega)
        exact ⟨t', by rw [hsettled]; exact hvisit, by omega⟩

/-- Three frames for each page are enough for a list of visits. -/
theorem visitAll_frames (hL : ∀ path ∈ L, path.length = 4) (hframes : 3 * pages ≤ t.frames.length) :
    ∃ r, visitAll flags p L paddr pages t = some r := by
  induction L generalizing paddr pages t with
  | nil => exact ⟨_, rfl⟩
  | cons path L ih =>
    have hlen := hL path List.mem_cons_self
    have hL' : ∀ path ∈ L, path.length = 4 := fun path' hpath =>
      hL path' (List.mem_cons_of_mem _ hpath)
    rw [visitAll]
    split
    next => exact ⟨_, rfl⟩
    next hpages =>
      obtain ⟨hkept, htaken⟩ := visit_frames flags paddr path p t
      by_cases hmapped : mapped t.mem p path = true
      · obtain ⟨t', hvisit, hframes'⟩ := hkept hmapped
        obtain ⟨r, hr⟩ : ∃ r, visitAll flags p L paddr pages t' = some r :=
          ih hL' (by rw [hframes']; exact hframes)
        refine ⟨r, ?_⟩
        rw [hvisit, hmapped]
        exact hr
      · obtain ⟨t', hvisit, hframes'⟩ := htaken (by omega)
        obtain ⟨r, hr⟩ : ∃ r, visitAll flags p L (paddr + 4096#64) (pages - 1) t' = some r :=
          ih hL' (by omega)
        refine ⟨r, ?_⟩
        rw [hvisit]
        show (if mapped t.mem p path = true then _ else _) = _
        rw [if_neg hmapped]
        exact hr

/-- A list of visits takes at most three frames for each page. -/
theorem visitAll_rest (hL : ∀ path ∈ L, path.length = 4) (hframes : 3 * pages ≤ t.frames.length)
    (hr : visitAll flags p L paddr pages t = some r) :
    t.frames.length ≤ r.2.2.frames.length + 3 * pages := by
  induction L generalizing paddr pages t with
  | nil =>
    cases hr
    exact Nat.le_add_right _ _
  | cons path L ih =>
    have hlen := hL path List.mem_cons_self
    have hL' : ∀ path ∈ L, path.length = 4 := fun path' hpath =>
      hL path' (List.mem_cons_of_mem _ hpath)
    rw [visitAll] at hr
    split at hr
    next =>
      cases hr
      exact Nat.le_add_right _ _
    next hpages =>
      obtain ⟨t₁, hvisit, hr⟩ := Option.bind_eq_some_iff.mp hr
      by_cases hmapped : mapped t.mem p path = true
      · obtain ⟨t', hvisit', hframes'⟩ := (visit_frames flags paddr path p t).1 hmapped
        obtain rfl : t' = t₁ := Option.some.inj (hvisit'.symm.trans hvisit)
        rw [if_pos hmapped] at hr
        rw [← hframes'] at hframes ⊢
        exact ih hL' hframes hr
      · have henough : path.length ≤ t.frames.length + 1 := by omega
        obtain ⟨t', hvisit', hframes'⟩ := (visit_frames flags paddr path p t).2 henough
        obtain rfl : t' = t₁ := Option.some.inj (hvisit'.symm.trans hvisit)
        rw [if_neg hmapped] at hr
        have hrest := ih hL' (by omega) hr
        omega

end Visits

/-! ## Backing a range -/

section Backing

variable {tmpPaddr root : PAddr} {tmpPt : ℕ → Pte} {t t' : FlatState} {slot : ℕ → PAddr × ℕ}
  {n v : ℕ}

/-- The places of the pages of a range, which are apart, and whose walks do not come to
`tmp_pt`. -/
structure SlotsOf (tmpPaddr : PAddr) (tmpPt : ℕ → Pte) (root : PAddr) (mem : Tables)
    (slot : ℕ → PAddr × ℕ) (n v : ℕ) : Prop where
  away : ∀ k < n, StaysAway tmpPaddr (view tmpPaddr tmpPt mem) root (indices (v + k * pageSize))
  place : ∀ k < n, pageTables.leafSlot (view tmpPaddr tmpPt mem) root
    (indices (v + k * pageSize)) = some (slot k)
  present : ∀ k < n, present (view tmpPaddr tmpPt mem (slot k).1 (slot k).2) = true
  apart : ∀ j < n, ∀ k < n, slot j = slot k → j = k
  page : ∀ k < n, (v + k * pageSize) % pageSize = 0
  lt : ∀ k < n, v + k * pageSize < 2 ^ 64

/-- The places of the other pages, when the first one was given a frame. -/
theorem SlotsOf.next {q : PAddr} {i : ℕ} {e : Pte} {mem : Tables} {frames : List PAddr}
    (h : SlotsOf tmpPaddr tmpPt root mem slot (n + 1) v)
    (hordered : Ordered tmpPaddr tmpPt root mem frames) (hslot : slot 0 = (q, i))
    (hne : q ≠ tmpPaddr) :
    SlotsOf tmpPaddr tmpPt root (mem.set q i e) (fun k => slot (k + 1)) n
      (wrap64 (v + pageSize)) := by
  have hplace := h.place 0 (Nat.succ_pos n)
  have hstores : LeafStores tmpPaddr tmpPt root mem (mem.set q i e) (· = (q, i)) := by
    refine ⟨fun x hx => ?_, fun x hx => ?_⟩
    · rw [hx, ← hslot]
      rw [hslot] at hplace ⊢
      exact ⟨(Radix.At.root.leafSlot (fun _ hj => indices_lt hj) hplace).1, hne⟩
    · rw [Tables.set_apply, if_neg fun heq => hx (Prod.ext heq.1 heq.2)]
  have hnext : ∀ k < n, wrap64 (v + pageSize) + k * pageSize = v + (k + 1) * pageSize := by
    intro k hk
    have hlt := h.lt (k + 1) (Nat.succ_lt_succ hk)
    rw [Nat.add_mul, Nat.one_mul] at hlt ⊢
    rw [wrap64_of_lt (by omega)]
    omega
  have hapart : ∀ k < n, slot (k + 1) ≠ (q, i) := by
    intro k hk heq
    have := h.apart (k + 1) (Nat.succ_lt_succ hk) 0 (Nat.succ_pos n) (by rw [heq, hslot])
    omega
  refine ⟨fun k hk => ?_, fun k hk => ?_, fun k hk => ?_, fun j hj k hk heq => ?_,
    fun k hk => ?_, fun k hk => ?_⟩
  · rw [hnext k hk]
    exact hstores.staysAway hordered (isPath_indices _) (h.away (k + 1) (Nat.succ_lt_succ hk))
  · rw [hnext k hk, hstores.leafSlot hordered (isPath_indices _)]
    exact h.place (k + 1) (Nat.succ_lt_succ hk)
  · rw [hstores.view_eq (hapart k hk)]
    exact h.present (k + 1) (Nat.succ_lt_succ hk)
  · exact Nat.succ.inj (h.apart (j + 1) (Nat.succ_lt_succ hj) (k + 1) (Nat.succ_lt_succ hk) heq)
  · rw [hnext k hk]
    exact h.page (k + 1) (Nat.succ_lt_succ hk)
  · rw [hnext k hk]
    exact h.lt (k + 1) (Nat.succ_lt_succ hk)

/-- What backing the pages in these places leaves. -/
structure Backs (slot : ℕ → PAddr × ℕ) (n : ℕ) (t t' : FlatState) : Prop where
  frames : t'.frames = t.frames.drop n
  stored : ∀ k < n, t'.mem (slot k).1 (slot k).2 =
    setBackingPte (t.mem (slot k).1 (slot k).2) (t.frames.getD k 0#64)
  other : ∀ x : PAddr × ℕ, (∀ k < n, x ≠ slot k) → t'.mem x.1 x.2 = t.mem x.1 x.2

/-- **The loop of `mm_map_in_table`** on pages that are mapped: each gets the next frame, as long
as there are any. -/
theorem backPages_ran (hordered : FlatOrdered tmpPaddr tmpPt root t)
    (hslots : SlotsOf tmpPaddr tmpPt root t.mem slot n v) :
    (n ≤ t.frames.length ∧ ∃ t', backPages (flat tmpPaddr) (vmSetBacking (flat tmpPaddr) root) n v
      t = .ok ((), t') ∧ Backs slot n t t') ∨
    t.frames.length < n ∧ backPages (flat tmpPaddr) (vmSetBacking (flat tmpPaddr) root) n v t =
      .error swapped := by
  induction n generalizing v t slot with
  | zero =>
    exact .inl ⟨Nat.zero_le _, t, rfl, rfl, fun k hk => absurd hk (Nat.not_lt_zero k),
      fun _ _ => rfl⟩
  | succ n ih =>
    rcases hf : t.frames with _ | ⟨f, frames⟩
    · have hreq : (flat tmpPaddr).pmRequestPage t = .error swapped := by
        simp only [flat, hf]
        rfl
      exact .inr ⟨Nat.succ_pos n, bind_eq_error hreq _⟩
    have hreq : (flat tmpPaddr).pmRequestPage t = .ok (f, { t with frames }) := by
      simp only [flat, hf]
    have hordered₁ : FlatOrdered tmpPaddr tmpPt root { t with frames } :=
      flatOrdered_pmRequestPage.run t hordered f _ hreq
    have hal : f.toNat % pageSize = 0 :=
      page_of_ptePaddr (hordered.aligned f (by rw [hf]; exact List.mem_cons_self))
    have haway := hslots.away 0 (Nat.succ_pos n)
    have hslot := hslots.place 0 (Nat.succ_pos n)
    have hpage := hslots.page 0 (Nat.succ_pos n)
    rw [Nat.zero_mul, Nat.add_zero] at haway hslot hpage
    have hleaf : pageTables.leaf (view tmpPaddr tmpPt t.mem) root (indices v) ≠ none := by
      rw [Radix.leaf_eq_some_iff.mpr ⟨slot 0, hslot, hslots.present 0 (Nat.succ_pos n), rfl⟩]
      exact Option.some_ne_none _
    -- the first page gets the first frame
    have haway' : StaysAway tmpPaddr (view tmpPaddr tmpPt ({ t with frames } : FlatState).mem) root
      (indices v) := haway
    obtain ⟨res, t₁, hset, ⟨hnone, -⟩ | ⟨q, i, hslot', hne, -, rfl, rfl⟩⟩ :=
      (recurseSetBacking_ran 3 rfl haway').run _ rfl
    · exact absurd hnone hleaf
    replace hslot' := hslot.symm.trans hslot'
    rw [Option.some.injEq] at hslot'
    set t₁ : FlatState := ({ t with frames } : FlatState).set q i (setBackingPte (t.mem q i) f)
      with ht₁
    have hback : vmSetBacking (flat tmpPaddr) root v f { t with frames } = .ok (success, t₁) := by
      rw [vmSetBacking, check, if_pos (decide_eq_true hpage), check, if_pos (decide_eq_true hal),
        pure_bind, pure_bind]
      exact hset
    have hordered' : FlatOrdered tmpPaddr tmpPt root t₁ :=
      (flatOrdered_vmSetBacking haway.start v f).run _ hordered₁ _ _ hback
    have hsame : ∀ x : PAddr × ℕ, x ≠ slot 0 → t₁.mem x.1 x.2 = t.mem x.1 x.2 := fun x hx => by
      rw [hslot'] at hx
      show t.mem.set q i _ x.1 x.2 = _
      rw [Tables.set_apply, if_neg fun heq => hx (Prod.ext heq.1 heq.2)]
    have hapart : ∀ k < n, slot (k + 1) ≠ slot 0 := fun k hk heq =>
      absurd (hslots.apart (k + 1) (Nat.succ_lt_succ hk) 0 (Nat.succ_pos n) heq) (by omega)
    -- the others get the rest
    have hround : backPages (flat tmpPaddr) (vmSetBacking (flat tmpPaddr) root) (n + 1) v t =
        backPages (flat tmpPaddr) (vmSetBacking (flat tmpPaddr) root) n (wrap64 (v + pageSize))
          t₁ := by
      rw [backPages, bind_eq_of_ok hreq, bind_eq_of_ok hback, check,
        if_pos (decide_eq_true rfl), pure_bind]
    rw [hround, List.length_cons]
    rcases ih hordered' (hslots.next hordered₁ hslot' hne) with
      ⟨hframes, t', hrest, hframes', hstored, hother⟩ | ⟨hframes, hrest⟩
    swap
    · exact .inr ⟨Nat.succ_lt_succ hframes, hrest⟩
    refine .inl ⟨Nat.succ_le_succ hframes, t', hrest, ?_, fun k hk => ?_, fun x hx => ?_⟩
    · rw [hframes', hf]
      rfl
    · cases k with
      | zero =>
        rw [hother (slot 0) fun k hk => (hapart k hk).symm, hslot', hf]
        show t.mem.set q i _ q i = _
        rw [Tables.set_apply, if_pos ⟨rfl, rfl⟩]
        rfl
      | succ k =>
        have hk' : k < n := Nat.lt_of_succ_lt_succ hk
        rw [hstored k hk', hsame (slot (k + 1)) (hapart k hk'), hf]
        rfl
    · rw [hother x fun k hk => hx (k + 1) (Nat.succ_lt_succ hk)]
      exact hsame x (hx 0 (Nat.succ_pos n))

/-- Of the frames to come, those behind others. -/
theorem Ordered.drop {mem : Tables} {frames rest : List PAddr}
    (h : Ordered tmpPaddr tmpPt root mem (frames ++ rest)) :
    Ordered tmpPaddr tmpPt root mem rest :=
  ⟨h.oneLevel, fun f hf => h.aligned f (List.mem_append_right _ hf),
    fun f hf => h.noTable f (List.mem_append_right _ hf), (List.nodup_append.mp h.nodup).2.1⟩

/-! ### What such stores keep -/

/-- The places that have changed. -/
theorem Backs.leafStores (h : Backs slot n t t')
    (hslots : SlotsOf tmpPaddr tmpPt root t.mem slot n v) (hne : ∀ k < n, (slot k).1 ≠ tmpPaddr) :
    LeafStores tmpPaddr tmpPt root t.mem t'.mem (fun x => ∃ k < n, x = slot k) where
  leaf := by
    rintro x ⟨k, hk, rfl⟩
    exact ⟨(Radix.At.root.leafSlot (fun _ hj => indices_lt hj) (hslots.place k hk)).1, hne k hk⟩
  other x hx := h.other x fun k hk heq => hx ⟨k, hk, heq⟩

/-- They are the same in the view of the processor. -/
theorem AllSet.view {mem : Tables} {flags : Flags} {path : List ℕ}
    (hset : AllSet flags mem root path) (h : ∀ n ≤ 3, ¬ TableOf root mem n tmpPaddr)
    (hpath : IsPath path) : AllSet flags (view tmpPaddr tmpPt mem) root path := by
  have hidx : ∀ i ∈ path.dropLast, i < 512 := fun i hi => hpath.2 i (List.mem_of_mem_dropLast hi)
  have hlen : path.dropLast.length = 3 := by rw [List.length_dropLast, hpath.1]
  have hsame : ∀ slot ∈ pageTables.slots mem root path.dropLast,
      Vm.view tmpPaddr tmpPt mem slot.1 slot.2 = mem slot.1 slot.2 := by
    intro slot hslot
    obtain ⟨m, -, hm, hat, -⟩ := Radix.At.root.slots hidx hslot
    rw [view_of_ne]
    rintro heq
    rw [heq] at hat
    exact h m (by omega) hat
  intro slot hslot
  rw [(Radix.leaf_congr hsame).1] at hslot
  rw [hsame slot hslot]
  exact hset slot hslot

/-- Entries above the leaf tables keep their permissions. -/
theorem LeafStores.allSet {mem mem' : Tables} {places : PAddr × ℕ → Prop} {frames : List PAddr}
    {flags : Flags} {path : List ℕ} (h : LeafStores tmpPaddr tmpPt root mem mem' places)
    (hordered : Ordered tmpPaddr tmpPt root mem frames) (hpath : IsPath path)
    (hset : AllSet flags (view tmpPaddr tmpPt mem) root path) :
    AllSet flags (view tmpPaddr tmpPt mem') root path := by
  have hidx : ∀ i ∈ path.dropLast, i < 512 := fun i hi => hpath.2 i (List.mem_of_mem_dropLast hi)
  have hlen : path.dropLast.length = 3 := by rw [List.length_dropLast, hpath.1]
  have hsame : ∀ slot ∈ pageTables.slots (view tmpPaddr tmpPt mem) root path.dropLast,
      view tmpPaddr tmpPt mem' slot.1 slot.2 = view tmpPaddr tmpPt mem slot.1 slot.2 := by
    intro slot hslot
    obtain ⟨m, -, hm, hat, -⟩ := Radix.At.root.slots hidx hslot
    exact h.upper hordered (by omega) hat slot.2
  intro slot hslot
  rw [(Radix.leaf_congr hsame).1] at hslot
  rw [hsame slot hslot]
  exact hset slot hslot

end Backing

/-! ## The call -/

section Call

variable {tmpPaddr root : PAddr} {s s' : VmState} {fuel hint size pages : ℕ} {flags : Flags}

/-- The pages of a range are backed by the given frames, and no others have changed. -/
structure Gives (tmpPaddr root : PAddr) (s s' : VmState) (v pages : ℕ) (flags : Flags)
    (frame : ℕ → PAddr) : Prop where
  leaf : ∀ k < pages, s'.leaf tmpPaddr root (v + k * pageSize) = some (setPte (frame k) flags)
  perms : ∀ k < pages, s'.perms tmpPaddr root (v + k * pageSize) = some (askedPerms flags)
  others : ∀ u, IsPage u → (∀ k < pages, u ≠ v + k * pageSize) →
    s'.leaf tmpPaddr root u = s.leaf tmpPaddr root u

/-- What is asked of the tables and of the range. -/
structure FreshPre (tmpPaddr root : PAddr) (s : VmState) (hint pages : ℕ) : Prop where
  window : WindowOk s.tmpPt s.firstFreeTmpIndex
  room : Room 3 s.tmpPt
  clear : ¬ LeadsToWindow tmpPaddr s.tmpPt s.mem root
  page : IsPage hint
  half : InHalf hint pages
  free : Free s.mem pages (indices hint) root
  apart : Unaliased tmpPaddr root s hint pages
  pos : 0 < pages

/-- Reserving a range that is free. -/
theorem FreshPre.reserve (h : FreshPre tmpPaddr root s hint pages) (fuel : ℕ) (flags : Flags)
    (hordered : Ordered tmpPaddr s.tmpPt root s.mem s.frames) (htmp : tmpPaddr ∉ s.frames) :
    (∃ t₁ s₁, vmReservePages (flat tmpPaddr) (fuel + 1) root hint pages flags s.flat =
        .ok ((success, hint), t₁) ∧ Leaves s t₁ s₁ ∧
      FreeCall tmpPaddr root (reservedPaddr pages) flags hint pages s s₁ hint ∧
      (3 * pages ≤ s.frames.length → s.frames.length ≤ t₁.frames.length + 3 * pages)) ∨
    s.frames.length < 3 * pages ∧
      vmReservePages (flat tmpPaddr) (fuel + 1) root hint pages flags s.flat = .error swapped := by
  have hsound : Sound tmpPaddr root s.flat := hordered.sound h.clear htmp
  have hroot : root ≠ tmpPaddr := root_ne_of_clear h.clear
  have hlen : ∀ path ∈ Radix.box 512 (indices hint), path.length = 4 := fun path hpath =>
    (isPath_of_mem_box path hpath).1
  rcases @vmMapPages_free tmpPaddr root (reservedPaddr pages) fuel pages hint flags s.flat hsound
    (reservedPaddr_page pages) h.page.2.2 h.pos h.free with ⟨r, hvisits, hflat⟩ | ⟨hnone, hfault⟩
  · rw [hintOf_indices h.page] at hflat
    obtain ⟨s₁, hok, hleaves⟩ := flat_call
      (fun _ _ hlevel _ _ hpt => sim_vmMapPages hlevel hpt ..) h.window h.room hroot hflat
    obtain ⟨-, -, hfree⟩ := freeCall_of_call h.window h.clear hordered htmp h.page h.free hok
    exact .inl ⟨r.2.2, s₁, hflat, hleaves, hfree, fun hframes => visitAll_rest hlen hframes hvisits⟩
  · refine .inr ⟨?_, hfault⟩
    by_contra hframes
    obtain ⟨r, hr⟩ : ∃ r, visitAll flags root (Radix.box 512 (indices hint))
        (reservedPaddr pages) pages s.flat = some r :=
      visitAll_frames hlen (Nat.le_of_not_lt hframes)
    rw [hr] at hnone
    cases hnone

/-- The place of the last entry of a walk. -/
def endOf (s : VmState) (tmpPaddr root : PAddr) (vaddr : ℕ) : PAddr × ℕ :=
  ((s.place tmpPaddr root vaddr).1, (s.place tmpPaddr root vaddr).2.headD 0)

/-- Reserving keeps apart what is apart. -/
theorem FreeCall.place_iff {s₁ : VmState} {paddrStart : PAddr} {v : ℕ}
    (h : FreeCall tmpPaddr root paddrStart flags hint pages s s₁ v) (u w : ℕ) :
    s₁.place tmpPaddr root u = s₁.place tmpPaddr root w ↔
      s.place tmpPaddr root u = s.place tmpPaddr root w := by
  have hpath : ∀ u, PathFrom root s.mem root (indices u) := fun u =>
    pathFrom_root rfl fun _ hi => indices_lt hi
  have hview : ∀ u, s₁.place tmpPaddr root u = pageTables.place s₁.mem root (indices u) := fun u =>
    place_view h.avoids' (isPath_indices u)
  rw [hview u, hview w, h.place_eq u, h.place_eq w]
  exact h.effect.extended.places _ _ _ _ (hpath u) (hpath w)

/-- The pages that were reserved are apart. -/
theorem FreshPre.slotsOf (h : FreshPre tmpPaddr root s hint pages) {s₁ : VmState}
    {paddrStart : PAddr}
    (hfree : FreeCall tmpPaddr root paddrStart flags hint pages s s₁ hint) :
    SlotsOf tmpPaddr s₁.tmpPt root s₁.mem
      (fun k => endOf s₁ tmpPaddr root (hint + k * pageSize)) pages hint := by
  obtain ⟨hgiven, -⟩ := hfree.given h.page h.free h.half h.apart
  have hplace : ∀ k < pages, ∃ slot : PAddr × ℕ,
      s₁.place tmpPaddr root (hint + k * pageSize) = (slot.1, [slot.2]) ∧
        present (s₁.tables tmpPaddr slot.1 slot.2) = true := by
    intro k hk
    have hleaf := (hfree.leaf_eq h.clear (hint + k * pageSize)).2.trans (hgiven k hk).1
    obtain ⟨slot, hslot, hpres, hentry⟩ := Radix.leaf_eq_some_iff.mp hleaf
    refine ⟨slot, Radix.leafSlot_eq_some_iff.mp hslot, ?_⟩
    rw [hentry]
    exact hpres
  have hend : ∀ k < pages, s₁.place tmpPaddr root (hint + k * pageSize) =
      ((endOf s₁ tmpPaddr root (hint + k * pageSize)).1,
        [(endOf s₁ tmpPaddr root (hint + k * pageSize)).2]) := by
    intro k hk
    obtain ⟨slot, hslot, -⟩ := hplace k hk
    rw [endOf, hslot]
    rfl
  refine ⟨fun k _ => walksAway_of_clear hfree.clear, fun k hk => ?_, fun k hk => ?_,
    fun j hj k hk heq => ?_, fun k hk => ?_, fun k hk => ?_⟩
  · exact Radix.leafSlot_eq_some_iff.mpr (hend k hk)
  · obtain ⟨slot, hslot, hpres⟩ := hplace k hk
    rw [endOf, hslot]
    exact hpres
  · have hsame : s₁.place tmpPaddr root (hint + j * pageSize) =
        s₁.place tmpPaddr root (hint + k * pageSize) := by
      rw [hend j hj, hend k hk]
      exact congrArg (fun x : PAddr × ℕ => (x.1, [x.2])) heq
    have hadd := h.apart _ (h.half.page h.page.2.2 hj).1 k hk ((hfree.place_iff _ _).mp hsame)
    rw [pageSize] at hadd
    omega
  · exact (h.half.page h.page.2.2 hk).1.2.2
  · exact (h.half.page h.page.2.2 hk).1.1

/-- What backing these pages gives. -/
theorem FreshPre.backed (h : FreshPre tmpPaddr root s hint pages) {s₁ : VmState}
    {paddrStart : PAddr} {t₁ t' : FlatState}
    (hfree : FreeCall tmpPaddr root paddrStart flags hint pages s s₁ hint) (hmem : s₁.mem = t₁.mem)
    (hordered : FlatOrdered tmpPaddr s₁.tmpPt root t₁)
    (hbacks : Backs (fun k => endOf s₁ tmpPaddr root (hint + k * pageSize)) pages t₁ t')
    (hframes : pages ≤ t₁.frames.length) (htables : s'.tables tmpPaddr =
      view tmpPaddr s₁.tmpPt t'.mem) :
    LeafStores tmpPaddr s₁.tmpPt root t₁.mem t'.mem
        (fun x => ∃ k < pages, x = endOf s₁ tmpPaddr root (hint + k * pageSize)) ∧
      Gives tmpPaddr root s s' hint pages flags (fun k => t₁.frames.getD k 0#64) := by
  have hslots := h.slotsOf hfree
  have htables₁ : s₁.tables tmpPaddr = view tmpPaddr s₁.tmpPt t₁.mem := by rw [VmState.tables, hmem]
  have hne : ∀ k < pages, (endOf s₁ tmpPaddr root (hint + k * pageSize)).1 ≠ tmpPaddr := by
    intro k hk heq
    have hat := (Radix.At.root.leafSlot (fun _ hj => indices_lt hj) (hslots.place k hk)).1
    rw [heq] at hat
    exact hfree.clear ⟨3, le_rfl, hat⟩
  rw [hmem] at hslots
  have hstores := hbacks.leafStores hslots hne
  obtain ⟨hgiven, hother⟩ := hfree.given h.page h.free h.half h.apart
  have hleaf : ∀ k < pages, s'.leaf tmpPaddr root (hint + k * pageSize) =
      some (setPte (t₁.frames.getD k 0#64) flags) := by
    intro k hk
    have hleaf₁ := (hfree.leaf_eq h.clear (hint + k * pageSize)).2.trans (hgiven k hk).1
    obtain ⟨slot, hslot, -, hentry⟩ := Radix.leaf_eq_some_iff.mp hleaf₁
    have hplace := hslots.place k hk
    rw [htables₁] at hslot hentry
    obtain rfl : slot = endOf s₁ tmpPaddr root (hint + k * pageSize) :=
      Option.some.inj (hslot.symm.trans hplace)
    rw [view_of_ne (hne k hk)] at hentry
    have hframe : ptePaddr (t₁.frames.getD k 0#64) = t₁.frames.getD k 0#64 := by
      apply hordered.aligned
      rw [List.getD_eq_getElem?_getD, List.getElem?_eq_getElem (by omega)]
      exact List.getElem_mem _
    rw [VmState.leaf, htables]
    refine Radix.leaf_eq_some_iff.mpr ⟨_, (hstores.leafSlot hordered (isPath_indices _)).trans
      hplace, present_setPte _ _, ?_⟩
    rw [view_of_ne (hne k hk), hbacks.stored k hk, hentry]
    exact setBackingPte_setPte _ hframe flags
  refine ⟨hstores, hleaf, fun k hk => ?_, fun u hu hout => ?_⟩
  · have hview : AllSet flags (view tmpPaddr s₁.tmpPt t₁.mem) root
        (indices (hint + k * pageSize)) := by
      rw [← hmem]
      exact (hgiven k hk).2.view hfree.avoids' (isPath_indices _)
    rw [VmState.perms, htables]
    apply perms_of_allSet (hstores.allSet hordered (isPath_indices _) hview)
    rw [← htables]
    exact hleaf k hk
  · rw [VmState.leaf, htables, hstores.leaf_eq hordered (isPath_indices u), ← htables₁]
    · exact (hfree.leaf_eq h.clear u).2.trans ((hother u hu hout).trans
        (hfree.leaf_eq h.clear u).1.symm)
    · rintro slot hslot ⟨k, hk, rfl⟩
      have hplace := hslots.place k hk
      have hsame : s₁.place tmpPaddr root u = s₁.place tmpPaddr root (hint + k * pageSize) := by
        rw [VmState.place, VmState.place, htables₁]
        exact (Radix.leafSlot_eq_some_iff.mp hslot).trans
          (Radix.leafSlot_eq_some_iff.mp hplace).symm
      exact hout k hk (h.apart u hu k hk ((hfree.place_iff _ _).mp hsame))

/-- **Fresh memory**, on the machine with the window: the pages get the frames that come after
those of the tables, if there are as many. -/
theorem FreshPre.gives (h : FreshPre tmpPaddr root s hint (pagesOf size)) (fuel : ℕ) (flags : Flags)
    (hordered : Ordered tmpPaddr s.tmpPt root s.mem s.frames) (htmp : tmpPaddr ∉ s.frames) :
    (∃ s' used frames, call root
        (mmMapInTable (kernel tmpPaddr) (fuel + 1) (.table root) hint size flags) s =
          .ok (hint, s') ∧ s'.tmpPt = s.tmpPt ∧ s'.firstFreeTmpIndex = s.firstFreeTmpIndex ∧
      s.frames = used ++ frames ++ s'.frames ∧ frames.length = pagesOf size ∧
      Ordered tmpPaddr s'.tmpPt root s'.mem (frames ++ s'.frames) ∧
      Gives tmpPaddr root s s' hint (pagesOf size) flags (fun k => frames.getD k 0#64)) ∨
    s.frames.length < 4 * pagesOf size ∧ ∀ r s', call root
      (mmMapInTable (kernel tmpPaddr) (fuel + 1) (.table root) hint size flags) s ≠
        .ok (r, s') := by
  have hroot := root_ne_of_clear h.clear
  -- a call that comes to the end of the frames does not return
  have hstop : mmMapInTable (flat tmpPaddr) (fuel + 1) root hint size flags s.flat =
      .error swapped → ∀ r s', call root
        (mmMapInTable (kernel tmpPaddr) (fuel + 1) (.table root) hint size flags) s ≠
          .ok (r, s') := by
    intro hfault r s' hok
    obtain ⟨t, hflat, -⟩ := call_of_not_strayed
      (fun _ _ hlevel _ _ hpt => sim_mmMapInTable hlevel hpt ..) h.window hroot
      (by rw [hfault]; intro h; cases h) hok
    rw [hfault] at hflat
    cases hflat
  rcases h.reserve fuel flags hordered htmp with
    ⟨t₁, s₁, hreserve, hleaves, hfree, hrest⟩ | ⟨hframes, hfault⟩
  swap
  · exact .inr ⟨by omega, hstop (bind_eq_error hfault _)⟩
  have hslots := h.slotsOf hfree
  rw [hleaves.mem_eq, hleaves.tmpPt_eq] at hslots
  have hordered₁ : FlatOrdered tmpPaddr s.tmpPt root t₁ := by
    have h₁ : Ordered tmpPaddr s.tmpPt root s₁.mem s₁.frames := hfree.sound.ordered
    rwa [hleaves.mem_eq, hleaves.frames_eq] at h₁
  have hcall : mmMapInTable (flat tmpPaddr) (fuel + 1) root hint size flags s.flat =
      (backPages (flat tmpPaddr) (vmSetBacking (flat tmpPaddr) root) (pagesOf size) hint t₁).map
        fun r => (hint, r.2) := by
    rw [mmMapInTable, mapFresh, bind_eq_of_ok hreserve]
    cases hback : backPages (flat tmpPaddr) (vmSetBacking (flat tmpPaddr) root) (pagesOf size) hint
      t₁ with
    | error f => exact bind_eq_error hback _
    | ok r => exact bind_eq_of_ok hback _
  rcases backPages_ran hordered₁ hslots with ⟨henough, t', hback, hbacks⟩ | ⟨hlack, hfault⟩
  swap
  · refine .inr ⟨by omega, hstop ?_⟩
    rw [hcall, hfault]
    rfl
  rw [hback] at hcall
  obtain ⟨s', hok, hleaves'⟩ := flat_call
    (fun _ _ hlevel _ _ hpt => sim_mmMapInTable hlevel hpt ..) h.window h.room hroot hcall
  have htables : s'.tables tmpPaddr = view tmpPaddr s₁.tmpPt t'.mem := by
    rw [VmState.tables, hleaves'.tmpPt_eq, hleaves'.mem_eq, hleaves.tmpPt_eq]
  obtain ⟨hstores, hgives⟩ := h.backed hfree hleaves.mem_eq
    (by rw [hleaves.tmpPt_eq]; exact hordered₁) hbacks henough htables
  rw [hleaves.tmpPt_eq] at hstores
  obtain ⟨used, hused⟩ := hfree.frames
  rw [hleaves.frames_eq] at hused
  have hsplit : t₁.frames.take (pagesOf size) ++ s'.frames = t₁.frames := by
    rw [hleaves'.frames_eq, hbacks.frames, List.take_append_drop]
  refine .inl ⟨s', used, t₁.frames.take (pagesOf size), hok, hleaves'.tmpPt_eq, hleaves'.first_eq,
    ?_, ?_, ?_, ?_⟩
  · rw [List.append_assoc, hsplit, hused]
  · rw [List.length_take]
    omega
  · rw [hsplit, hleaves'.tmpPt_eq, hleaves'.mem_eq]
    exact hstores.ordered hordered₁
  · have hsame : ∀ k < pagesOf size, (t₁.frames.take (pagesOf size)).getD k 0#64 =
        t₁.frames.getD k 0#64 := fun k hk => by
      rw [List.getD_eq_getElem?_getD, List.getElem?_take_of_lt hk, ← List.getD_eq_getElem?_getD]
    refine ⟨fun k hk => ?_, hgives.perms, hgives.others⟩
    rw [hsame k hk]
    exact hgives.leaf k hk

end Call

/-! ## On the two managers -/

section Together

variable {env : Pm.PmEnv} {depth : ℕ} {tmpPaddr root : PAddr} {fuel hint size pages : ℕ}
  {flags : Flags} {w : MmWorld} {s s' : MmState}

/-- Frames of one page are one frame. -/
theorem framePage_inj {f g : PAddr} (hf : ptePaddr f = f) (hg : ptePaddr g = g)
    (h : framePage f = framePage g) : f = g := by
  have hf' := Nat.div_mul_cancel (Nat.dvd_of_mod_eq_zero (page_of_ptePaddr hf))
  have hg' := Nat.div_mul_cancel (Nat.dvd_of_mod_eq_zero (page_of_ptePaddr hg))
  replace h : f.toNat / pageSize = g.toNat / pageSize := h
  apply BitVec.eq_of_toNat_eq
  calc f.toNat = f.toNat / pageSize * pageSize := hf'.symm
    _ = g.toNat / pageSize * pageSize := by rw [h]
    _ = g.toNat := hg'

/-- A frame that is drawn is free no more. -/
theorem Draws.freePages (hdepth : Pm.bitmapSize < depth) {p p' : Pm.PmState} {drawn : List PAddr}
    (h : Draws env depth p drawn p') (hs : Pm.InCount p) (hleft : 0 < p'.freePages) :
    p'.freePages + drawn.length = p.freePages := by
  induction h with
  | nil => exact Nat.add_zero _
  | @cons p p₁ p' a frames hreq hrest ih =>
    have hleft₁ : 0 < p₁.freePages := lt_of_lt_of_le hleft (Pm.freePages_le hrest.onlyLocks)
    obtain ⟨c, hready, rfl, hcount, hbits⟩ := hs.of_request hdepth hreq hleft₁
    have hless : p₁.freePages + 1 = p.freePages := by
      apply Pm.freePages_set hready.lt hready.free
      intro i
      rw [hbits.bits, List.map_singleton, Pm.pageOf_mul]
      exact if_congr List.mem_singleton rfl rfl
    rw [List.length_cons, ← hless, ← ih hcount hleft]
    omega

/-- Each page of the range has a page of memory of its own: it was free, it is locked, it is the
page of no table, and of no other page of the range. -/
structure MapsFresh (tmpPaddr root : PAddr) (s s' : MmState) (v pages : ℕ) (flags : Flags)
    (frame : ℕ → PAddr) : Prop where
  gives : Gives tmpPaddr root s.vm s'.vm v pages flags frame
  page : ∀ k < pages, ptePaddr (frame k) = frame k ∧ framePage (frame k) < Pm.bitmapSize
  free : ∀ k < pages, s.pm.pageBit (framePage (frame k)) = false
  locked : ∀ k < pages, s'.pm.pageBit (framePage (frame k)) = true
  noTable : ∀ k < pages, ¬ IsTable tmpPaddr root s'.vm (frame k)
  apart : ∀ j < pages, ∀ k < pages, framePage (frame j) = framePage (frame k) → j = k
  only : Pm.OnlyLocks s.pm s'.pm
  taken : s.pm.freePages ≤ s'.pm.freePages + 4 * pages
  window : s'.vm.tmpPt = s.vm.tmpPt ∧ s'.vm.firstFreeTmpIndex = s.vm.firstFreeTmpIndex

/-- **`mm_map_in_table` on a range that is free.**  With pages enough it returns the hint, backs
each page of the range with memory of its own and leaves everything else as it was; its tables are
locked, and the managers are in order. -/
theorem mapFresh_exact (hdepth : Pm.bitmapSize < depth) (h : Owned tmpPaddr root w)
    (hpre : FreshPre tmpPaddr root w.vm hint (pagesOf size))
    (hfree : 4 * pagesOf size < w.pm.freePages)
    (hmem : 4 * pagesOf size * pageSize ≤ w.pm.memInfo.free) :
    ∃ s' frame, callTogether root (mmMapInTable (together env depth tmpPaddr) (fuel + 1)
        (.table root) hint size flags) w.toMmState = .ok (hint, s') ∧
      MapsFresh tmpPaddr root w.toMmState s' hint (pagesOf size) flags frame ∧
      Owned tmpPaddr root { s' with held := w.held } := by
  obtain ⟨drawn, p', hdraws, hlen, hleft⟩ := exists_draws hdepth h.count hfree hmem
  obtain ⟨hordered, hnext⟩ := h.next hdepth hdraws hleft
  have hpre' : ∀ frames, FreshPre tmpPaddr root { w.vm with frames } hint (pagesOf size) :=
    fun _ => ⟨hpre.window, hpre.room, hpre.clear, hpre.page, hpre.half, hpre.free, hpre.apart,
      hpre.pos⟩
  have hlends : Lends env depth (callTogether root (mmMapInTable (together env depth tmpPaddr)
      (fuel + 1) (.table root) hint size flags)) (call root (mmMapInTable (kernel tmpPaddr)
        (fuel + 1) (.table root) hint size flags)) := (carries_lends.mmMapInTable ..).call
  rcases (hpre' drawn).gives fuel flags hordered
    (fun hmem => (hnext tmpPaddr hmem).1 rfl) with
    ⟨s₁, used, frames, hok, htmp, hfirst, hsplit, hframes, hordered₁, hgives⟩ | ⟨hlack, -⟩
  swap
  · exact absurd hlack (by rw [hlen]; exact lt_irrefl _)
  obtain ⟨s', used', hrun, hused, hdraws', hrest, hvm⟩ := hlends.forth w.toMmState drawn p' _ _
    hdraws hok
  replace hused : drawn = used' ++ s₁.frames := hused
  replace hsplit : drawn = used ++ frames ++ s₁.frames := hsplit
  obtain rfl : used' = used ++ frames := List.append_cancel_right (hused.symm.trans hsplit)
  have hleft' : 0 < s'.pm.freePages := lt_of_lt_of_le hleft (Pm.freePages_le hrest.onlyLocks)
  obtain ⟨hcount, hpages, hnodup, hbits⟩ := hdraws'.drawn hdepth h.count hleft'
  have hget : ∀ k < pagesOf size, frames.getD k 0#64 ∈ frames := by
    intro k hk
    rw [List.getD_eq_getElem?_getD, List.getElem?_eq_getElem (by omega)]
    exact List.getElem_mem _
  have hframe : ∀ k < pagesOf size, frames.getD k 0#64 ∈ used ++ frames := fun k hk =>
    List.mem_append_right _ (hget k hk)
  have hfreePages := hdraws'.freePages hdepth h.count hleft'
  have htables : s'.vm.tables tmpPaddr = s₁.tables tmpPaddr := by rw [hvm]; rfl
  refine ⟨s', fun k => frames.getD k 0#64, hrun, ⟨?_, fun k hk => ?_, fun k hk => ?_,
    fun k hk => ?_, fun k hk => ?_, fun j hj k hk heq => ?_,
    fun i hi => (hbits i).mpr (.inl hi), ?_, ?_⟩, ?_⟩
  · refine ⟨fun k hk => ?_, fun k hk => ?_, fun u hu hout => ?_⟩
    · rw [VmState.leaf, htables]
      exact hgives.leaf k hk
    · rw [VmState.perms, htables]
      exact hgives.perms k hk
    · rw [VmState.leaf, htables]
      exact hgives.others u hu hout
  · exact ⟨(hpages _ (hframe k hk)).1, (hpages _ (hframe k hk)).2.1⟩
  · exact (hpages _ (hframe k hk)).2.2
  · exact (hbits _).mpr (.inr ⟨_, hframe k hk, rfl⟩)
  · rintro (htmp | ⟨n, hn, hat⟩)
    · refine (hnext _ ?_).1 htmp
      rw [hsplit]
      exact List.mem_append_left _ (hframe k hk)
    · rw [hvm] at hat
      exact hordered₁.noTable _ (List.mem_append_left _ (hget k hk)) n hn hat
  · have hsame := framePage_inj (hpages _ (hframe j hj)).1 (hpages _ (hframe k hk)).1 heq
    rw [List.getD_eq_getElem?_getD, List.getD_eq_getElem?_getD,
      List.getElem?_eq_getElem (by omega), List.getElem?_eq_getElem (by omega)] at hsame
    exact (List.nodup_append.mp hnodup).2.1.getElem_inj_iff.mp hsame
  · have hless : (used ++ frames).length ≤ drawn.length := by
      simp only [hused, List.length_append]
      exact Nat.le_add_right _ _
    show w.pm.freePages ≤ _
    omega
  · rw [hvm]
    exact ⟨htmp, hfirst⟩
  · apply h.lend hdepth hlends hrun hleft'
    intro frames' rest hordered' htmp' hcall
    rcases (hpre' frames').gives fuel flags hordered' htmp' with
      ⟨s₂, used₂, frames₂, hok₂, htmp₂, hfirst₂, -, -, hordered₂, -⟩ | ⟨-, hstop⟩
    · rw [hcall] at hok₂
      cases hok₂
      refine ⟨?_, hordered₂.drop⟩
      rw [htmp₂, hfirst₂]
      exact h.window
    · exact absurd hcall (hstop _ _)

end Together

/-- Two pages in a leaf table that there is. -/
theorem mapFresh_exact_row : ∃ pm s' frame, Pm.pmInit tablesEnv 40000 Pm.flatMap = .ok pm ∧
    callTogether 0x1000#64 (mmMapInTable (together tablesEnv 40000 0x8000#64) 1
      (.table 0x1000#64) 0x1000 0x2000 vmFlagWritable)
        { pm, vm := rowState (fun i => if i = 0 then 0x5003#64 else 0#64) vmFlagWritable [] } =
          .ok (0x1000, s') ∧
    MapsFresh 0x8000#64 0x1000#64
      { pm, vm := rowState (fun i => if i = 0 then 0x5003#64 else 0#64) vmFlagWritable [] } s'
      0x1000 2 vmFlagWritable frame := by
  have htest : ((Pm.pmInit tablesEnv 40000 Pm.flatMap).toOption.any fun pm =>
      ((List.range 12).all fun i => pm.pageBit i) && !pm.pageBit 100 &&
        decide (8 * pageSize ≤ pm.memInfo.free) &&
        pm.memBitmaps.head?.any fun b => decide (8 < b.super.unset)) = true := by
    decide +kernel
  obtain ⟨pm, hinit, htest⟩ := Except.exists_of_any htest
  simp only [Bool.and_eq_true, decide_eq_true_eq, Bool.not_eq_true', List.all_eq_true] at htest
  obtain ⟨⟨⟨hlow, h100⟩, hmem⟩, hunset⟩ := htest
  have hcount : Pm.InCount pm := (Pm.pmInit_count (by decide) hinit
    (Finset.card_pos.mpr ⟨100, Pm.PmState.mem_freeSet.mpr ⟨by decide, h100⟩⟩)).inCount
  have hfree : 8 < pm.freePages := by
    obtain ⟨b, hb, hlt⟩ := (Option.any_eq_true _ _).mp hunset
    rw [← hcount.counted.unset b hb]
    exact of_decide_eq_true hlt
  have howned : Owned 0x8000#64 0x1000#64
      { pm, vm := rowState (fun i => if i = 0 then 0x5003#64 else 0#64) vmFlagWritable [],
        held := ∅ } := by
    refine ⟨hcount, window_rowState, ordered_rowState (List.forall_mem_nil _)
      (List.forall_mem_nil _) List.nodup_nil, fun p hp => ?_,
      fun i hi => absurd hi (Finset.notMem_empty i)⟩
    -- the tables are the row's
    have hpage : framePage p ∈ List.range 12 := by
      rcases hp with rfl | ⟨n, hn, hat⟩
      · decide
      · rw [at_rowTables hat hn]
        interval_cases n <;> decide
    have hlt := List.mem_range.mp hpage
    exact ⟨by rw [Pm.bitmapSize_eq]; omega, hlow _ hpage, Finset.notMem_empty _⟩
  have hpre : FreshPre 0x8000#64 0x1000#64
      (rowState (fun i => if i = 0 then 0x5003#64 else 0#64) vmFlagWritable []) 0x1000
      (pagesOf 0x2000) := by
    refine ⟨window_rowState, room_rowState, clear_rowTables, ⟨by decide, by decide, by decide⟩,
      .inl (by decide), free_row (by decide) (by decide) fun k hk => ?_,
      unaliased_row (by decide) (by decide), by decide⟩
    replace hk : k < 2 := hk
    interval_cases k <;> decide
  obtain ⟨s', frame, hok, hmaps, -⟩ := @mapFresh_exact tablesEnv 40000 _ _ 0 _ _ vmFlagWritable _
    (by decide) howned hpre hfree hmem
  exact ⟨pm, s', frame, hinit, hok, hmaps⟩

end Mimik.Vm
