/-
# Calls that store to leaf tables

`vm_set_backing` and `vm_unmap_pages` change nothing but leaf entries: the first one gives a
present entry another frame, the second one clears entries of one leaf table, from the first
present one on that its walk comes to, and invalidates as many pages, counted from the address
it was given.  Stores of this kind keep the tables in order and the walks as they are.
-/
import Mimik.VmFlagExact

namespace Mimik.Vm

open FaultState

/-! ## Stores to leaf tables -/

section Leaves

variable {tmpPaddr root : PAddr} {tmpPt : ℕ → Pte} {mem mem' : Tables} {frames : List PAddr}
  {path : List ℕ} {places : PAddr × ℕ → Prop} {slot : PAddr × ℕ}

/-- Only entries in the given places have changed, which lie in leaf tables other than
`tmp_pt`. -/
structure LeafStores (tmpPaddr : PAddr) (tmpPt : ℕ → Pte) (root : PAddr) (mem mem' : Tables)
    (places : PAddr × ℕ → Prop) : Prop where
  leaf : ∀ slot, places slot → TableAt tmpPaddr tmpPt root mem 3 slot.1 ∧ slot.1 ≠ tmpPaddr
  other : ∀ slot, ¬ places slot → mem' slot.1 slot.2 = mem slot.1 slot.2

/-- The other entries stay, those of `tmp_pt` among them. -/
theorem LeafStores.view_eq (h : LeafStores tmpPaddr tmpPt root mem mem' places)
    (hnot : ¬ places slot) :
    view tmpPaddr tmpPt mem' slot.1 slot.2 = view tmpPaddr tmpPt mem slot.1 slot.2 := by
  by_cases hne : slot.1 = tmpPaddr
  · rw [hne, view_self, view_self]
  · rw [view_of_ne hne, view_of_ne hne, h.other slot hnot]

/-- Tables above the leaf tables do not change. -/
theorem LeafStores.upper (h : LeafStores tmpPaddr tmpPt root mem mem' places)
    (hordered : Ordered tmpPaddr tmpPt root mem frames) {n : ℕ} (hn : n < 3) {q : PAddr}
    (hq : TableAt tmpPaddr tmpPt root mem n q) (i : ℕ) :
    view tmpPaddr tmpPt mem' q i = view tmpPaddr tmpPt mem q i := by
  have hnot : ¬ places (q, i) := by
    intro hplace
    obtain ⟨hleaf, hne⟩ := h.leaf _ hplace
    have := hordered.oneLevel q hne n (by omega) 3 le_rfl hq hleaf
    omega
  exact h.view_eq hnot

/-- The tables stay in order. -/
theorem LeafStores.ordered (h : LeafStores tmpPaddr tmpPt root mem mem' places)
    (hordered : Ordered tmpPaddr tmpPt root mem frames) :
    Ordered tmpPaddr tmpPt root mem' frames := by
  apply hordered.congr
  intro n hn q
  apply Radix.at_congr (d := 3) _ hn
  intro m hm q hq i _
  rw [h.upper hordered hm hq i]
  exact ⟨rfl, rfl⟩

/-- Walks end where they did. -/
theorem LeafStores.leafSlot (h : LeafStores tmpPaddr tmpPt root mem mem' places)
    (hordered : Ordered tmpPaddr tmpPt root mem frames) (hpath : IsPath path) :
    pageTables.leafSlot (view tmpPaddr tmpPt mem') root path =
      pageTables.leafSlot (view tmpPaddr tmpPt mem) root path := by
  have hplace : pageTables.place (view tmpPaddr tmpPt mem') root path =
      pageTables.place (view tmpPaddr tmpPt mem) root path := by
    apply Radix.place_congr (d := 3) _ .root (by rw [hpath.1]) hpath.2
    intro n hn q hq i _
    rw [h.upper hordered hn hq i]
    exact ⟨rfl, fun _ => rfl⟩
  apply Option.ext
  rintro ⟨q, i⟩
  rw [Radix.leafSlot_eq_some_iff, Radix.leafSlot_eq_some_iff, hplace]

/-- Leaf entries in other places stay. -/
theorem LeafStores.leaf_eq (h : LeafStores tmpPaddr tmpPt root mem mem' places)
    (hordered : Ordered tmpPaddr tmpPt root mem frames) (hpath : IsPath path)
    (hnot : ∀ slot, pageTables.leafSlot (view tmpPaddr tmpPt mem) root path = some slot →
      ¬ places slot) :
    pageTables.leaf (view tmpPaddr tmpPt mem') root path =
      pageTables.leaf (view tmpPaddr tmpPt mem) root path := by
  rw [Radix.leaf, Radix.leaf, h.leafSlot hordered hpath]
  cases hslot : pageTables.leafSlot (view tmpPaddr tmpPt mem) root path with
  | none => rfl
  | some slot =>
    show pageTables.entry _ slot = pageTables.entry _ slot
    rw [Radix.entry, Radix.entry, h.view_eq (hnot slot hslot)]

end Leaves

/-! ## The two recursions -/

section Recursions

variable {tmpPaddr root p : PAddr} {tmpPt : ℕ → Pte} {t₀ : FlatState} {paddr : PAddr}
  {pages n : ℕ} {index : List ℕ}

/-- What `recurse_set_backing` does on the table `p`: it gives a frame to a present leaf entry,
or nothing. -/
theorem recurseSetBacking_eq (height : ℕ) (hlen : index.length = height + 1)
    (hidx : ∀ i ∈ index, i < ptLength) (hne : p ≠ tmpPaddr)
    (hp : TableAt tmpPaddr tmpPt root t₀.mem n p) (hn : n + height = 3) :
    Triple (fun t => t = t₀) (recurseSetBacking (flat tmpPaddr) paddr height index p)
      fun res t => (res = -enomap ∧ t = t₀) ∨ res = success ∧ ∃ q i,
        pageTables.leafSlot (view tmpPaddr tmpPt t₀.mem) p index = some (q, i) ∧
        TableAt tmpPaddr tmpPt root t₀.mem 3 q ∧ q ≠ tmpPaddr ∧
        present (t₀.mem q i) = true ∧ t = t₀.set q i (setBackingPte (t₀.mem q i) paddr) := by
  induction height generalizing index p n with
  | zero =>
    obtain ⟨i, rfl⟩ := List.length_eq_one_iff.mp hlen
    apply Triple.bind (Q := fun e t => t = t₀ ∧ e = t₀.mem p i)
      (flat_read p i fun t ht => ⟨ht, by rw [ht]⟩)
    intro e
    apply Triple.ite
    · intro hpres
      apply Triple.bind (Q := fun _ t => e = t₀.mem p i ∧ t = t₀.set p i (setBackingPte e paddr))
        (flat_write p i _ fun t ht => ⟨ht.2, by rw [ht.1]⟩)
      intro _
      apply Triple.pure
      rintro t ⟨rfl, rfl⟩
      obtain rfl : n = 3 := hn
      exact .inr ⟨rfl, p, i, rfl, hp, hne, hpres, rfl⟩
    · exact fun _ => Triple.pure fun t ht => .inl ⟨rfl, ht.1⟩
  | succ height ih =>
    obtain ⟨i, index, rfl⟩ := List.exists_cons_of_length_eq_add_one hlen
    have hlen' : index.length = height + 1 := by simpa using hlen
    have hnil : index ≠ [] := by
      rintro rfl
      cases hlen'
    apply Triple.bind (Q := fun e t => t = t₀ ∧ e = t₀.mem p i)
      (flat_read p i fun t ht => ⟨ht, by rw [ht]⟩)
    intro e
    apply Triple.ite
    · intro hpres
      apply flat_withTable
      intro hnext
      apply Triple.of_start
      rintro t ⟨rfl, rfl⟩
      have hview : view tmpPaddr tmpPt t.mem p i = t.mem p i := by rw [view_of_ne hne]
      rw [ptePaddr_ptePaddr] at hnext ⊢
      have hq : TableAt tmpPaddr tmpPt root t.mem (n + 1) (ptePaddr (t.mem p i)) := by
        rw [← hview]
        exact hp.step (hidx i List.mem_cons_self) (by rw [hview]; exact hpres)
      apply (ih hlen' (fun j hj => hidx j (List.mem_cons_of_mem i hj)) hnext hq
        (by omega)).mono fun _ ht => ht
      rintro res t' (hsame | ⟨hres, q, j, hslot, hrest⟩)
      · exact .inl hsame
      · refine .inr ⟨hres, q, j, ?_, hrest⟩
        rw [Radix.leafSlot_cons hnil, hview]
        exact (if_pos hpres).trans hslot
    · exact fun _ => Triple.pure fun t ht => .inl ⟨rfl, ht.1⟩

/-- `recurse_unmap` comes to a leaf table, at the entry `slot`, `d` pages behind the first one: it
goes past entries that are not present, as far as `pages` reaches, and down at the first one that
is. -/
inductive Lands (mem : Tables) (pages : ℕ) : List ℕ → PAddr → PAddr × ℕ → ℕ → Prop
  | leaf (i : ℕ) (p : PAddr) : Lands mem pages [i] p (p, i) 0
  | inner {i j k d : ℕ} {path : List ℕ} {p : PAddr} {slot : PAddr × ℕ} :
      AbsentRun mem p i k → i + k < 512 → k * pagesPerEntry (path.length + 1) < pages →
      present (mem p (i + k)) = true →
      Lands mem pages (j :: path) (ptePaddr (mem p (i + k))) slot d →
      Lands mem pages (i :: j :: path) p slot (k * pagesPerEntry (path.length + 1) + d)

/-- What `recurse_unmap` leaves: it has changed nothing, or cleared the entries of one leaf table
and invalidated as many pages. -/
def Flushes (tmpPaddr : PAddr) (tmpPt : ℕ → Pte) (root : PAddr) (pages : ℕ) (index : List ℕ)
    (p : PAddr) (vaddr : ℕ) (t₀ t : FlatState) : Prop :=
  t = t₀ ∨ ∃ q a d, Lands (view tmpPaddr tmpPt t₀.mem) pages index p (q, a) d ∧
    TableAt tmpPaddr tmpPt root t₀.mem 3 q ∧ q ≠ tmpPaddr ∧
    t.mem = clearFrom t₀.mem pages (some (q, a)) ∧ t.frames = t₀.frames ∧
    ∀ x ∈ t.tlb, x ∈ t₀.tlb ∧
      ∀ k < min pages (512 - a), x.1 ≠ vpage (wrap64 (vaddr + (d + k) * pageSize))

/-- From an index at the end of its table `recurse_unmap` does nothing. -/
theorem recurseUnmap_spent (height vaddr : ℕ) (h : 512 ≤ index.headD 0) (t : FlatState) :
    recurseUnmap (flat tmpPaddr) pages height index p vaddr t =
      .ok ({ index := index.headD 0, below := index.tail, vaddr, unmappedPages := 0 }, t) := by
  have hend : ∀ {v : UnmapVars}, 512 ≤ v.index → ¬ (v.index < ptLength ∧
    v.unmappedPages < pages) := by
    intro v hv
    rw [ptLength]
    omega
  cases height with
  | zero =>
    have hround : ∀ v : UnmapVars, 512 ≤ v.index →
        unmapLeaf (flat tmpPaddr) p pages v t = .ok (.done v, t) := by
      intro v hv
      rw [unmapLeaf, if_neg (hend hv)]
      rfl
    exact rounds_of_done (hround _ h) 511
  | succ height =>
    have hround : ∀ v : UnmapVars, 512 ≤ v.index → unmapInner (flat tmpPaddr)
        (recurseUnmap (flat tmpPaddr) pages height) (height + 1) p pages v t =
        .ok (.done v, t) := by
      intro v hv
      rw [unmapInner, if_neg (hend hv)]
      rfl
    exact rounds_of_done (hround _ h) 511

/-- The loop of `recurse_unmap` above the leaf tables: it has gone past `k` entries that are not
present, or it has been at one that is. -/
inductive UnmapPhase (tmpPaddr : PAddr) (tmpPt : ℕ → Pte) (root : PAddr) (pages i j : ℕ)
    (path : List ℕ) (p : PAddr) (vaddr : ℕ) (t₀ : FlatState) : UnmapVars → FlatState → Prop
  | skipping {v : UnmapVars} (k : ℕ) : v.below = j :: path → v.index = i + k → i + k ≤ 512 →
      AbsentRun (view tmpPaddr tmpPt t₀.mem) p i k →
      v.unmappedPages = k * pagesPerEntry (path.length + 1) → v.unmappedPages < pages →
      v.vaddr = wrap64 (vaddr + k * pagesPerEntry (path.length + 1) * pageSize) →
      UnmapPhase tmpPaddr tmpPt root pages i j path p vaddr t₀ v t₀
  | flushed {v : UnmapVars} {t : FlatState} :
      Flushes tmpPaddr tmpPt root pages (i :: j :: path) p vaddr t₀ t → 512 ≤ v.below.headD 0 →
      UnmapPhase tmpPaddr tmpPt root pages i j path p vaddr t₀ v t

theorem UnmapPhase.flushes {i j : ℕ} {path : List ℕ} {vaddr : ℕ} {v : UnmapVars} {t : FlatState}
    (h : UnmapPhase tmpPaddr tmpPt root pages i j path p vaddr t₀ v t) :
    Flushes tmpPaddr tmpPt root pages (i :: j :: path) p vaddr t₀ t := by
  cases h with
  | skipping => exact .inl rfl
  | flushed h => exact h

/-- Past an entry that is not present the loop goes on as before. -/
theorem UnmapPhase.pass {i j height : ℕ} {path : List ℕ} {vaddr : ℕ} {v : UnmapVars} {t : FlatState}
    (h : UnmapPhase tmpPaddr tmpPt root pages i j path p vaddr t₀ v t)
    (hpath : path.length = height) (hindex : v.index < 512)
    (habsent : present (view tmpPaddr tmpPt t.mem p v.index) = false)
    (hgo : v.unmappedPages + pagesPerEntry (height + 1) < pages) :
    UnmapPhase tmpPaddr tmpPt root pages i j path p vaddr t₀
      { v with
        unmappedPages := v.unmappedPages + pagesPerEntry (height + 1)
        vaddr := wrap64 (v.vaddr + pagesPerEntry (height + 1) * pageSize)
        index := v.index + 1 } t := by
  cases h with
  | skipping k hbelow hvi hk habs hcount _ haddr =>
    refine .skipping (k + 1) hbelow (by show v.index + 1 = _; omega) (by omega) ?_ ?_ hgo ?_
    · intro l hl hl'
      by_cases hlast : l = i + k
      · rw [hlast, ← hvi]
        exact habsent
      · exact habs l hl (by omega)
    · show v.unmappedPages + pagesPerEntry (height + 1) = _
      rw [hcount, hpath, Nat.add_mul, Nat.one_mul]
    · show wrap64 (v.vaddr + pagesPerEntry (height + 1) * pageSize) = _
      rw [haddr, wrap64, wrap64, Nat.mod_add_mod, hpath, wrap64, Nat.add_assoc,
        ← Nat.add_mul, Nat.add_mul k, Nat.one_mul]
  | flushed hflush hspent => exact .flushed hflush hspent

/-- What the call for the table behind a present entry flushes is a flush of this table, when the
entries before have been passed. -/
theorem Flushes.inner {i j k : ℕ} {path : List ℕ} {vaddr vaddr' : ℕ} {t : FlatState}
    (habs : AbsentRun (view tmpPaddr tmpPt t₀.mem) p i k) (hindex : i + k < 512)
    (hgo : k * pagesPerEntry (path.length + 1) < pages)
    (hpres : present (view tmpPaddr tmpPt t₀.mem p (i + k)) = true)
    (haddr : vaddr' = wrap64 (vaddr + k * pagesPerEntry (path.length + 1) * pageSize))
    (h : Flushes tmpPaddr tmpPt root pages (j :: path)
      (ptePaddr (view tmpPaddr tmpPt t₀.mem p (i + k))) vaddr' t₀ t) :
    Flushes tmpPaddr tmpPt root pages (i :: j :: path) p vaddr t₀ t := by
  rcases h with rfl | ⟨q, a, d, hlands, hleaf, hqne, hmem, hframes, htlb⟩
  · exact .inl rfl
  · refine .inr ⟨q, a, k * pagesPerEntry (path.length + 1) + d,
      .inner habs hindex hgo hpres hlands, hleaf, hqne, hmem, hframes, fun x hx => ?_⟩
    obtain ⟨hmem, hfar⟩ := htlb x hx
    refine ⟨hmem, fun l hl => ?_⟩
    have hne := hfar l hl
    rw [haddr, wrap64, wrap64, Nat.mod_add_mod, Nat.add_assoc, ← Nat.add_mul] at hne
    rw [wrap64, Nat.add_assoc]
    exact hne

/-- `recurse_unmap` clears entries in one leaf table at most, and invalidates their pages, counted
from the first one. -/
theorem recurseUnmap_flushes (height : ℕ) (hlen : index.length = height + 1)
    (hidx : ∀ i ∈ index, i < 512) (hne : p ≠ tmpPaddr)
    (hp : TableAt tmpPaddr tmpPt root t₀.mem n p) (hn : n + height = 3) (hpages : 0 < pages)
    {vaddr : ℕ} (hvaddr : vaddr < 2 ^ 64) :
    Triple (fun t => t = t₀) (recurseUnmap (flat tmpPaddr) pages height index p vaddr)
      fun w t => Flushes tmpPaddr tmpPt root pages index p vaddr t₀ t ∧
        (w.unmappedPages < pages → 512 ≤ w.index) := by
  induction height generalizing index p n vaddr with
  | zero =>
    obtain ⟨i, rfl⟩ := List.length_eq_one_iff.mp hlen
    constructor
    rintro t rfl w t' hok
    obtain ⟨w', tlb, hw, -, hindex, htlb⟩ := unmapLeaf_rounds tmpPaddr p pages 512
      { index := i, below := [], vaddr, unmappedPages := 0 } t (hidx i List.mem_cons_self).le
      (by show 512 ≤ 512 + i; omega) hpages
    have heq : recurseUnmap (flat tmpPaddr) pages 0 [i] p vaddr t = _ := hw
    rw [heq] at hok
    cases hok
    refine ⟨.inr ⟨p, i, 0, .leaf i p, ?_, hne, rfl, rfl, fun x hx => ?_⟩, fun h => (hindex h).ge⟩
    · obtain rfl : n = 3 := hn
      exact hp
    · obtain ⟨hmem, hfar⟩ := htlb hvaddr x hx
      refine ⟨hmem, fun k hk => ?_⟩
      rw [Nat.zero_add]
      exact hfar k hk
  | succ height ih =>
    obtain ⟨i, index, rfl⟩ := List.exists_cons_of_length_eq_add_one hlen
    have hlen' : index.length = height + 1 := by simpa using hlen
    obtain ⟨j, path, rfl⟩ := List.exists_cons_of_length_eq_add_one hlen'
    have hpath : path.length = height := by simpa using hlen'
    have hi := hidx i List.mem_cons_self
    have hidx' : ∀ l ∈ j :: path, l < 512 := fun l hl => hidx l (List.mem_cons_of_mem i hl)
    have hview : ∀ (mem : Tables) k, view tmpPaddr tmpPt mem p k = mem p k := fun mem k => by
      rw [view_of_ne hne]
    apply (Triple.rounds (fun n v t => 512 ≤ n + v.index ∧
      UnmapPhase tmpPaddr tmpPt root pages i j path p vaddr t₀ v t) _ _ 512 _).mono _ fun _ _ h => h
    · rintro n' v
      apply Triple.ite
      · rintro ⟨hindex, hfew⟩
        apply Triple.bind (Q := fun e t => (512 ≤ n' + 1 + v.index ∧
          UnmapPhase tmpPaddr tmpPt root pages i j path p vaddr t₀ v t) ∧ e = t.mem p v.index)
          (flat_read p v.index fun t ht => ⟨ht, rfl⟩)
        intro e
        apply Triple.ite
        · intro hpres
          apply Triple.of_start
          rintro t ⟨⟨hround, hphase⟩, rfl⟩
          -- the call for the level below leaves a flush of this table too
          apply Triple.bind (Q := fun w t' =>
            Flushes tmpPaddr tmpPt root pages (i :: j :: path) p vaddr t₀ t' ∧
              (w.unmappedPages < pages → 512 ≤ w.index))
          · cases hphase with
            | skipping k hbelow hvi hk habs hcount _ haddr =>
              apply flat_withTable
              intro hnext
              rw [ptePaddr_ptePaddr] at hnext ⊢
              rw [hbelow]
              have hq : TableAt tmpPaddr tmpPt root t₀.mem (n + 1)
                (ptePaddr (t₀.mem p v.index)) := by
                rw [← hview t₀.mem]
                exact hp.step hindex (by rw [hview]; exact hpres)
              apply (ih hlen' hidx' hnext hq (by omega)
                (by rw [haddr]; exact Nat.mod_lt _ (by decide))).mono fun _ ht => ht
              rintro w t' ⟨hflush, hspent⟩
              rw [hvi, ← hview t₀.mem] at hflush
              rw [hvi] at hpres hindex
              exact ⟨.inner habs hindex (by omega) (by rw [hview]; exact hpres) haddr hflush,
                hspent⟩
            | flushed hflush hspent =>
              apply flat_withTable
              intro _
              constructor
              rintro t' rfl w t₁ hok
              rw [recurseUnmap_spent height v.vaddr hspent t'] at hok
              cases hok
              exact ⟨hflush, fun _ => hspent⟩
          · intro w
            apply Triple.pure
            rintro t' ⟨hflush, hspent⟩
            show Flow.post _ _ (UnmapVars.advance _ _) t'
            rw [UnmapVars.advance]
            split
            next hdone => exact ⟨hflush, fun hlt => absurd hdone (not_le.mpr hlt)⟩
            next hgo =>
              replace hgo : ¬ pages ≤ v.unmappedPages + w.unmappedPages := hgo
              exact ⟨by show 512 ≤ n' + (v.index + 1); omega, .flushed hflush (hspent (by omega))⟩
        · intro habsent
          apply Triple.pure
          rintro t ⟨⟨hround, hphase⟩, rfl⟩
          show Flow.post _ _ (UnmapVars.advance _ _) t
          rw [UnmapVars.advance]
          split
          next hdone => exact ⟨hphase.flushes, fun hlt => absurd hdone (not_le.mpr hlt)⟩
          next hgo =>
            refine ⟨by show 512 ≤ n' + (v.index + 1); omega, ?_⟩
            exact hphase.pass hpath hindex (by rw [hview]; exact Bool.not_eq_true _ ▸ habsent)
              (not_le.mp hgo)
      · intro hstop
        apply Triple.pure
        rintro t ⟨hround, hphase⟩
        refine ⟨hphase.flushes, fun hfew => ?_⟩
        by_contra hlt
        exact hstop ⟨not_le.mp hlt, hfew⟩
    · rintro v
      apply Triple.pure
      rintro t ⟨hend, hphase⟩
      exact ⟨hphase.flushes, fun _ => by omega⟩
    · rintro t rfl
      refine ⟨by show 512 ≤ 512 + i; omega, .skipping 0 rfl rfl (by omega) ?_ ?_ hpages ?_⟩
      · intro l hl hl'
        omega
      · rw [Nat.zero_mul]
      · rw [Nat.zero_mul, Nat.zero_mul, Nat.add_zero, wrap64_of_lt hvaddr]

end Recursions

/-! ## Calls -/

section Calls

/-- The call does not come to `tmp_pt`. -/
def StaysOut (tmpPaddr root : PAddr) (s : VmState) : VmCall → Prop
  | .flagPages vaddr pages _ => root ≠ tmpPaddr ∧ ∀ slot, InnerOf (s.tables tmpPaddr) root
      (reached (s.tables tmpPaddr) root ((Radix.box 512 (indices vaddr)).take pages)) slot →
      ptePaddr (s.tables tmpPaddr slot.1 slot.2) ≠ tmpPaddr
  | c => ∀ s', call root (c.run (kernel tmpPaddr) (.table root)) s = .ok ((), s') →
      tmpPaddr ∉ s'.opened

/-- The addresses of a call are below `2 ^ 64`. -/
def VmCall.InRange : VmCall → Prop
  | .unmapPages vaddr _ => vaddr < 2 ^ 64
  | _ => True

variable {tmpPaddr root : PAddr} {s s' : VmState} {t : FlatState} {vaddr pages : ℕ}
  {places : PAddr × ℕ → Prop}

/-- The window stays in order. -/
theorem Leaves.window (h : Leaves s t s') (hwin : WindowOk s.tmpPt s.firstFreeTmpIndex) :
    WindowOk s'.tmpPt s'.firstFreeTmpIndex := by
  rw [h.tmpPt_eq, h.first_eq]
  exact hwin

/-- And so do the tables. -/
theorem Leaves.ordered (h : Leaves s t s')
    (hordered : Ordered tmpPaddr s.tmpPt root t.mem t.frames) :
    Ordered tmpPaddr s'.tmpPt root s'.mem s'.frames := by
  rw [h.tmpPt_eq, h.mem_eq, h.frames_eq]
  exact hordered

/-- A call that returns, with a result to throw away. -/
theorem call_map_ok {α : Type} {x : Prog Fault VmState α} {f : α → Unit}
    (h : call root (x >>= fun r => pure (f r)) s = .ok ((), s')) :
    ∃ r, call root x s = .ok (r, s') := by
  obtain ⟨r, s₁, hx, hpure⟩ := bind_eq_ok_iff.mp h
  rw [pure_eq_ok_iff] at hpure
  exact ⟨r, hpure.2 ▸ hx⟩

/-- What a call leaves that does nothing but store to leaf tables. -/
structure LeafCall (tmpPaddr root : PAddr) (s s' : VmState) (places : PAddr × ℕ → Prop) :
    Prop where
  tmpPt_eq : s'.tmpPt = s.tmpPt
  first_eq : s'.firstFreeTmpIndex = s.firstFreeTmpIndex
  frames_eq : s'.frames = s.frames
  stores : LeafStores tmpPaddr s.tmpPt root s.mem s'.mem places
  tlb : ∀ x ∈ s'.tlb, x ∈ s.tlb

/-- A call that stores nothing. -/
theorem Leaves.leafCall (h : Leaves s s.flat s') :
    LeafCall tmpPaddr root s s' fun _ => False :=
  ⟨h.tmpPt_eq, h.first_eq, h.frames_eq, ⟨fun _ => False.elim, fun _ _ => by rw [h.mem_eq]; rfl⟩,
    h.tlb⟩

theorem LeafCall.window (h : LeafCall tmpPaddr root s s' places)
    (hwin : WindowOk s.tmpPt s.firstFreeTmpIndex) : WindowOk s'.tmpPt s'.firstFreeTmpIndex := by
  rw [h.tmpPt_eq, h.first_eq]
  exact hwin

theorem LeafCall.ordered (h : LeafCall tmpPaddr root s s' places)
    (hordered : Ordered tmpPaddr s.tmpPt root s.mem s.frames) :
    Ordered tmpPaddr s'.tmpPt root s'.mem s'.frames := by
  rw [h.tmpPt_eq, h.frames_eq]
  exact h.stores.ordered hordered

/-- What `vm_set_backing` does: nothing, or it gives a frame to the leaf entry of the address. -/
theorem setBacking_of_call {paddr : PAddr} {r : Status}
    (hwin : WindowOk s.tmpPt s.firstFreeTmpIndex)
    (hok : call root (vmSetBacking (kernel tmpPaddr) (.table root) vaddr paddr) s = .ok (r, s'))
    (hclear : tmpPaddr ∉ s'.opened) :
    LeafCall tmpPaddr root s s' (fun _ => False) ∨
      ∃ slot, s.leafSlot tmpPaddr root vaddr = some slot ∧
        present (s.tables tmpPaddr slot.1 slot.2) = true ∧
        s'.mem slot.1 slot.2 = setBackingPte (s.tables tmpPaddr slot.1 slot.2) paddr ∧
        LeafCall tmpPaddr root s s' (· = slot) := by
  obtain ⟨hroot, t, hflat, hleaves⟩ := vmSetBacking_flat hwin hok hclear
  obtain ⟨_, t₁, hcheck, hflat⟩ := bind_eq_ok_iff.mp hflat
  obtain ⟨-, rfl⟩ := check_eq_ok_iff.mp hcheck
  obtain ⟨_, t₂, hcheck, hflat⟩ := bind_eq_ok_iff.mp hflat
  obtain ⟨-, rfl⟩ := check_eq_ok_iff.mp hcheck
  have hat : TableAt tmpPaddr s.tmpPt root s.flat.mem 0 root := .root
  have hran := (recurseSetBacking_eq 3 rfl (fun _ hi => indices_lt hi) hroot hat rfl).run
    s.flat rfl r t hflat
  rcases hran with ⟨-, rfl⟩ | ⟨-, q, i, hslot, hleaf, hne, hpres, rfl⟩
  · exact .inl hleaves.leafCall
  · have hview : s.tables tmpPaddr q i = s.mem q i := by rw [VmState.tables, view_of_ne hne]
    refine .inr ⟨(q, i), hslot, ?_, ?_, hleaves.tmpPt_eq, hleaves.first_eq, hleaves.frames_eq,
      ⟨?_, ?_⟩, hleaves.tlb⟩
    · rw [hview]
      exact hpres
    · rw [hview, hleaves.mem_eq]
      exact (Tables.set_apply ..).trans (if_pos ⟨rfl, rfl⟩)
    · rintro slot rfl
      exact ⟨hleaf, hne⟩
    · intro slot hslot'
      rw [hleaves.mem_eq]
      exact (Tables.set_apply ..).trans (if_neg fun heq => hslot' (Prod.ext heq.1 heq.2))

/-- What `vm_unmap_pages` does: nothing, or it clears entries of one leaf table and invalidates
as many pages. -/
theorem unmapPages_of_call {r : ℕ} (hwin : WindowOk s.tmpPt s.firstFreeTmpIndex)
    (hok : call root (vmUnmapPages (kernel tmpPaddr) (.table root) vaddr pages) s = .ok (r, s'))
    (hvaddr : vaddr < 2 ^ 64) (hclear : tmpPaddr ∉ s'.opened) :
    LeafCall tmpPaddr root s s' (fun _ => False) ∨
      ∃ q a d, Lands (s.tables tmpPaddr) pages (indices vaddr) root (q, a) d ∧
        LeafCall tmpPaddr root s s' (fun slot => ∃ k < min pages (512 - a), slot = (q, a + k)) ∧
        ∀ x ∈ s'.tlb, ∀ k < min pages (512 - a),
          x.1 ≠ vpage (wrap64 (vaddr + (d + k) * pageSize)) := by
  obtain ⟨hroot, t, hflat, hleaves⟩ := vmUnmapPages_flat hwin hok hclear
  obtain ⟨_, t₁, hcheck, hflat⟩ := bind_eq_ok_iff.mp hflat
  obtain ⟨-, rfl⟩ := check_eq_ok_iff.mp hcheck
  obtain ⟨_, t₂, hcheck, hflat⟩ := bind_eq_ok_iff.mp hflat
  obtain ⟨hpages, rfl⟩ := check_eq_ok_iff.mp hcheck
  obtain ⟨w, t₃, hflat, hpure⟩ := bind_eq_ok_iff.mp hflat
  obtain ⟨-, rfl⟩ := pure_eq_ok_iff.mp hpure
  have hat : TableAt tmpPaddr s.tmpPt root s.flat.mem 0 root := .root
  obtain ⟨hflush, -⟩ := (recurseUnmap_flushes 3 rfl (fun _ hi => indices_lt hi) hroot hat rfl
    (of_decide_eq_true hpages) hvaddr).run s.flat rfl w t hflat
  rcases hflush with rfl | ⟨q, a, d, hlands, hleaf, hne, hmem, hframes, htlb⟩
  · exact .inl hleaves.leafCall
  · refine .inr ⟨q, a, d, hlands, ⟨hleaves.tmpPt_eq, hleaves.first_eq,
      hleaves.frames_eq.trans hframes, ⟨?_, ?_⟩, fun x hx => (htlb x (hleaves.tlb x hx)).1⟩,
      fun x hx => (htlb x (hleaves.tlb x hx)).2⟩
    · rintro slot ⟨k, -, rfl⟩
      exact ⟨hleaf, hne⟩
    · intro slot hslot
      rw [hleaves.mem_eq, hmem, clearFrom_some, if_neg]
      · rfl
      · rintro ⟨hq, ha, hi⟩
        exact hslot ⟨slot.2 - a, by omega, Prod.ext hq (by show slot.2 = a + _; omega)⟩

/-- What `vm_vaddr_to_paddr` does: nothing. -/
theorem vaddrToPaddr_of_call {r : Status × PAddr} (hwin : WindowOk s.tmpPt s.firstFreeTmpIndex)
    (hok : call root (vmVaddrToPaddr (kernel tmpPaddr) (.table root) vaddr) s = .ok (r, s'))
    (hclear : tmpPaddr ∉ s'.opened) : LeafCall tmpPaddr root s s' fun _ => False := by
  obtain ⟨-, t, hflat, hleaves⟩ := call_flat
    (y := fun p => vmVaddrToPaddr (flat tmpPaddr) p vaddr)
    (fun _ _ hlevel _ _ hpt => sim_vmVaddrToPaddr hlevel hpt ..)
    (fun q _ => keeps_vmVaddrToPaddr (keeps_kernel tmpPaddr q).toLookKeeps ..) hwin hok hclear
  have hsame : t = s.flat :=
    (keeps_vmVaddrToPaddr (flat_lookKeeps fun t => t = s.flat) root vaddr).run s.flat rfl r t hflat
  rw [hsame] at hleaves
  exact hleaves.leafCall

/-- A call that changes permissions keeps the tables in order. -/
theorem FlagEffect.ordered {flags : Flags} {res : Status}
    (h : FlagEffect tmpPaddr root flags vaddr pages s res s')
    (hordered : Ordered tmpPaddr s.tmpPt root s.mem s.frames) :
    Ordered tmpPaddr s'.tmpPt root s'.mem s'.frames := by
  rw [h.tmpPt_eq, h.frames_eq]
  apply hordered.congr
  intro n _ q
  have hiff : pageTables.At (s'.tables tmpPaddr) root n q ↔
    pageTables.At (s.tables tmpPaddr) root n q := h.flagged.sameShape.at_iff
  rw [VmState.tables, VmState.tables, h.tmpPt_eq] at hiff
  exact hiff

end Calls

end Mimik.Vm
