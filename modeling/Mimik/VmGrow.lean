/-
# Mapping only adds

`vm_map_pages` changes an entry in three ways: it fills an entry of a leaf table that
was not present, it enters a new table, cleared beforehand, where there was none, and
it rewrites the permissions of an entry above the leaf tables.  None of them changes
the leaf entry of a page that was mapped (`map_keeps_leaf`), whatever part of the
tables the indices left by `find_space` lead to, and however the call ends.

What carries the argument is `Ordered`: every table serves at one level, so that an
entry above the leaf tables of one path is not a leaf entry of another, and the frames
still to come are not tables.  `tmp_pt`, which may serve at several levels, is exempt:
its entries do not change.
-/
import Mimik.VmFlat

namespace Mimik.Vm

open FaultState

section Grow

variable {tmpPaddr : PAddr} {tmpPt : ℕ → Pte} {root : PAddr}

/-- `p` is a table of the given level; `height` counts from the leaf tables. -/
def TableAt (tmpPaddr : PAddr) (tmpPt : ℕ → Pte) (root : PAddr) (mem : Tables) (level : ℕ)
    (p : PAddr) : Prop :=
  pageTables.At (view tmpPaddr tmpPt mem) root level p

/-- The tables are in order: each table but `tmp_pt` serves at one level only, and the
frames that `pm_request_page` is going to return are page addresses, distinct from each
other and from the tables. -/
structure Ordered (tmpPaddr : PAddr) (tmpPt : ℕ → Pte) (root : PAddr) (mem : Tables)
    (frames : List PAddr) : Prop where
  oneLevel : ∀ p, p ≠ tmpPaddr → ∀ n ≤ 3, ∀ m ≤ 3, TableAt tmpPaddr tmpPt root mem n p →
    TableAt tmpPaddr tmpPt root mem m p → n = m
  aligned : ∀ f ∈ frames, ptePaddr f = f
  noTable : ∀ f ∈ frames, ∀ n ≤ 3, ¬ TableAt tmpPaddr tmpPt root mem n f
  nodup : frames.Nodup

/-- What was a table is one, and what was mapped is mapped in the same way. -/
structure Grows (tmpPaddr : PAddr) (tmpPt : ℕ → Pte) (root : PAddr) (mem mem' : Tables) :
    Prop where
  table : ∀ n ≤ 3, ∀ p, TableAt tmpPaddr tmpPt root mem n p →
    TableAt tmpPaddr tmpPt root mem' n p
  leaf : ∀ vaddr e, pageTables.leaf (view tmpPaddr tmpPt mem) root (indices vaddr) = some e →
    pageTables.leaf (view tmpPaddr tmpPt mem') root (indices vaddr) = some e

theorem Grows.refl (mem : Tables) : Grows tmpPaddr tmpPt root mem mem :=
  ⟨fun _ _ _ h => h, fun _ _ h => h⟩

theorem Grows.trans {mem₁ mem₂ mem₃ : Tables} (h : Grows tmpPaddr tmpPt root mem₁ mem₂)
    (h' : Grows tmpPaddr tmpPt root mem₂ mem₃) : Grows tmpPaddr tmpPt root mem₁ mem₃ :=
  ⟨fun n hn p hp => h'.table n hn p (h.table n hn p hp),
    fun vaddr e he => h'.leaf vaddr e (h.leaf vaddr e he)⟩

/-- A memory that extends the tables above the leaves and changes no present leaf entry
has grown. -/
theorem Grows.of_extends {mem mem' : Tables}
    (hext : pageTables.Extends (view tmpPaddr tmpPt mem) (view tmpPaddr tmpPt mem') root 3)
    (hlast : ∀ p, TableAt tmpPaddr tmpPt root mem 3 p → ∀ i < ptLength,
      present (view tmpPaddr tmpPt mem p i) = true →
      view tmpPaddr tmpPt mem' p i = view tmpPaddr tmpPt mem p i) :
    Grows tmpPaddr tmpPt root mem mem' where
  table _ hn _ hp := hp.mono hext hn
  leaf _ _ he := Radix.leaf_mono hext hlast rfl (fun _ hi => indices_lt hi) he

/-! ## The three kinds of stores -/

variable {mem mem' : Tables} {frames : List PAddr} {p f : PAddr} {i n : ℕ} {e : Pte}

/-- Tables that stay where they are stay in order. -/
theorem Ordered.congr (h : Ordered tmpPaddr tmpPt root mem frames)
    (hiff : ∀ n ≤ 3, ∀ q, TableAt tmpPaddr tmpPt root mem' n q ↔
      TableAt tmpPaddr tmpPt root mem n q) : Ordered tmpPaddr tmpPt root mem' frames where
  oneLevel q hq n hn m hm hqn hqm :=
    h.oneLevel q hq n hn m hm ((hiff n hn q).mp hqn) ((hiff m hm q).mp hqm)
  aligned := h.aligned
  noTable g hg n hn hgn := h.noTable g hg n hn ((hiff n hn g).mp hgn)
  nodup := h.nodup

/-- The rewriting of the permissions of an entry above the leaf tables. -/
theorem Ordered.reflag (h : Ordered tmpPaddr tmpPt root mem frames) (hne : p ≠ tmpPaddr)
    (hp : TableAt tmpPaddr tmpPt root mem n p) (hn : n < 3)
    (hpres : present e = present (mem p i)) (hnext : ptePaddr e = ptePaddr (mem p i)) :
    Ordered tmpPaddr tmpPt root (mem.set p i e) frames ∧
      Grows tmpPaddr tmpPt root mem (mem.set p i e) := by
  have hsame : ∀ q j, present (view tmpPaddr tmpPt (mem.set p i e) q j) =
        present (view tmpPaddr tmpPt mem q j) ∧
      ptePaddr (view tmpPaddr tmpPt (mem.set p i e) q j) =
        ptePaddr (view tmpPaddr tmpPt mem q j) := by
    intro q j
    rw [view_set hne, Tables.set_apply]
    by_cases hqj : q = p ∧ j = i
    · rw [if_pos hqj, hqj.1, hqj.2, view_of_ne hne]
      exact ⟨hpres, hnext⟩
    · rw [if_neg hqj]
      exact ⟨rfl, rfl⟩
  constructor
  · apply h.congr
    intro m hm q
    exact Radix.at_congr (fun _ _ q _ j _ => hsame q j) le_rfl
  · apply Grows.of_extends
    · intro m _ q _ j _ hj
      exact ⟨(hsame q j).1.trans hj, (hsame q j).2⟩
    · intro q hq j _ _
      rw [view_set hne, Tables.set_apply, if_neg]
      -- `p` is no leaf table
      rintro ⟨rfl, -⟩
      have := h.oneLevel q hne n (by omega) 3 le_rfl hp hq
      omega

/-- The filling of an entry of a leaf table that was not present. -/
theorem Ordered.fill (h : Ordered tmpPaddr tmpPt root mem frames) (hne : p ≠ tmpPaddr)
    (hp : TableAt tmpPaddr tmpPt root mem 3 p) (habs : present (mem p i) = false) :
    Ordered tmpPaddr tmpPt root (mem.set p i e) frames ∧
      Grows tmpPaddr tmpPt root mem (mem.set p i e) := by
  have hother : ∀ m < 3, ∀ q, TableAt tmpPaddr tmpPt root mem m q → ∀ j,
      view tmpPaddr tmpPt (mem.set p i e) q j = view tmpPaddr tmpPt mem q j := by
    intro m hm q hq j
    rw [view_set hne, Tables.set_apply, if_neg]
    -- `p` is a leaf table only
    rintro ⟨rfl, -⟩
    have := h.oneLevel q hne m (by omega) 3 le_rfl hq hp
    omega
  constructor
  · apply h.congr
    intro m hm q
    apply Radix.at_congr (d := 3) _ hm
    intro k hk q hq j _
    rw [hother k hk q hq j]
    exact ⟨rfl, rfl⟩
  · apply Grows.of_extends
    · intro m hm q hq j _ hj
      rw [hother m hm q hq j]
      exact ⟨hj, rfl⟩
    · intro q _ j _ hj
      rw [view_set hne, Tables.set_apply, if_neg]
      rintro ⟨rfl, rfl⟩
      rw [view_of_ne hne, habs] at hj
      cases hj

/-- The entry of a new table where there was none. -/
theorem Ordered.link (h : Ordered tmpPaddr tmpPt root mem (f :: frames)) (hne : p ≠ tmpPaddr)
    (hp : TableAt tmpPaddr tmpPt root mem n p) (hn : n < 3) (hi : i < ptLength)
    (habs : present (mem p i) = false) (hf : f ≠ tmpPaddr) (hpres : present e = true)
    (hnext : ptePaddr e = f) :
    Ordered tmpPaddr tmpPt root ((mem.clear f).set p i e) frames ∧
      Grows tmpPaddr tmpPt root mem ((mem.clear f).set p i e) ∧
      TableAt tmpPaddr tmpPt root ((mem.clear f).set p i e) (n + 1) f := by
  have hnew : ∀ m ≤ 3, ¬ TableAt tmpPaddr tmpPt root mem m f := h.noTable f List.mem_cons_self
  have hpf : p ≠ f := by
    rintro rfl
    exact hnew n (by omega) hp
  have hat : ∀ q j, view tmpPaddr tmpPt ((mem.clear f).set p i e) q j =
      if q = p ∧ j = i then e else if q = f then 0#64 else view tmpPaddr tmpPt mem q j := by
    intro q j
    rw [view_set hne, view_clear hf, Tables.set_apply, Tables.clear_apply]
  have hold : ∀ m ≤ 3, ∀ q, TableAt tmpPaddr tmpPt root mem m q → ∀ j,
      present (view tmpPaddr tmpPt mem q j) = true →
      view tmpPaddr tmpPt ((mem.clear f).set p i e) q j = view tmpPaddr tmpPt mem q j := by
    intro m hm q hq j hj
    rw [hat, if_neg, if_neg]
    · rintro rfl
      exact hnew m hm hq
    · rintro ⟨rfl, rfl⟩
      rw [view_of_ne hne, habs] at hj
      cases hj
  have hgrow : Grows tmpPaddr tmpPt root mem ((mem.clear f).set p i e) := by
    apply Grows.of_extends
    · intro m hm q hq j _ hj
      rw [hold m (by omega) q hq j hj]
      exact ⟨hj, rfl⟩
    · intro q hq j _ hj
      exact hold 3 le_rfl q hq j hj
  have htable : TableAt tmpPaddr tmpPt root ((mem.clear f).set p i e) (n + 1) f := by
    have hread : view tmpPaddr tmpPt ((mem.clear f).set p i e) p i = e := by
      rw [hat, if_pos ⟨rfl, rfl⟩]
    have hstep : TableAt tmpPaddr tmpPt root ((mem.clear f).set p i e) (n + 1)
        (ptePaddr (view tmpPaddr tmpPt ((mem.clear f).set p i e) p i)) := by
      apply Radix.At.step (hgrow.table n (by omega) p hp) hi
      rw [hread]
      exact hpres
    rwa [hread, hnext] at hstep
  -- the only table that is new is `f`, one level below `p`
  have hback : ∀ m ≤ 3, ∀ q, TableAt tmpPaddr tmpPt root ((mem.clear f).set p i e) m q →
      TableAt tmpPaddr tmpPt root mem m q ∨ m = n + 1 ∧ q = f := by
    intro m hm q hq
    apply Radix.At.back (fun m q => m = n + 1 ∧ q = f) (d := 3) _ hq hm
    intro k hk q hq j hj hjpres
    replace hjpres : present (view tmpPaddr tmpPt ((mem.clear f).set p i e) q j) = true := hjpres
    show TableAt tmpPaddr tmpPt root mem (k + 1) (ptePaddr _) ∨ _ ∧ ptePaddr _ = f
    rw [hat] at hjpres ⊢
    by_cases hqj : q = p ∧ j = i
    · rcases hq with hq | ⟨-, rfl⟩
      · rw [if_pos hqj]
        have hkn : k = n := h.oneLevel p hne k (by omega) n (by omega) (hqj.1 ▸ hq) hp
        exact .inr ⟨by rw [hkn], hnext⟩
      · exact absurd hqj.1.symm hpf
    · rw [if_neg hqj] at hjpres ⊢
      by_cases hqf : q = f
      · rw [if_pos hqf] at hjpres
        simp at hjpres
      · rw [if_neg hqf] at hjpres ⊢
        rcases hq with hq | ⟨-, rfl⟩
        · exact .inl (hq.step hj hjpres)
        · exact absurd rfl hqf
  refine ⟨⟨?_, fun g hg => h.aligned g (List.mem_cons_of_mem _ hg), ?_, h.nodup.of_cons⟩,
    hgrow, htable⟩
  · intro q hq m hm k hk hqm hqk
    rcases hback m hm q hqm with hm' | ⟨rfl, rfl⟩
    · rcases hback k hk q hqk with hk' | ⟨rfl, rfl⟩
      · exact h.oneLevel q hq m hm k hk hm' hk'
      · exact absurd hm' (hnew m hm)
    · rcases hback k hk q hqk with hk' | ⟨rfl, -⟩
      · exact absurd hk' (hnew k hk)
      · rfl
  · intro g hg m hm hgm
    rcases hback m hm g hgm with hm' | ⟨-, rfl⟩
    · exact h.noTable g (List.mem_cons_of_mem _ hg) m hm hm'
    · exact (List.nodup_cons.mp h.nodup).1 hg

/-! ## The recursion -/

/-- The state `t` is reached from `t₀` by mapping only. -/
structure Grown (tmpPaddr : PAddr) (tmpPt : ℕ → Pte) (root : PAddr) (t₀ t : FlatState) :
    Prop where
  ordered : Ordered tmpPaddr tmpPt root t.mem t.frames
  grows : Grows tmpPaddr tmpPt root t₀.mem t.mem

variable {t₀ t₁ t : FlatState} {q : PAddr} {level : ℕ}

theorem Grown.trans (h : Grown tmpPaddr tmpPt root t₀ t₁) (h' : Grown tmpPaddr tmpPt root t₁ t) :
    Grown tmpPaddr tmpPt root t₀ t :=
  ⟨h'.ordered, h.grows.trans h'.grows⟩

/-- The table that a level of the recursion works on, in a state reached from `t₀`. -/
structure Working (tmpPaddr : PAddr) (tmpPt : ℕ → Pte) (root : PAddr) (t₀ : FlatState)
    (level : ℕ) (p : PAddr) (t : FlatState) : Prop where
  grown : Grown tmpPaddr tmpPt root t₀ t
  table : TableAt tmpPaddr tmpPt root t.mem level p

/-- More mapping leaves the table where it is. -/
theorem Working.of_grown (h : Working tmpPaddr tmpPt root t₀ level p t₁) (hlevel : level ≤ 3)
    (hgrown : Grown tmpPaddr tmpPt root t₁ t) : Working tmpPaddr tmpPt root t₀ level p t :=
  ⟨h.grown.trans hgrown, hgrown.grows.table level hlevel p h.table⟩

theorem mapLeaf_working (hne : p ≠ tmpPaddr) (flags : Flags) (v : MapVars) :
    Keeps (Working tmpPaddr tmpPt root t₀ 3 p) (mapLeaf (flat tmpPaddr) flags p v) := by
  apply Keeps.ite _ (Keeps.pure _)
  apply Triple.bind (Q := fun e t => Working tmpPaddr tmpPt root t₀ 3 p t ∧ e = t.mem p v.i)
    (flat_read p v.i fun t ht => ⟨ht, rfl⟩)
  intro e
  apply Triple.ite
  · exact fun _ => Triple.pure fun t ht => ht.1
  · intro habs
    apply Triple.bind (Q := fun _ t => Working tmpPaddr tmpPt root t₀ 3 p t)
    · apply flat_write
      rintro t ⟨ht, rfl⟩
      have hfill := ht.grown.ordered.fill (e := setPte v.paddr flags) hne ht.table
        (Bool.not_eq_true _ ▸ habs)
      exact ht.of_grown le_rfl ⟨hfill.1, hfill.2⟩
    · exact fun _ => Keeps.pure _

/-- The table of the level below, found or made. -/
theorem openTable_working (hne : p ≠ tmpPaddr) (hlevel : level < 3) {i : ℕ} (hi : i < ptLength)
    (e : Pte) :
    Triple (fun t => Working tmpPaddr tmpPt root t₀ level p t ∧ e = t.mem p i)
      (if present e then (flat tmpPaddr).mapPageTmp (ptePaddr e) vmFlagWritable
        else createPt (flat tmpPaddr) p i)
      fun q t => Working tmpPaddr tmpPt root t₀ level p t ∧ q ≠ tmpPaddr ∧
        TableAt tmpPaddr tmpPt root t.mem (level + 1) q := by
  apply Triple.ite
  · intro hpres
    apply flat_mapPageTmp
    rintro t ⟨ht, rfl⟩ hq
    rw [ptePaddr_ptePaddr] at hq ⊢
    have hstep := ht.table.step hi (by rw [view_of_ne hne]; exact hpres)
    rw [view_of_ne hne] at hstep
    exact ⟨ht, hq, hstep⟩
  · intro habs
    apply flat_createPt
    rintro t f frames ⟨ht, rfl⟩ hframes hq
    have hordered := ht.grown.ordered
    rw [hframes] at hordered
    have hal : ptePaddr f = f := hordered.aligned f List.mem_cons_self
    rw [hal] at hq ⊢
    have hlink := hordered.link (e := setPte f vmFlagWritable) hne ht.table hlevel hi
      (Bool.not_eq_true _ ▸ habs) hq (present_setPte _ _) (by rw [ptePaddr_setPte, hal])
    rw [FlatState.created, hal, hframes]
    exact ⟨ht.of_grown (by omega) ⟨hlink.1, hlink.2.1⟩, hq, hlink.2.2⟩

theorem mapInner_working (hne : p ≠ tmpPaddr) (hlevel : level < 3)
    {child : PAddr → PAddr → ℕ → Prog Fault FlatState (Status × MapVars)}
    (hchild : ∀ t₁ q paddr pages, q ≠ tmpPaddr →
      Keeps (Working tmpPaddr tmpPt root t₁ (level + 1) q) (child q paddr pages))
    (flags : Flags) (v : MapVars) :
    Keeps (Working tmpPaddr tmpPt root t₀ level p) (mapInner (flat tmpPaddr) child flags p v) := by
  apply Triple.ite _ fun _ => Keeps.pure _
  intro hrange
  apply Triple.bind (Q := fun e t => Working tmpPaddr tmpPt root t₀ level p t ∧ e = t.mem p v.i)
    (flat_read p v.i fun t ht => ⟨ht, rfl⟩)
  intro e
  apply Triple.bind (openTable_working hne hlevel hrange.1 e)
  intro q
  apply Triple.bind (Q := fun _ t => Working tmpPaddr tmpPt root t₀ level p t ∧ q ≠ tmpPaddr ∧
    TableAt tmpPaddr tmpPt root t.mem (level + 1) q)
  · apply flat_updatePtPteFlags
    rintro t ⟨ht, hq, hat⟩
    have hreflag := ht.grown.ordered.reflag (e := reflag (t.mem p v.i) flags) hne ht.table hlevel
      (present_reflag _ _) (ptePaddr_reflag _ _)
    exact ⟨ht.of_grown (by omega) ⟨hreflag.1, hreflag.2⟩, hq,
      hreflag.2.table (level + 1) (by omega) q hat⟩
  · intro _
    -- what the call below preserves is stated for the state in which it starts
    apply Triple.of_start
    rintro t₁ ⟨ht, hq, hat⟩
    apply Triple.bind (Q := fun _ t => Working tmpPaddr tmpPt root t₀ level p t)
    · apply (hchild t₁ q v.paddr v.pages hq).mono
      · rintro t rfl
        exact ⟨⟨ht.grown.ordered, Grows.refl _⟩, hat⟩
      · intro _ t h
        exact ht.of_grown (by omega) h.grown
    · rintro ⟨res, w⟩
      exact Keeps.bind (flat_unmapPageTmp q fun _ h => h) fun _ => Keeps.pure _

theorem recurseMap_working (flags : Flags) (height : ℕ) (hheight : height ≤ 3) (t₀ : FlatState)
    (index : List ℕ) (p paddr : PAddr) (pages : ℕ) (hne : p ≠ tmpPaddr) :
    Keeps (Working tmpPaddr tmpPt root t₀ (3 - height) p)
      (recurseMap (flat tmpPaddr) flags height index p paddr pages) := by
  induction height generalizing t₀ index p paddr pages with
  | zero => exact Keeps.rounds (mapLeaf_working hne flags) (fun _ => Keeps.pure _) ..
  | succ height ih =>
    apply Keeps.rounds _ (fun _ => Keeps.pure _)
    apply mapInner_working hne (by omega)
    intro t₁ q paddr pages hq
    rw [show 3 - (height + 1) + 1 = 3 - height by omega]
    exact ih (by omega) t₁ index.tail q paddr pages hq

/-- Mapping keeps the tables in order and everything that was mapped. -/
theorem vmMapPages_grown (hroot : root ≠ tmpPaddr) (fuel : ℕ) (paddrStart : PAddr)
    (pages vaddrHint : ℕ) (flags : Flags) (t₀ : FlatState)
    (hordered : Ordered tmpPaddr tmpPt root t₀.mem t₀.frames) :
    Triple (fun t => t = t₀)
      (vmMapPages (flat tmpPaddr) fuel root paddrStart pages vaddrHint flags)
      fun _ t => Grown tmpPaddr tmpPt root t₀ t := by
  have hkeeps : Keeps (Working tmpPaddr tmpPt root t₀ 0 root)
      (vmMapPages (flat tmpPaddr) fuel root paddrStart pages vaddrHint flags) := by
    apply Keeps.bind (keeps_check _ _)
    intro _
    apply Keeps.bind (keeps_check _ _)
    intro _
    apply Keeps.bind (keeps_check _ _)
    intro _
    apply Keeps.bind (flat_findSpace fuel paddrStart pages flags 3 (indices vaddrHint) root)
    rintro ⟨res, index⟩
    apply Keeps.ite (Keeps.pure _)
    apply Keeps.bind (recurseMap_working flags 3 le_rfl t₀ index root paddrStart pages hroot)
    exact fun _ => Keeps.ite (Keeps.pure _) (Keeps.pure _)
  apply hkeeps.mono
  · rintro t rfl
    exact ⟨⟨hordered, Grows.refl _⟩, .root⟩
  · exact fun _ t h => h.grown

/-! ## The call -/

variable {s s' : VmState} {paddrStart : PAddr} {fuel pages vaddrHint vaddr : ℕ} {flags : Flags}
  {r : Status × ℕ}

/-- What a call of `vm_map_pages` does that does not walk `tmp_pt`. -/
theorem grown_of_call (hwin : WindowOk s.tmpPt s.firstFreeTmpIndex)
    (hordered : Ordered tmpPaddr s.tmpPt root s.mem s.frames)
    (hok : call root (vmMapPages (kernel tmpPaddr) fuel (.table root) paddrStart pages vaddrHint
      flags) s = .ok (r, s')) (hclear : tmpPaddr ∉ s'.opened) :
    ∃ t, Leaves s t s' ∧ Grown tmpPaddr s.tmpPt root s.flat t := by
  obtain ⟨hroot, t, hflat, hleaves⟩ := vmMapPages_flat hwin hok hclear
  refine ⟨t, hleaves, ?_⟩
  exact (vmMapPages_grown hroot fuel paddrStart pages vaddrHint flags s.flat hordered).run
    s.flat rfl r t hflat

/-- **Mapping never disturbs what is mapped.**  Whatever `vm_map_pages` is asked for and
however it returns, a page that was mapped keeps its leaf entry. -/
theorem map_keeps_leaf (hwin : WindowOk s.tmpPt s.firstFreeTmpIndex)
    (hordered : Ordered tmpPaddr s.tmpPt root s.mem s.frames)
    (hok : call root (vmMapPages (kernel tmpPaddr) fuel (.table root) paddrStart pages vaddrHint
      flags) s = .ok (r, s')) (hclear : tmpPaddr ∉ s'.opened) {e : Pte}
    (he : s.leaf tmpPaddr root vaddr = some e) : s'.leaf tmpPaddr root vaddr = some e := by
  obtain ⟨t, hleaves, hgrown⟩ := grown_of_call hwin hordered hok hclear
  rw [VmState.leaf, VmState.tables, hleaves.tmpPt_eq, hleaves.mem_eq]
  exact hgrown.grows.leaf vaddr e he

end Grow

/-- The tables of `rowState` are in order when the frames are pages above them. -/
theorem ordered_rowState {leaves : ℕ → Pte} {flags : Flags} {tmpPt : ℕ → Pte}
    {frames : List PAddr} (hal : ∀ f ∈ frames, ptePaddr f = f)
    (hnew : ∀ f ∈ frames, 0x4000#64 < f) (hnodup : frames.Nodup) :
    Ordered 0x8000#64 tmpPt 0x1000#64 (rowTables leaves flags) frames where
  oneLevel p _ n hn m hm hpn hpm := by
    have heq := (at_rowTables hpn hn).symm.trans (at_rowTables hpm hm)
    have hnat := congrArg BitVec.toNat heq
    rw [BitVec.toNat_ofNat, BitVec.toNat_ofNat] at hnat
    omega
  aligned := hal
  noTable f hf n hn hat := by
    have hlt := hnew f hf
    rw [at_rowTables hat hn, BitVec.lt_def, BitVec.toNat_ofNat, BitVec.toNat_ofNat] at hlt
    omega
  nodup := hnodup

/-- The page at 0 stays mapped when a second page is mapped next to it. -/
theorem map_keeps_leaf_second :
    ∃ s', call 0x1000#64 (vmMapPages (kernel 0x8000#64) 2 (.table 0x1000#64) 0x6000#64 1 0x1000
        vmFlagWritable) (rowState (fun i => if i = 0 then 0x5003#64 else 0#64) vmFlagWritable []) =
        .ok ((success, 0x1000), s') ∧
      s'.leaf 0x8000#64 0x1000#64 0 = some 0x5003#64 := by
  have hrun : (call 0x1000#64
      (vmMapPages (kernel 0x8000#64) 2 (.table 0x1000#64) 0x6000#64 1 0x1000 vmFlagWritable)
      (rowState (fun i => if i = 0 then 0x5003#64 else 0#64) vmFlagWritable [])).toOption.any
      (fun x => decide (x.1 = (success, 0x1000) ∧ 0x8000#64 ∉ x.2.opened)) = true := by
    decide +kernel
  obtain ⟨⟨r, s'⟩, hok, htest⟩ := Except.exists_of_any hrun
  have htest := of_decide_eq_true htest
  have hr : r = (success, 0x1000) := htest.1
  subst hr
  refine ⟨s', hok, ?_⟩
  apply map_keeps_leaf window_rowState (ordered_rowState _ _ _) hok htest.2
  · decide +kernel
  · intro f hf; cases hf
  · intro f hf; cases hf
  · exact List.nodup_nil

end Mimik.Vm
