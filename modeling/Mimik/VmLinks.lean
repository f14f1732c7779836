/-
# Where the entries of new tables lead

`vm_map_pages` makes a table for an entry that leads nowhere, in a page that was none before, and
clears it; so the entries of new tables lead to new tables only.  A walk that leaves the
old tables does not come back to them: a page that was not mapped never gets the leaf
entry of one that was (`Linked.leafSlot_ne`).

What is kept by each of the stores of `recurse_map` is kept by the whole call
(`MapStores.vmMapPages`).  The search says where the call maps: with `STRICT` it is at the hint,
which was not mapped, or nowhere (`vmMapPages_strict`).
-/
import Mimik.VmMapExact

namespace Mimik.Vm

open FaultState

section Links

variable {tmpPaddr : PAddr} {tmpPt : ℕ → Pte} {root : PAddr}

/-! ## The stores of a call -/

/-- A relation of memories that contains the three kinds of stores of `recurse_map`. -/
structure MapStores (tmpPaddr : PAddr) (tmpPt : ℕ → Pte) (root : PAddr)
    (R : Tables → Tables → Prop) : Prop where
  refl : ∀ mem, R mem mem
  trans : ∀ {mem₁ mem₂ mem₃}, R mem₁ mem₂ → R mem₂ mem₃ → R mem₁ mem₃
  reflag : ∀ {mem frames p i n e}, Ordered tmpPaddr tmpPt root mem frames → p ≠ tmpPaddr →
    TableAt tmpPaddr tmpPt root mem n p → n < 3 → present e = present (mem p i) →
    ptePaddr e = ptePaddr (mem p i) → R mem (mem.set p i e)
  fill : ∀ {mem frames p i e}, Ordered tmpPaddr tmpPt root mem frames → p ≠ tmpPaddr →
    TableAt tmpPaddr tmpPt root mem 3 p → present (mem p i) = false → R mem (mem.set p i e)
  link : ∀ {mem f frames p i n e}, Ordered tmpPaddr tmpPt root mem (f :: frames) →
    p ≠ tmpPaddr → TableAt tmpPaddr tmpPt root mem n p → n < 3 → i < ptLength →
    present (mem p i) = false → f ≠ tmpPaddr → present e = true → ptePaddr e = f →
    R mem ((mem.clear f).set p i e)

/-- The table that a level of the recursion works on, in a state related to `t₀`. -/
def WorkingIn (tmpPaddr : PAddr) (tmpPt : ℕ → Pte) (root : PAddr) (R : Tables → Tables → Prop)
    (t₀ : FlatState) (level : ℕ) (p : PAddr) (t : FlatState) : Prop :=
  Working tmpPaddr tmpPt root t₀ level p t ∧ R t₀.mem t.mem

variable {R : Tables → Tables → Prop} {t₀ : FlatState} {p : PAddr} {level : ℕ}

theorem MapStores.mapLeaf (h : MapStores tmpPaddr tmpPt root R) (hne : p ≠ tmpPaddr)
    (flags : Flags) (v : MapVars) :
    Keeps (WorkingIn tmpPaddr tmpPt root R t₀ 3 p) (mapLeaf (flat tmpPaddr) flags p v) := by
  apply Keeps.ite _ (Keeps.pure _)
  apply Triple.bind (Q := fun e t => WorkingIn tmpPaddr tmpPt root R t₀ 3 p t ∧ e = t.mem p v.i)
    (flat_read p v.i fun t ht => ⟨ht, rfl⟩)
  intro e
  apply Triple.ite
  · exact fun _ => Triple.pure fun t ht => ht.1
  · intro habs
    apply Triple.bind (Q := fun _ t => WorkingIn tmpPaddr tmpPt root R t₀ 3 p t)
    · apply flat_write
      rintro t ⟨⟨ht, hR⟩, rfl⟩
      have habs' := Bool.not_eq_true _ ▸ habs
      have hfill := ht.grown.ordered.fill (e := setPte v.paddr flags) hne ht.table habs'
      exact ⟨ht.of_grown le_rfl ⟨hfill.1, hfill.2⟩,
        h.trans hR (h.fill ht.grown.ordered hne ht.table habs')⟩
    · exact fun _ => Keeps.pure _

/-- The table of the level below, found or made. -/
theorem MapStores.openTable (h : MapStores tmpPaddr tmpPt root R) (hne : p ≠ tmpPaddr)
    (hlevel : level < 3) {i : ℕ} (hi : i < ptLength) (e : Pte) :
    Triple (fun t => WorkingIn tmpPaddr tmpPt root R t₀ level p t ∧ e = t.mem p i)
      (if present e then (flat tmpPaddr).mapPageTmp (ptePaddr e) vmFlagWritable
        else createPt (flat tmpPaddr) p i)
      fun q t => WorkingIn tmpPaddr tmpPt root R t₀ level p t ∧ q ≠ tmpPaddr ∧
        TableAt tmpPaddr tmpPt root t.mem (level + 1) q := by
  apply Triple.ite
  · intro hpres
    apply flat_mapPageTmp
    rintro t ⟨ht, rfl⟩ hq
    rw [ptePaddr_ptePaddr] at hq ⊢
    have hstep := ht.1.table.step hi (by rw [view_of_ne hne]; exact hpres)
    rw [view_of_ne hne] at hstep
    exact ⟨ht, hq, hstep⟩
  · intro habs
    apply flat_createPt
    rintro t f frames ⟨⟨ht, hR⟩, rfl⟩ hframes hq
    have hordered := ht.grown.ordered
    rw [hframes] at hordered
    have hal : ptePaddr f = f := hordered.aligned f List.mem_cons_self
    have haddr : ptePaddr (setPte f vmFlagWritable) = f := by rw [ptePaddr_setPte, hal]
    have habs' := Bool.not_eq_true _ ▸ habs
    rw [hal] at hq ⊢
    have hlink := hordered.link hne ht.table hlevel hi habs' hq (present_setPte _ _) haddr
    have hstore := h.link hordered hne ht.table hlevel hi habs' hq (present_setPte _ _) haddr
    rw [FlatState.created, hal, hframes]
    exact ⟨⟨ht.of_grown (by omega) ⟨hlink.1, hlink.2.1⟩, h.trans hR hstore⟩, hq, hlink.2.2⟩

theorem MapStores.mapInner (h : MapStores tmpPaddr tmpPt root R) (hne : p ≠ tmpPaddr)
    (hlevel : level < 3) {child : PAddr → PAddr → ℕ → Prog Fault FlatState (Status × MapVars)}
    (hchild : ∀ t₁ q paddr pages, q ≠ tmpPaddr →
      Keeps (WorkingIn tmpPaddr tmpPt root R t₁ (level + 1) q) (child q paddr pages))
    (flags : Flags) (v : MapVars) :
    Keeps (WorkingIn tmpPaddr tmpPt root R t₀ level p)
      (mapInner (flat tmpPaddr) child flags p v) := by
  apply Triple.ite _ fun _ => Keeps.pure _
  intro hrange
  apply Triple.bind
    (Q := fun e t => WorkingIn tmpPaddr tmpPt root R t₀ level p t ∧ e = t.mem p v.i)
    (flat_read p v.i fun t ht => ⟨ht, rfl⟩)
  intro e
  apply Triple.bind (h.openTable hne hlevel hrange.1 e)
  intro q
  apply Triple.bind (Q := fun _ t => WorkingIn tmpPaddr tmpPt root R t₀ level p t ∧
    q ≠ tmpPaddr ∧ TableAt tmpPaddr tmpPt root t.mem (level + 1) q)
  · apply flat_updatePtPteFlags
    rintro t ⟨⟨ht, hR⟩, hq, hat⟩
    have hpres := present_reflag (t.mem p v.i) flags
    have haddr := ptePaddr_reflag (t.mem p v.i) flags
    have hreflag := ht.grown.ordered.reflag hne ht.table hlevel hpres haddr
    exact ⟨⟨ht.of_grown (by omega) ⟨hreflag.1, hreflag.2⟩,
      h.trans hR (h.reflag ht.grown.ordered hne ht.table hlevel hpres haddr)⟩, hq,
      hreflag.2.table (level + 1) (by omega) q hat⟩
  · intro _
    -- what the call below preserves is stated for the state in which it starts
    apply Triple.of_start
    rintro t₁ ⟨⟨ht, hR⟩, hq, hat⟩
    apply Triple.bind (Q := fun _ t => WorkingIn tmpPaddr tmpPt root R t₀ level p t)
    · apply (hchild t₁ q v.paddr v.pages hq).mono
      · rintro t rfl
        exact ⟨⟨⟨ht.grown.ordered, Grows.refl _⟩, hat⟩, h.refl _⟩
      · intro _ t h'
        exact ⟨ht.of_grown (by omega) h'.1.grown, h.trans hR h'.2⟩
    · rintro ⟨res, w⟩
      exact Keeps.bind (flat_unmapPageTmp q fun _ h => h) fun _ => Keeps.pure _

theorem MapStores.recurseMap (h : MapStores tmpPaddr tmpPt root R) (flags : Flags) (height : ℕ)
    (hheight : height ≤ 3) (t₀ : FlatState) (index : List ℕ) (p paddr : PAddr) (pages : ℕ)
    (hne : p ≠ tmpPaddr) :
    Keeps (WorkingIn tmpPaddr tmpPt root R t₀ (3 - height) p)
      (recurseMap (flat tmpPaddr) flags height index p paddr pages) := by
  induction height generalizing t₀ index p paddr pages with
  | zero => exact Keeps.rounds (h.mapLeaf hne flags) (fun _ => Keeps.pure _) ..
  | succ height ih =>
    apply Keeps.rounds _ (fun _ => Keeps.pure _)
    apply h.mapInner hne (by omega)
    intro t₁ q paddr pages hq
    rw [show 3 - (height + 1) + 1 = 3 - height by omega]
    exact ih (by omega) t₁ index.tail q paddr pages hq

/-- **What the stores keep, the call keeps.** -/
theorem MapStores.vmMapPages (h : MapStores tmpPaddr tmpPt root R) (hroot : root ≠ tmpPaddr)
    (fuel : ℕ) (paddrStart : PAddr) (pages vaddrHint : ℕ) (flags : Flags) (t₀ : FlatState)
    (hordered : Ordered tmpPaddr tmpPt root t₀.mem t₀.frames) :
    Triple (fun t => t = t₀)
      (vmMapPages (flat tmpPaddr) fuel root paddrStart pages vaddrHint flags)
      fun _ t => R t₀.mem t.mem := by
  have hkeeps : Keeps (WorkingIn tmpPaddr tmpPt root R t₀ 0 root)
      (Vm.vmMapPages (flat tmpPaddr) fuel root paddrStart pages vaddrHint flags) := by
    apply Keeps.bind (keeps_check _ _)
    intro _
    apply Keeps.bind (keeps_check _ _)
    intro _
    apply Keeps.bind (keeps_check _ _)
    intro _
    apply Keeps.bind (flat_findSpace fuel paddrStart pages flags 3 (indices vaddrHint) root)
    rintro ⟨res, index⟩
    apply Keeps.ite (Keeps.pure _)
    apply Keeps.bind (h.recurseMap flags 3 le_rfl t₀ index root paddrStart pages hroot)
    exact fun _ => Keeps.ite (Keeps.pure _) (Keeps.pure _)
  apply hkeeps.mono
  · rintro t rfl
    exact ⟨⟨⟨hordered, Grows.refl _⟩, .root⟩, h.refl _⟩
  · exact fun _ t h => h.2

/-! ## Old and new tables -/

/-- The entries of tables above the leaf tables have stayed, as far as they are present, and each
that is present now was there before, or leads to what was no table. -/
structure Linked (tmpPaddr : PAddr) (tmpPt : ℕ → Pte) (root : PAddr) (mem mem' : Tables) :
    Prop where
  kept : pageTables.Extends (view tmpPaddr tmpPt mem) (view tmpPaddr tmpPt mem') root 3
  back : ∀ n < 3, ∀ p, TableAt tmpPaddr tmpPt root mem' n p → ∀ i < ptLength,
    present (view tmpPaddr tmpPt mem' p i) = true →
    (TableAt tmpPaddr tmpPt root mem n p ∧ present (view tmpPaddr tmpPt mem p i) = true ∧
      ptePaddr (view tmpPaddr tmpPt mem' p i) = ptePaddr (view tmpPaddr tmpPt mem p i)) ∨
    ∀ m ≤ 3, ¬ TableAt tmpPaddr tmpPt root mem m (ptePaddr (view tmpPaddr tmpPt mem' p i))

variable {mem mem' mem₁ mem₂ mem₃ : Tables} {path : List ℕ} {slot : PAddr × ℕ} {n : ℕ}

theorem Linked.refl (mem : Tables) : Linked tmpPaddr tmpPt root mem mem :=
  ⟨fun _ _ _ _ _ _ hj => ⟨hj, rfl⟩, fun _ _ _ hp _ _ hpres => .inl ⟨hp, hpres, rfl⟩⟩

theorem Linked.trans (h : Linked tmpPaddr tmpPt root mem₁ mem₂)
    (h' : Linked tmpPaddr tmpPt root mem₂ mem₃) : Linked tmpPaddr tmpPt root mem₁ mem₃ where
  kept := by
    intro n hn p hp i hi hpres
    obtain ⟨hpres₂, hnext₂⟩ := h.kept n hn p hp i hi hpres
    obtain ⟨hpres₃, hnext₃⟩ := h'.kept n hn p (hp.mono h.kept (by omega)) i hi hpres₂
    exact ⟨hpres₃, hnext₃.trans hnext₂⟩
  back := by
    intro n hn p hp i hi hpres
    rcases h'.back n hn p hp i hi hpres with ⟨hp₂, hpres₂, hnext⟩ | hnew
    · rw [hnext]
      exact h.back n hn p hp₂ i hi hpres₂
    · exact .inr fun m hm hat => hnew m hm (hat.mono h.kept hm)

/-- The three kinds of stores. -/
theorem mapStores_linked : MapStores tmpPaddr tmpPt root (Linked tmpPaddr tmpPt root) where
  refl := Linked.refl
  trans := Linked.trans
  reflag := by
    intro mem frames p i n e hordered hne hp hn hpres hnext
    have hsame : ∀ q j, present (view tmpPaddr tmpPt (mem.set p i e) q j) =
          present (view tmpPaddr tmpPt mem q j) ∧
        ptePaddr (view tmpPaddr tmpPt (mem.set p i e) q j) =
          ptePaddr (view tmpPaddr tmpPt mem q j) := by
      intro q j
      rw [view_set hne, Tables.set_apply]
      by_cases hqj : q = p ∧ j = i
      · rw [if_pos hqj, hqj.1, hqj.2, view_of_ne hne]
        exact ⟨hpres, hnext⟩
      · rw [if_neg hqj]
        exact ⟨rfl, rfl⟩
    refine ⟨fun m _ q _ j _ hj => ⟨(hsame q j).1.trans hj, (hsame q j).2⟩, ?_⟩
    intro m hm q hq j _ hj
    rw [(hsame q j).1] at hj
    refine .inl ⟨?_, hj, (hsame q j).2⟩
    exact (Radix.at_congr (fun _ _ q _ j _ => hsame q j) le_rfl).mp hq
  fill := by
    intro mem frames p i e hordered hne hp habs
    have hother : ∀ m < 3, ∀ q, TableAt tmpPaddr tmpPt root mem m q → ∀ j,
        view tmpPaddr tmpPt (mem.set p i e) q j = view tmpPaddr tmpPt mem q j := by
      intro m hm q hq j
      rw [view_set hne, Tables.set_apply, if_neg]
      -- `p` is a leaf table only
      rintro ⟨rfl, -⟩
      have := hordered.oneLevel q hne m (by omega) 3 le_rfl hq hp
      omega
    have hat : ∀ m ≤ 3, ∀ q, TableAt tmpPaddr tmpPt root (mem.set p i e) m q ↔
        TableAt tmpPaddr tmpPt root mem m q := by
      intro m hm q
      apply Radix.at_congr (d := 3) _ hm
      intro k hk q hq j _
      rw [hother k hk q hq j]
      exact ⟨rfl, rfl⟩
    refine ⟨fun m hm q hq j _ hj => ?_, fun m hm q hq j _ hj => ?_⟩
    · rw [hother m hm q hq j]
      exact ⟨hj, rfl⟩
    · have hq' := (hat m (by omega) q).mp hq
      rw [hother m hm q hq' j] at hj ⊢
      exact .inl ⟨hq', hj, rfl⟩
  link := by
    intro mem f frames p i n e hordered hne hp hn hi habs hf hpres hnext
    have hnew : ∀ m ≤ 3, ¬ TableAt tmpPaddr tmpPt root mem m f :=
      hordered.noTable f List.mem_cons_self
    have hat : ∀ q j, view tmpPaddr tmpPt ((mem.clear f).set p i e) q j =
        if q = p ∧ j = i then e else if q = f then 0#64 else view tmpPaddr tmpPt mem q j := by
      intro q j
      rw [view_set hne, view_clear hf, Tables.set_apply, Tables.clear_apply]
    have hpf : p ≠ f := by
      rintro rfl
      exact hnew n (by omega) hp
    have hback : ∀ m ≤ 3, ∀ q, TableAt tmpPaddr tmpPt root ((mem.clear f).set p i e) m q →
        TableAt tmpPaddr tmpPt root mem m q ∨ q = f := by
      intro m hm q hq
      apply Radix.At.back (fun _ q => q = f) (d := 3) _ hq hm
      intro k hk q hq j hj hjpres
      replace hjpres : present (view tmpPaddr tmpPt ((mem.clear f).set p i e) q j) = true := hjpres
      show TableAt tmpPaddr tmpPt root mem (k + 1) (ptePaddr _) ∨ ptePaddr _ = f
      rw [hat] at hjpres ⊢
      by_cases hqj : q = p ∧ j = i
      · rw [if_pos hqj]
        exact .inr hnext
      · rw [if_neg hqj] at hjpres ⊢
        by_cases hqf : q = f
        · rw [if_pos hqf] at hjpres
          simp at hjpres
        · rw [if_neg hqf] at hjpres ⊢
          exact .inl ((hq.resolve_right hqf).step hj hjpres)
    constructor
    · intro m hm q hq j _ hj
      have hqf : q ≠ f := by
        rintro rfl
        exact hnew m (by omega) hq
      have hqj : ¬ (q = p ∧ j = i) := by
        rintro ⟨rfl, rfl⟩
        rw [view_of_ne hne] at hj
        exact absurd (hj.symm.trans habs) (by decide)
      show present (view tmpPaddr tmpPt ((mem.clear f).set p i e) q j) = true ∧
        ptePaddr (view tmpPaddr tmpPt ((mem.clear f).set p i e) q j) = ptePaddr _
      rw [hat, if_neg hqj, if_neg hqf]
      exact ⟨hj, rfl⟩
    · intro m hm q hq j _ hj
      rw [hat] at hj ⊢
      by_cases hqj : q = p ∧ j = i
      · rw [if_pos hqj, hnext]
        exact .inr hnew
      · rw [if_neg hqj] at hj ⊢
        by_cases hqf : q = f
        · rw [if_pos hqf] at hj
          simp at hj
        · rw [if_neg hqf] at hj ⊢
          exact .inl ⟨(hback m (by omega) q hq).resolve_right hqf, hj, rfl⟩

/-! ### Walks -/

/-- A walk that has left the old tables does not come back to them. -/
theorem Linked.new_of_new (h : Linked tmpPaddr tmpPt root mem mem')
    (hp : TableAt tmpPaddr tmpPt root mem' n p)
    (hnew : ∀ m ≤ 3, ¬ TableAt tmpPaddr tmpPt root mem m p)
    (hlen : n + path.length ≤ 4) (hidx : ∀ i ∈ path, i < ptLength)
    (hslot : pageTables.leafSlot (view tmpPaddr tmpPt mem') p path = some slot) :
    ∀ m ≤ 3, ¬ TableAt tmpPaddr tmpPt root mem m slot.1 := by
  induction path generalizing n p with
  | nil => cases hslot
  | cons i path ih =>
    by_cases hpath : path = []
    · subst hpath
      rw [Radix.leafSlot_singleton, Option.some.injEq] at hslot
      rw [← hslot]
      exact hnew
    · rw [List.length_cons] at hlen
      have hpos := List.length_pos_iff.mpr hpath
      rw [Radix.leafSlot_cons hpath] at hslot
      split at hslot
      next hpres =>
        rcases h.back n (by omega) p hp i (hidx i List.mem_cons_self) hpres with ⟨hold, -⟩ | hnext
        · exact absurd hold (hnew n (by omega))
        · exact ih (hp.step (hidx i List.mem_cons_self) hpres) hnext (by omega)
            (fun j hj => hidx j (List.mem_cons_of_mem i hj)) hslot
      next => cases hslot

/-- A walk that ends in an old table has been the same before. -/
theorem Linked.leafSlot_back (h : Linked tmpPaddr tmpPt root mem mem')
    (hp : TableAt tmpPaddr tmpPt root mem' n p) (hlen : n + path.length ≤ 4)
    (hidx : ∀ i ∈ path, i < ptLength)
    (hslot : pageTables.leafSlot (view tmpPaddr tmpPt mem') p path = some slot) {m : ℕ} (hm : m ≤ 3)
    (hold : TableAt tmpPaddr tmpPt root mem m slot.1) :
    pageTables.leafSlot (view tmpPaddr tmpPt mem) p path = some slot := by
  induction path generalizing n p with
  | nil => cases hslot
  | cons i path ih =>
    by_cases hpath : path = []
    · subst hpath
      exact hslot
    · rw [List.length_cons] at hlen
      have hpos := List.length_pos_iff.mpr hpath
      have hi := hidx i List.mem_cons_self
      have hidx' : ∀ j ∈ path, j < ptLength := fun j hj => hidx j (List.mem_cons_of_mem i hj)
      rw [Radix.leafSlot_cons hpath] at hslot ⊢
      split at hslot
      next hpres =>
        have hnext := hp.step hi hpres
        rcases h.back n (by omega) p hp i hi hpres with ⟨-, hpres', hsame⟩ | hnew
        · replace hsame : pageTables.next (view tmpPaddr tmpPt mem' p i) =
            pageTables.next (view tmpPaddr tmpPt mem p i) := hsame
          rw [if_pos (show pageTables.present (view tmpPaddr tmpPt mem p i) = true from hpres'),
            ← hsame]
          exact ih hnext (by omega) hidx' hslot
        · exact absurd hold (h.new_of_new hnext hnew (by omega) hidx' hslot m hm)
      next => cases hslot

/-- **A page that was not mapped does not get the leaf entry of one that was.** -/
theorem Linked.leafSlot_ne (h : Linked tmpPaddr tmpPt root mem mem') {path' : List ℕ} {e : Pte}
    (hpath : IsPath path) (hpath' : IsPath path')
    (he : pageTables.leaf (view tmpPaddr tmpPt mem) root path = some e)
    (hnone : pageTables.leaf (view tmpPaddr tmpPt mem) root path' = none) :
    pageTables.leafSlot (view tmpPaddr tmpPt mem') root path ≠
      pageTables.leafSlot (view tmpPaddr tmpPt mem') root path' := by
  obtain ⟨slot, hslot, -⟩ := Radix.leaf_eq_some_iff.mp he
  obtain ⟨hat, -⟩ := Radix.At.root.leafSlot hpath.2 hslot
  rw [hpath.1] at hat
  have hslot' : pageTables.leafSlot (view tmpPaddr tmpPt mem') root path = some slot :=
    Radix.leafSlot_mono h.kept .root (by rw [hpath.1]) hpath.2 hslot
  intro heq
  rw [hslot'] at heq
  have hback : pageTables.leafSlot (view tmpPaddr tmpPt mem) root path' = some slot :=
    h.leafSlot_back .root (by rw [hpath'.1]) hpath'.2 heq.symm le_rfl hat
  rw [Radix.leaf, hslot] at he
  rw [Radix.leaf, hback] at hnone
  cases he.symm.trans hnone

/-! ## The search with `STRICT` -/

variable {pages : ℕ} {flags : Flags} {index : List ℕ} {paddrStart : PAddr} {fuel : ℕ}

/-- What the search leaves with `STRICT`: it has found space where it started, at a page that is not
mapped, or returned an error that ends the search of the levels above too. -/
structure StrictPost (tmpPaddr : PAddr) (tmpPt : ℕ → Pte) (pages : ℕ) (index : List ℕ) (p : PAddr)
    (mem : Tables) (r : Status × List ℕ) : Prop where
  refused : isError r.1 = true → r.1 = -eoverlap
  found : isError r.1 = false → (pages : ℤ) ≤ r.1 ∧ r.2 = index ∧
    pageTables.leaf (view tmpPaddr tmpPt mem) p index = none

/-- The error of a refusal. -/
theorem StrictPost.overlap (mem : Tables) (index' : List ℕ) :
    StrictPost tmpPaddr tmpPt pages index p mem (-eoverlap, index') :=
  ⟨fun _ => rfl, fun h => Bool.noConfusion (h.symm.trans (rfl : isError (-eoverlap) = true))⟩

/-- What the first loop of a pass leaves with `STRICT`, when it started at `i`. -/
def StrictScan (tmpPaddr : PAddr) (tmpPt : ℕ → Pte) (pages i : ℕ) (below : List ℕ) (p : PAddr)
    (mem : Tables) (r : Option Status × Search) : Prop :=
  (r.1 = none ∧ r.2.i = i ∧ r.2.index :: r.2.below = i :: below ∧
    pageTables.leaf (view tmpPaddr tmpPt mem) p (i :: below) = none) ∨
  ∃ res, r.1 = some res ∧
    StrictPost tmpPaddr tmpPt pages (i :: below) p mem (res, r.2.index :: r.2.below)

/-- An answer that the first loop gives is the answer of the pass; without one entries are counted,
and there are enough or the answer is an error. -/
theorem nextFreeEntry_strictPost {scan : Search → Prog Fault FlatState
      (FaultState.Flow Search (Option Status × Search))} {height i : ℕ} {below : List ℕ}
    (hstrict : isFlagSet flags vmFlagStrict = true) (hi : i < ptLength)
    (hscan : Triple (fun t => t = t₀) (scan { i, index := i, below, foundPages := 0 })
      (Flow.post (fun _ _ => False) fun r t =>
        t = t₀ ∧ StrictScan tmpPaddr tmpPt pages i below p t₀.mem r)) :
    Triple (fun t => t = t₀)
      (nextFreeEntry (flat tmpPaddr) scan p height paddrStart pages flags fuel i below)
      fun r t => t = t₀ ∧ StrictPost tmpPaddr tmpPt pages (i :: below) p t₀.mem r := by
  cases fuel with
  | zero => exact Triple.fault _
  | succ fuel =>
    have hloop : Triple (fun t => t = t₀) (rounds scan (fun v => return (none, v)) ptLength
        { i, index := i, below, foundPages := 0 }) fun r t =>
          t = t₀ ∧ StrictScan tmpPaddr tmpPt pages i below p t₀.mem r := by
      apply (Triple.rounds (fun n v t => n = ptLength ∧
        v = { i, index := i, below, foundPages := 0 } ∧ t = t₀) _ _ ptLength _).mono
        (fun t ht => ⟨rfl, rfl, ht⟩) fun _ _ h => h
      · intro n v
        constructor
        rintro t ⟨-, rfl, rfl⟩ flow t' hok
        have hpost := hscan.run t rfl flow t' hok
        cases flow with
        | next v => exact hpost.elim
        | done r => exact hpost
      · intro v
        constructor
        rintro t ⟨h, -⟩
        exact absurd h (by decide)
    apply Triple.bind hloop
    rintro ⟨_ | res, v⟩
    · constructor
      rintro t ⟨rfl, ⟨-, hvi, hindex, hnone⟩ | ⟨res, hres, -⟩⟩ r t' hok
      swap
      · cases hres
      replace hvi : v.i = i := hvi
      simp only at hok
      rw [if_neg (by rw [hvi]; exact not_le.mpr hi)] at hok
      obtain ⟨⟨j, found⟩, t₁, hcount, hrest⟩ := bind_eq_ok_iff.mp hok
      have hsame : t₁ = t :=
        (Keeps.rounds (keeps_countFree (flat_lookKeeps fun u => u = t) p height pages flags)
          (fun _ => Keeps.pure _) ptLength (v.i, v.foundPages, paddrStart)).run t rfl _ _ hcount
      subst hsame
      replace hrest : (if found < pages then if isFlagSet flags vmFlagStrict = true then
          return (-eoverlap, v.index :: v.below)
        else nextFreeEntry (flat tmpPaddr) scan p height paddrStart pages flags fuel j v.below
        else return ((found : ℤ), v.index :: v.below) : Prog Fault FlatState _) t₁ =
          .ok (r, t') := hrest
      by_cases hfew : found < pages
      · rw [if_pos hfew, if_pos hstrict] at hrest
        obtain ⟨rfl, rfl⟩ := pure_eq_ok_iff.mp hrest
        exact ⟨rfl, .overlap _ _⟩
      · rw [if_neg hfew] at hrest
        obtain ⟨rfl, rfl⟩ := pure_eq_ok_iff.mp hrest
        refine ⟨rfl, fun h => ?_,
          fun _ => ⟨by exact Int.ofNat_le.mpr (not_lt.mp hfew), hindex, hnone⟩⟩
        rw [isError_natCast] at h
        cases h
    · apply Triple.pure
      rintro t ⟨rfl, ⟨hres, -⟩ | ⟨res', hres, hpost⟩⟩
      · cases hres
      · cases hres
        exact ⟨rfl, hpost⟩

/-- **The search with `STRICT`**, when it returns. -/
theorem findSpace_strictPost (hpages : 0 < pages) (hstrict : isFlagSet flags vmFlagStrict = true)
    (height : ℕ) (hlen : index.length = height + 1) (hidx : ∀ i ∈ index, i < ptLength)
    (hne : p ≠ tmpPaddr) :
    Triple (fun t => t = t₀)
      (findSpace (flat tmpPaddr) fuel paddrStart pages flags height index p)
      fun r t => t = t₀ ∧ StrictPost tmpPaddr tmpPt pages index p t₀.mem r := by
  induction height generalizing index p with
  | zero =>
    obtain ⟨i, rfl⟩ := List.length_eq_one_iff.mp hlen
    have hi := hidx i List.mem_cons_self
    apply nextFreeEntry_strictPost hstrict hi
    rw [scanLeaf, if_pos ⟨hpages, hi⟩]
    apply Triple.bind (Q := fun e t => t = t₀ ∧ e = t₀.mem p i)
      (flat_read p i fun t ht => ⟨ht, by rw [ht]⟩)
    intro e
    apply Triple.pure
    rintro t ⟨rfl, rfl⟩
    rw [hstrict]
    cases hpres : present (t.mem p i) with
    | true => exact ⟨rfl, .inr ⟨_, rfl, .overlap _ _⟩⟩
    | false =>
      refine ⟨rfl, .inl ⟨rfl, rfl, rfl, ?_⟩⟩
      have habs : ¬ pageTables.present (view tmpPaddr tmpPt t.mem p i) = true := by
        rw [view_of_ne hne]
        exact Bool.not_eq_true _ ▸ hpres
      exact if_neg habs
  | succ height ih =>
    obtain ⟨i, index, rfl⟩ := List.exists_cons_of_length_eq_add_one hlen
    have hlen' : index.length = height + 1 := by simpa using hlen
    have hnil : index ≠ [] := by
      rintro rfl
      cases hlen'
    have hi := hidx i List.mem_cons_self
    have hview : view tmpPaddr tmpPt t₀.mem p i = t₀.mem p i := by rw [view_of_ne hne]
    show Triple _ (nextFreeEntry (flat tmpPaddr) (scanInner (flat tmpPaddr) (findSpace
      (flat tmpPaddr) fuel paddrStart pages flags height) p pages) p (height + 1) paddrStart pages
      flags fuel i index) _
    apply nextFreeEntry_strictPost hstrict hi
    rw [scanInner, if_pos ⟨hpages, hi⟩]
    apply Triple.bind (Q := fun e t => t = t₀ ∧ e = t₀.mem p i)
      (flat_read p i fun t ht => ⟨ht, by rw [ht]⟩)
    intro e
    apply Triple.ite
    · intro hpres
      apply Triple.bind (Q := fun parent t => t = t₀ ∧ e = t₀.mem p i ∧ parent = t₀.mem p i)
        (flat_read p i fun t ht => ⟨ht.1, ht.2, by rw [ht.1]⟩)
      intro parent
      apply Triple.bind (Q := fun r t => t = t₀ ∧ e = t₀.mem p i ∧
        StrictPost tmpPaddr tmpPt pages index (ptePaddr (t₀.mem p i)) t₀.mem r)
      · apply flat_withTable
        intro hnext
        constructor
        rintro t ⟨rfl, rfl, rfl⟩ r t' hok
        rw [ptePaddr_ptePaddr] at hnext hok
        obtain ⟨rfl, hpost⟩ :=
          (ih hlen' (fun j hj => hidx j (List.mem_cons_of_mem i hj)) hnext).run t rfl r t' hok
        exact ⟨rfl, rfl, hpost⟩
      · rintro ⟨res, below⟩
        apply Triple.pure
        rintro t ⟨rfl, rfl, hpost⟩
        show Flow.post _ _ (Search.afterChild _ _ _ _) t
        rw [Search.afterChild]
        by_cases herr : isError res = true
        · obtain rfl : res = -eoverlap := hpost.refused herr
          rw [if_pos herr, if_neg (by decide)]
          exact ⟨rfl, .inr ⟨_, rfl, .overlap _ _⟩⟩
        · obtain ⟨hle, hbelow, hnone⟩ := hpost.found (Bool.not_eq_true _ ▸ herr)
          replace hle : (pages : ℤ) ≤ res := hle
          replace hbelow : below = index := hbelow
          have hssize : toSsize pages ≤ res := by
            rw [toSsize]
            split <;> omega
          rw [if_neg herr, if_pos hssize]
          refine ⟨rfl, .inr ⟨_, rfl, fun h => ?_, fun _ => ⟨?_, ?_, ?_⟩⟩⟩
          · rw [isError_natCast] at h
            cases h
          · show (pages : ℤ) ≤ ((0 + res.toNat : ℕ) : ℤ)
            omega
          · exact congrArg (i :: ·) hbelow
          · show pageTables.leaf _ p (i :: index) = none
            rw [Radix.leaf_cons hnil, hview]
            split
            · exact hnone
            · rfl
    · intro habs
      apply Triple.pure
      rintro t ⟨rfl, rfl⟩
      refine ⟨rfl, .inl ⟨rfl, rfl, rfl, ?_⟩⟩
      rw [Radix.leaf_cons hnil, hview]
      exact if_neg habs

/-- **Mapping with `STRICT`.**  When the call returns without an error, it has mapped at the hint,
and the page there was not mapped. -/
theorem vmMapPages_strict {vaddrHint : ℕ} (hstrict : isFlagSet flags vmFlagStrict = true)
    (hroot : root ≠ tmpPaddr) (hpage : IsPage vaddrHint) (t₀ : FlatState) :
    Triple (fun t => t = t₀)
      (vmMapPages (flat tmpPaddr) fuel root paddrStart pages vaddrHint flags)
      fun r _ => isError r.1 = false → r.2 = vaddrHint ∧
        pageTables.leaf (view tmpPaddr tmpPt t₀.mem) root (indices vaddrHint) = none := by
  apply Triple.bind (keeps_check _ _)
  intro _
  apply Triple.bind (keeps_check _ _)
  intro _
  by_cases hpages : 0 < pages
  swap
  · apply Triple.bind (Q := fun _ _ => False) (Triple.ite (fun h => ?_) fun _ => Triple.fault _)
    · exact fun _ => ⟨fun _ h => h.elim⟩
    · exact absurd (of_decide_eq_true h) hpages
  apply Triple.bind (keeps_check _ _)
  intro _
  apply Triple.bind (findSpace_strictPost hpages hstrict 3 rfl (fun _ hi => indices_lt hi) hroot)
  rintro ⟨res, index⟩
  apply Triple.ite
  · intro herr
    apply Triple.pure
    intro t _ h
    rw [herr] at h
    cases h
  · intro hfound
    apply Triple.of_start
    rintro t ⟨rfl, hpost⟩
    obtain ⟨-, hindex, hnone⟩ := hpost.found (Bool.not_eq_true _ ▸ hfound)
    replace hindex : index = indices vaddrHint := hindex
    subst hindex
    apply Triple.bind (Q := fun _ _ => True) ⟨fun _ _ _ _ _ => trivial⟩
    rintro ⟨res', w⟩
    apply Triple.ite
    · intro herr
      apply Triple.pure
      intro _ _ h
      rw [herr] at h
      cases h
    · exact fun _ => Triple.pure fun _ _ _ => ⟨hintOf_indices hpage, hnone⟩

end Links

end Mimik.Vm
