/-
# Address spaces given by their entries

A list of the present entries describes all tables of a small address space.  What the
invariants ask of such tables then comes down to checks of the list, by evaluation: which
tables there are on each level (`reach`), and which pages are mapped (`walks`).
-/
import Mimik.VmGrow

namespace Mimik.Vm

/-- An entry in its place: the table, the index and the contents. -/
abbrev Placed := PAddr × ℕ × Pte

/-- The tables with the given entries and no others. -/
def sparseTables (entries : List Placed) : Tables := fun p i =>
  ((entries.find? fun x => x.1 == p && x.2.1 == i).map fun x => x.2.2).getD 0#64

/-- A state with these tables, an empty window in `tmp_pt` at `0x8000`, and the frames that
`pm_request_page` is going to return. -/
def sparseState (entries : List Placed) (frames : List PAddr) : VmState :=
  { rowState (fun _ => 0#64) vmFlagWritable frames with mem := sparseTables entries }

variable {entries : List Placed} {frames : List PAddr} {root p : PAddr} {i n : ℕ} {e : Pte}
  {path : List ℕ} {slot : PAddr × ℕ}

/-- An entry is one of the list, or zero. -/
theorem mem_or_eq_zero (p : PAddr) (i : ℕ) :
    (p, i, sparseTables entries p i) ∈ entries ∨ sparseTables entries p i = 0#64 := by
  rw [sparseTables]
  cases hfind : entries.find? fun x => x.1 == p && x.2.1 == i with
  | none => exact .inr rfl
  | some x =>
    have htest := List.find?_some hfind
    simp only [Bool.and_eq_true, beq_iff_eq] at htest
    have heq : (p, i, x.2.2) = x := by rw [← htest.1, ← htest.2]
    left
    show (p, i, x.2.2) ∈ entries
    rw [heq]
    exact List.mem_of_find?_eq_some hfind

/-- A present entry is one of the list. -/
theorem mem_of_present (h : present (sparseTables entries p i) = true) :
    (p, i, sparseTables entries p i) ∈ entries := by
  apply (mem_or_eq_zero p i).resolve_right
  intro hzero
  rw [hzero] at h
  exact absurd (present_zero.symm.trans h) Bool.false_ne_true

/-! ## The tables -/

/-- The tables that the entries lead to in a number of steps. -/
def reach (entries : List Placed) (root : PAddr) : ℕ → List PAddr
  | 0 => [root]
  | n + 1 => (entries.filter fun x => x.1 ∈ reach entries root n).map fun x => ptePaddr x.2.2

/-- The tables of each level are found in the list, when `tmp_pt` is none of them. -/
theorem mem_reach (hout : ∀ n ≤ 3, 0x8000#64 ∉ reach entries root n) {tmpPt : ℕ → Pte}
    (h : pageTables.At (view 0x8000#64 tmpPt (sparseTables entries)) root n p) (hn : n ≤ 3) :
    p ∈ reach entries root n := by
  induction h with
  | root => exact List.mem_singleton_self root
  | @step n p i hp _ hpres ih =>
    have hmem : p ∈ reach entries root n := ih (by omega)
    have hne : p ≠ 0x8000#64 := by
      rintro rfl
      exact hout n (by omega) hmem
    replace hpres : present (view 0x8000#64 tmpPt (sparseTables entries) p i) = true := hpres
    show ptePaddr (view 0x8000#64 tmpPt (sparseTables entries) p i) ∈ reach entries root (n + 1)
    rw [view_of_ne hne] at hpres ⊢
    refine List.mem_map.mpr ⟨_, List.mem_filter.mpr ⟨mem_of_present hpres, ?_⟩, rfl⟩
    exact decide_eq_true hmem

/-- The same for tables that are read without a window. -/
theorem mem_reach_self (h : pageTables.At (sparseTables entries) root n p) :
    p ∈ reach entries root n := by
  induction h with
  | root => exact List.mem_singleton_self root
  | @step n p i _ _ hpres ih =>
    show ptePaddr (sparseTables entries p i) ∈ reach entries root (n + 1)
    exact List.mem_map.mpr
      ⟨_, List.mem_filter.mpr ⟨mem_of_present hpres, decide_eq_true ih⟩, rfl⟩

/-- They do not lead into the window. -/
theorem clear_sparse (hout : ∀ n ≤ 3, 0x8000#64 ∉ reach entries root n) {tmpPt : ℕ → Pte} :
    ¬ LeadsToWindow 0x8000#64 tmpPt (sparseTables entries) root := by
  rintro ⟨n, hn, hat⟩
  exact hout n hn (mem_reach hout hat hn)

/-- All tables, with their levels. -/
def levelled (entries : List Placed) (root : PAddr) : List (ℕ × PAddr) :=
  (List.range 4).flatMap fun n => (reach entries root n).map fun p => (n, p)

theorem mem_levelled (hn : n ≤ 3) (h : p ∈ reach entries root n) :
    (n, p) ∈ levelled entries root :=
  List.mem_flatMap.mpr ⟨n, List.mem_range.mpr (by omega), List.mem_map_of_mem h⟩

/-- They are in order, when no two levels share a table and the frames are none of them. -/
theorem ordered_sparse (hout : ∀ n ≤ 3, 0x8000#64 ∉ reach entries root n)
    (hlevels : ∀ x ∈ levelled entries root, ∀ y ∈ levelled entries root, x.2 = y.2 → x.1 = y.1)
    (haligned : ∀ f ∈ frames, ptePaddr f = f)
    (hframes : ∀ x ∈ levelled entries root, x.2 ∉ frames) (hnodup : frames.Nodup)
    {tmpPt : ℕ → Pte} : Ordered 0x8000#64 tmpPt root (sparseTables entries) frames where
  oneLevel p _ n hn m hm hat hat' :=
    hlevels (n, p) (mem_levelled hn (mem_reach hout hat hn)) (m, p)
      (mem_levelled hm (mem_reach hout hat' hm)) rfl
  aligned := haligned
  noTable f hf n hn hat := hframes (n, f) (mem_levelled hn (mem_reach hout hat hn)) hf
  nodup := hnodup

/-- An empty window is one more entry, that of `tmp_pt` to itself. -/
theorem view_sparse (hout : ∀ x ∈ entries, x.1 ≠ 0x8000#64) :
    view 0x8000#64 (sparseState entries frames).tmpPt (sparseTables entries) =
      sparseTables ((0x8000#64, 511, setPte 0x8000#64 vmFlagWritable) :: entries) := by
  funext p i
  by_cases hp : p = 0x8000#64
  · subst hp
    have hnone : entries.find? (fun x => x.1 == 0x8000#64 && x.2.1 == i) = none := by
      apply List.find?_eq_none.mpr
      intro x hx htest
      rw [Bool.and_eq_true, beq_iff_eq] at htest
      exact hout x hx htest.1
    rw [view_self, sparseTables, List.find?_cons, hnone]
    show (if i = 511 then _ else _) = _
    by_cases hi : i = 511
    · rw [if_pos hi, hi]
      rfl
    · have hne : (511 == i) = false := beq_false_of_ne (Ne.symm hi)
      rw [if_neg hi]
      simp only [hne, Bool.and_false]
      rfl
  · have hne : ((0x8000#64 : PAddr) == p) = false := beq_false_of_ne (Ne.symm hp)
    rw [view_of_ne hp, sparseTables, sparseTables, List.find?_cons]
    simp only [hne, Bool.false_and]

/-- Tables that lead to an empty window are in order, when no two levels share a table other than
`tmp_pt` and the frames are none of them. -/
theorem ordered_window (hout : ∀ x ∈ entries, x.1 ≠ 0x8000#64)
    (hlevels : ∀ x ∈ levelled ((0x8000#64, 511, setPte 0x8000#64 vmFlagWritable) :: entries) root,
      ∀ y ∈ levelled ((0x8000#64, 511, setPte 0x8000#64 vmFlagWritable) :: entries) root,
      x.2 = y.2 → x.2 ≠ 0x8000#64 → x.1 = y.1)
    (haligned : ∀ f ∈ frames, ptePaddr f = f)
    (hframes : ∀ x ∈ levelled ((0x8000#64, 511, setPte 0x8000#64 vmFlagWritable) :: entries) root,
      x.2 ∉ frames) (hnodup : frames.Nodup) :
    Ordered 0x8000#64 (sparseState entries frames).tmpPt root (sparseTables entries) frames := by
  have hreach : ∀ {n p}, n ≤ 3 →
      TableAt 0x8000#64 (sparseState entries frames).tmpPt root (sparseTables entries) n p →
      (n, p) ∈ levelled ((0x8000#64, 511, setPte 0x8000#64 vmFlagWritable) :: entries) root := by
    intro n p hn hat
    rw [TableAt, view_sparse hout] at hat
    exact mem_levelled hn (mem_reach_self hat)
  exact ⟨fun p hp n hn m hm hat hat' => hlevels _ (hreach hn hat) _ (hreach hm hat') rfl hp,
    haligned, fun f hf n hn hat => hframes _ (hreach hn hat) hf, hnodup⟩

/-- The window of these states, and its room. -/
theorem window_sparse :
    WindowOk (sparseState entries frames).tmpPt (sparseState entries frames).firstFreeTmpIndex :=
  @window_rowState (fun _ => 0#64) vmFlagWritable frames

theorem room_sparse : Room 3 (sparseState entries frames).tmpPt :=
  @room_rowState (fun _ => 0#64) vmFlagWritable frames

/-- No table is in it. -/
theorem closed_sparse : ∀ i < 511, present ((sparseState entries frames).tmpPt i) = false := by
  intro i hi
  show present (if i = 511 then _ else _) = false
  rw [if_neg hi.ne]
  exact present_zero

/-! ## The pages -/

/-- The paths that are mapped, with the places of their leaf entries; `height` counts from the
leaf tables. -/
def walks (entries : List Placed) : ℕ → PAddr → List (List ℕ × PAddr × ℕ)
  | 0, p => (entries.filter fun x => x.1 = p).map fun x => ([x.2.1], p, x.2.1)
  | height + 1, p => (entries.filter fun x => x.1 = p).flatMap fun x =>
      (walks entries height (ptePaddr x.2.2)).map fun y => (x.2.1 :: y.1, y.2)

/-- A walk that ends in a present entry is found in the list. -/
theorem mem_walks {height : ℕ} (hlen : path.length = height + 1)
    (hslot : pageTables.leafSlot (sparseTables entries) p path = some slot)
    (hpres : present (sparseTables entries slot.1 slot.2) = true) :
    (path, slot) ∈ walks entries height p := by
  induction height generalizing p path with
  | zero =>
    obtain ⟨i, rfl⟩ := List.length_eq_one_iff.mp hlen
    cases hslot
    refine List.mem_map.mpr ⟨_, List.mem_filter.mpr ⟨mem_of_present hpres, ?_⟩, rfl⟩
    exact decide_eq_true rfl
  | succ height ih =>
    obtain ⟨i, path, rfl⟩ := List.exists_cons_of_length_eq_add_one hlen
    have hlen' : path.length = height + 1 := by simpa using hlen
    rw [Radix.leafSlot_cons (by rintro rfl; cases hlen')] at hslot
    split at hslot
    next hentry =>
      refine List.mem_flatMap.mpr ⟨_, List.mem_filter.mpr ⟨mem_of_present hentry, ?_⟩, ?_⟩
      · exact decide_eq_true rfl
      · exact List.mem_map_of_mem (ih hlen' hslot)
    next => cases hslot

/-- A page that is mapped is found in the list, and its leaf entry has the place given there. -/
theorem mem_walks_of_leafSlot (hout : ∀ n ≤ 3, 0x8000#64 ∉ reach entries root n) {u : ℕ}
    (hslot : (sparseState entries frames).leafSlot 0x8000#64 root u = some slot)
    (hpres : present (sparseTables entries slot.1 slot.2) = true) :
    (indices u, slot) ∈ walks entries 3 root := by
  apply mem_walks rfl _ hpres
  rw [← hslot]
  exact (walk_view (clear_sparse hout) u).2.1.symm

end Mimik.Vm
