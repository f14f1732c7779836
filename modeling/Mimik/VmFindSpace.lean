/-
# Where `find_space` finds space at once

`find_space` walks from the hint down to the first entry that is not present, and counts
the entries from there.  When they are enough it returns the indices as they were.
Otherwise it moves on, and its two indices part: `*index` is advanced by one and `i` by
two, and the indices of the levels below keep what the failed search left in them.

`Free` describes the ranges that are found at once and that `recurse_map` fills in the
order of their addresses.  The latter is `InOrder`: `recurse_map` starts in every table at
the indices of the first page, so the paths that it visits (`Radix.box`) are those of
consecutive pages only if the range ends in the table of its first page, or begins with
the first page of that table, on some level (`take_box_of_inOrder`).
-/
import Mimik.VmUnmap
import Mimik.VmVisit

namespace Mimik.Vm

open FaultState

/-! ## Ranges in order -/

/-- The paths of `pages` pages from the indices on come first in the box of the indices. -/
def InOrder (pages : ℕ) : List ℕ → Prop
  | [] => False
  | [i] => i + pages ≤ 512
  | i :: j :: path =>
    InOrder pages (j :: path) ∨
      lin (j :: path) = 0 ∧ i * 512 ^ (path.length + 1) + pages ≤ 512 ^ (path.length + 2)

/-- The range of `pages` pages from the indices on is not mapped: the walk of its first page
ends in a leaf table that has the whole range, or at an entry that is not present, and so
are the entries after it as far as the range goes. -/
def Free (mem : Tables) (pages : ℕ) : List ℕ → PAddr → Prop
  | [], _ => False
  | [i], p => i + pages ≤ 512 ∧ AbsentRun mem p i pages
  | i :: j :: path, p =>
    if present (mem p i) then Free mem pages (j :: path) (ptePaddr (mem p i))
    else
      InOrder pages (i :: j :: path) ∧
        ∃ n, i + n ≤ 512 ∧ pages ≤ n * 512 ^ (path.length + 1) ∧ AbsentRun mem p i n

variable {mem : Tables} {pages : ℕ} {index : List ℕ} {p : PAddr}

/-- A range that is free is in order. -/
theorem Free.inOrder (h : Free mem pages index p) : InOrder pages index := by
  induction index generalizing p with
  | nil => exact h
  | cons i index ih =>
    cases index with
    | nil => exact h.1
    | cons j path =>
      rw [Free] at h
      split at h
      · exact .inl (ih h)
      · exact h.1

/-! ### The paths of a range in order -/

/-- The indices of the pages with the numbers from `n` on. -/
def pathsFrom (height n pages : ℕ) : List (List ℕ) :=
  (List.range' n pages).map (digits height)

theorem pathsFrom_add (height n a b : ℕ) :
    pathsFrom height n (a + b) = pathsFrom height n a ++ pathsFrom height (n + a) b := by
  rw [pathsFrom, pathsFrom, pathsFrom, ← List.map_append, List.range'_append_1]

theorem length_pathsFrom (height n pages : ℕ) : (pathsFrom height n pages).length = pages := by
  rw [pathsFrom, List.length_map, List.length_range']

theorem take_pathsFrom {height n a pages : ℕ} (h : pages ≤ a) :
    (pathsFrom height n a).take pages = pathsFrom height n pages := by
  obtain ⟨b, rfl⟩ := Nat.exists_eq_add_of_le h
  rw [pathsFrom_add, List.take_append_of_le_length (by rw [length_pathsFrom]),
    List.take_of_length_le
    (by rw [length_pathsFrom])]

/-- The pages below one entry. -/
theorem map_cons_pathsFrom {height n i pages : ℕ} (h : n + pages ≤ 512 ^ (height + 1)) :
    (pathsFrom height n pages).map (i :: ·) =
      pathsFrom (height + 1) (i * 512 ^ (height + 1) + n) pages := by
  induction pages generalizing n with
  | zero => rfl
  | succ pages ih =>
    rw [pathsFrom, pathsFrom, List.range'_succ, List.range'_succ, List.map_cons, List.map_cons,
      List.map_cons, digits_add height (by omega), Nat.add_assoc]
    congr 1
    exact ih (by omega)

/-- All pages from an entry on. -/
theorem boxFrom_pathsFrom (height : ℕ) {i m : ℕ} (hm : i + m = 512) :
    Radix.boxFrom 512 (pathsFrom height 0 (512 ^ (height + 1))) i =
      pathsFrom (height + 1) (i * 512 ^ (height + 1)) (m * 512 ^ (height + 1)) := by
  induction m generalizing i with
  | zero =>
    rw [Radix.boxFrom_of_le (by omega), Nat.zero_mul]
    rfl
  | succ m ih =>
    rw [Radix.boxFrom_of_lt (by omega), ih (by omega), map_cons_pathsFrom (by omega), Nat.add_mul m,
      Nat.one_mul, Nat.add_comm (m * _), pathsFrom_add, Nat.add_mul i, Nat.one_mul]
    rfl

/-- The box of a first page has all pages. -/
theorem box_of_lin_eq_zero {height : ℕ} (hlen : index.length = height + 1) (h : lin index = 0) :
    Radix.box 512 index = pathsFrom height 0 (512 ^ (height + 1)) := by
  induction height generalizing index with
  | zero =>
    obtain ⟨i, rfl⟩ := List.length_eq_one_iff.mp hlen
    have hi : i = 0 := by simpa [lin] using h
    rw [hi, Radix.box_singleton]
    rfl
  | succ height ih =>
    obtain ⟨i, index, rfl⟩ := List.exists_cons_of_length_eq_add_one hlen
    have hlen' : index.length = height + 1 := by simpa using hlen
    rw [lin, hlen', Nat.add_eq_zero_iff, Nat.mul_eq_zero] at h
    have hi : i = 0 := h.1.resolve_right (by positivity)
    rw [hi, Radix.box, ih hlen' h.2, boxFrom_pathsFrom height (m := 512) rfl, Nat.zero_mul,
      Nat.pow_succ _ (height + 1), Nat.mul_comm 512]

/-- **The paths of a range in order** are those of consecutive pages. -/
theorem take_box_of_inOrder {height : ℕ} (hlen : index.length = height + 1)
    (hidx : ∀ i ∈ index, i < 512) (h : InOrder pages index) :
    lin index + pages ≤ 512 ^ (height + 1) ∧
      (Radix.box 512 index).take pages = pathsFrom height (lin index) pages := by
  induction height generalizing index with
  | zero =>
    obtain ⟨i, rfl⟩ := List.length_eq_one_iff.mp hlen
    have hle : i + pages ≤ 512 := h
    have hlin : lin [i] = i := by simp [lin]
    rw [hlin]
    refine ⟨by omega, ?_⟩
    have hbox : Radix.box 512 [i] = pathsFrom 0 i (512 - i) := Radix.box_singleton
    rw [hbox, take_pathsFrom (by omega)]
  | succ height ih =>
    obtain ⟨i, index, rfl⟩ := List.exists_cons_of_length_eq_add_one hlen
    have hlen' : index.length = height + 1 := by simpa using hlen
    obtain ⟨j, path, rfl⟩ := List.exists_cons_of_length_eq_add_one hlen'
    have hpath : path.length = height := by simpa using hlen'
    have hi := hidx i List.mem_cons_self
    have hidx' : ∀ k ∈ j :: path, k < 512 := fun k hk => hidx k (List.mem_cons_of_mem i hk)
    have hlin : lin (i :: j :: path) = i * 512 ^ (height + 1) + lin (j :: path) := by
      rw [lin, hlen']
    rw [hlin]
    rcases h with h | ⟨hzero, hle⟩
    · obtain ⟨hle, htake⟩ := ih hlen' hidx' h
      have hpages : pages ≤ (Radix.box 512 (j :: path)).length := by
        have hlength := congrArg List.length htake
        rw [length_pathsFrom, List.length_take] at hlength
        omega
      constructor
      · have hstep : (i + 1) * 512 ^ (height + 1) ≤ 512 * 512 ^ (height + 1) :=
          Nat.mul_le_mul_right _ hi
        rw [Nat.pow_succ _ (height + 1), Nat.mul_comm _ 512]
        rw [Nat.add_mul, Nat.one_mul] at hstep
        omega
      · rw [Radix.take_box_cons hi hpages, htake, map_cons_pathsFrom hle]
    · obtain ⟨m, hm⟩ : ∃ m, i + m = 512 := ⟨512 - i, by omega⟩
      rw [hpath] at hle
      rw [hzero, Nat.add_zero]
      refine ⟨hle, ?_⟩
      rw [Radix.box, box_of_lin_eq_zero hlen' hzero, boxFrom_pathsFrom height hm, take_pathsFrom]
      have htotal : i * 512 ^ (height + 1) + m * 512 ^ (height + 1) = 512 ^ (height + 2) := by
        rw [← Nat.add_mul, hm, Nat.pow_succ _ (height + 1), Nat.mul_comm 512]
      omega

/-- The pages of a range in order come first in the box. -/
theorem take_box_indices {vaddr : ℕ} (hpage : IsPage vaddr) (hhalf : InHalf vaddr pages)
    (h : InOrder pages (indices vaddr)) : (Radix.box 512 (indices vaddr)).take pages =
      (List.range pages).map fun k => indices (vaddr + k * pageSize) := by
  have htake : (Radix.box 512 (indices vaddr)).take pages =
    pathsFrom 3 (lin (indices vaddr)) pages :=
    (take_box_of_inOrder rfl (fun _ hi => indices_lt hi) h).2
  rw [htake, pathsFrom, List.range'_eq_map_range, List.map_map]
  apply List.map_congr_left
  intro k hk
  rw [indices_eq_digits (vaddr + _), (hhalf.page hpage.2.2 (List.mem_range.mp hk)).2, ← lin_indices]
  rfl

/-! ## The search -/

variable {tmpPaddr root paddrStart : PAddr} {flags : Flags} {t : FlatState} {level : ℕ}

/-- The entries that are not present are counted until they are enough. -/
theorem countFree_absentRun (height : ℕ) (m n i found : ℕ) (paddr : PAddr)
    (habs : AbsentRun t.mem p i m) (hi : i + m ≤ 512) (hn : m ≤ n)
    (henough : pages ≤ found + m * pagesPerEntry height) :
    ∃ i' found', pages ≤ found' ∧
      rounds (countFree (flat tmpPaddr) p height pages flags) (fun v => return (v.1, v.2.1)) n
        (i, found, paddr) t = .ok ((i', found'), t) := by
  induction m generalizing n i found paddr with
  | zero =>
    rw [Nat.zero_mul, Nat.add_zero] at henough
    refine ⟨i, found, henough, ?_⟩
    cases n with
    | zero => rfl
    | succ n =>
      apply rounds_of_done
      rw [countFree, if_neg (by omega)]
      rfl
  | succ m ih =>
    obtain ⟨n, rfl⟩ : ∃ k, n = k + 1 := ⟨n - 1, by omega⟩
    by_cases hfound : found < pages
    · have hround : countFree (flat tmpPaddr) p height pages flags (i, found, paddr) t =
          .ok (.next (i + 1, found + pagesPerEntry height, paddr + 4096#64), t) := by
        have hread : (flat tmpPaddr).read p i t = .ok (t.mem p i, t) := rfl
        rw [countFree, if_pos ⟨hfound, by rw [ptLength]; omega⟩, bind_eq_of_ok hread,
          habs i le_rfl (by omega)]
        rfl
      rw [rounds_of_next hround]
      apply ih _ _ _ _ (fun j hj hj' => habs j (by omega) (by omega)) (by omega) (by omega)
      rw [Nat.add_mul, Nat.one_mul] at henough
      omega
    · refine ⟨i, found, by omega, ?_⟩
      apply rounds_of_done
      rw [countFree, if_neg (by omega)]
      rfl

/-- The search on one table, when its first entry is not present. -/
theorem nextFreeEntry_absent
    {scan : Search → Prog Fault FlatState (FaultState.Flow Search (Option Status × Search))}
    (height fuel i n : ℕ) (below : List ℕ)
    (hscan : scan { i, index := i, below, foundPages := 0 } t =
      .ok (.done (none, { i, index := i, below, foundPages := 0 }), t))
    (habs : AbsentRun t.mem p i n) (hi : i + n ≤ 512) (hlt : i < 512)
    (henough : pages ≤ n * pagesPerEntry height) :
    ∃ found : ℕ, pages ≤ found ∧
      nextFreeEntry (flat tmpPaddr) scan p height paddrStart pages flags (fuel + 1) i below t =
        .ok (((found : ℤ), i :: below), t) := by
  have hfirst : rounds scan (fun v => return (none, v)) ptLength
      { i, index := i, below, foundPages := 0 } t =
      .ok ((none, { i, index := i, below, foundPages := 0 }), t) := rounds_of_done hscan 511
  obtain ⟨i', found, hfound, hcount⟩ : ∃ i' found', pages ≤ found' ∧
      rounds (countFree (flat tmpPaddr) p height pages flags) (fun v =>
        return (v.1, v.2.1)) ptLength
        (i, 0, paddrStart) t = .ok ((i', found'), t) :=
    countFree_absentRun height n ptLength i 0 paddrStart habs hi (by rw [ptLength]; omega)
      (by omega)
  refine ⟨found, hfound, ?_⟩
  rw [nextFreeEntry, bind_eq_of_ok hfirst]
  show (if ptLength ≤ i then _ else _ : Prog Fault FlatState _) t = _
  rw [if_neg (by rw [ptLength]; omega), bind_eq_of_ok hcount]
  show (if found < pages then _ else _ : Prog Fault FlatState _) t = _
  rw [if_neg (by omega)]
  rfl

theorem toSsize_le {found : ℕ} (h : pages ≤ found) : toSsize pages ≤ (found : ℤ) := by
  rw [toSsize]
  split <;> omega

theorem isError_natCast (found : ℕ) : isError (found : ℤ) = false :=
  decide_eq_false (not_lt.mpr (Int.natCast_nonneg found))

/-- The level below has found entries enough. -/
theorem Search.afterChild_found (v : Search) {found : ℕ} {below : List ℕ} (h : pages ≤ found)
    (hv : v.foundPages = 0) : v.afterChild pages (found : ℤ) below =
      .done (some (found : ℤ), { v with below, foundPages := found }) := by
  rw [Search.afterChild, isError_natCast, if_neg Bool.false_ne_true, if_pos (toSsize_le h), hv,
    Nat.zero_add, Int.toNat_natCast]

/-- **A free range is found at once**, and the indices stay. -/
theorem findSpace_free (h : Sound tmpPaddr root t) (hpages : 0 < pages) (fuel height : ℕ)
    (hlen : index.length = height + 1) (hidx : ∀ i ∈ index, i < ptLength)
    (hp : TableOf root t.mem level p) (hlevel : level + height = 3)
    (hfree : Free t.mem pages index p) :
    ∃ found : ℕ, pages ≤ found ∧
      findSpace (flat tmpPaddr) (fuel + 1) paddrStart pages flags height index p t =
        .ok (((found : ℤ), index), t) := by
  induction height generalizing index p level with
  | zero =>
    obtain ⟨i, rfl⟩ := List.length_eq_one_iff.mp hlen
    have hi : i < 512 := hidx i List.mem_cons_self
    apply nextFreeEntry_absent 0 fuel i pages [] _ hfree.2 hfree.1 hi
    · rw [pagesPerEntry, pow_zero, Nat.mul_one]
    · have hread : (flat tmpPaddr).read p i t = .ok (t.mem p i, t) := rfl
      rw [scanLeaf, if_pos ⟨hpages, hi⟩, bind_eq_of_ok hread, hfree.2 i le_rfl (by omega)]
      rfl
  | succ height ih =>
    obtain ⟨i, index, rfl⟩ := List.exists_cons_of_length_eq_add_one hlen
    have hlen' : index.length = height + 1 := by simpa using hlen
    obtain ⟨j, path, rfl⟩ := List.exists_cons_of_length_eq_add_one hlen'
    have hpath : path.length = height := by simpa using hlen'
    have hi : i < 512 := hidx i List.mem_cons_self
    have hread : (flat tmpPaddr).read p i t = .ok (t.mem p i, t) := rfl
    rw [Free] at hfree
    by_cases hpres : present (t.mem p i) = true
    · rw [if_pos hpres] at hfree
      have hnext := hp.step hi hpres
      obtain ⟨found, hfound, hchild⟩ := ih hlen'
        (fun k hk => hidx k (List.mem_cons_of_mem i hk)) hnext (by omega) hfree
      have hne : ptePaddr (ptePaddr (t.mem p i)) ≠ tmpPaddr := by
        rw [ptePaddr_ptePaddr]
        intro heq
        exact h.avoids (level + 1) (by omega) (heq ▸ hnext)
      have hopen : withTable (flat tmpPaddr) (ptePaddr (t.mem p i))
          (findSpace (flat tmpPaddr) (fuel + 1) paddrStart pages flags height (j :: path)) t =
          .ok (((found : ℤ), j :: path), t) := by
        have hmap : (flat tmpPaddr).mapPageTmp (ptePaddr (t.mem p i)) vmFlagWritable t =
            .ok (ptePaddr (t.mem p i), t) := by
          show (if _ then _ else _ : Prog Fault FlatState PAddr) t = _
          rw [if_neg hne, ptePaddr_ptePaddr]
          rfl
        rw [withTable, bind_eq_of_ok hmap]
        refine (bind_eq_of_ok hchild _).trans ?_
        rfl
      have hround : scanInner (flat tmpPaddr)
          (findSpace (flat tmpPaddr) (fuel + 1) paddrStart pages flags height) p pages
          { i, index := i, below := j :: path, foundPages := 0 } t =
          .ok (.done (some (found : ℤ), { i, index := i, below := j :: path, foundPages := found }),
            t) := by
        rw [scanInner, if_pos ⟨hpages, hi⟩, bind_eq_of_ok hread, if_pos hpres, bind_eq_of_ok hread,
          bind_eq_of_ok hopen]
        show Except.ok (Search.afterChild _ pages (found : ℤ) (j :: path), t) = _
        rw [Search.afterChild_found _ hfound rfl]
      refine ⟨found, hfound, ?_⟩
      have hfirst : rounds _ (fun v => return (none, v)) 512 _ t = _ := rounds_of_done hround 511
      rw [findSpace, nextFreeEntry]
      refine (bind_eq_of_ok hfirst _).trans ?_
      rfl
    · rw [if_neg hpres] at hfree
      obtain ⟨-, n, hin, henough, habs⟩ := hfree
      rw [hpath] at henough
      apply nextFreeEntry_absent (height + 1) fuel i n (j :: path) _ habs hin hi henough
      have habs' : present (t.mem p i) = false := Bool.not_eq_true _ ▸ hpres
      rw [scanInner, if_pos ⟨hpages, hi⟩, bind_eq_of_ok hread, habs']
      rfl

end Mimik.Vm
