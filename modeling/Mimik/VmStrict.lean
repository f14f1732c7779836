/-
# What `STRICT` refuses

With `VM_FLAG_STRICT` the search does not move on: it walks from the hint down to the
first entry that is not present, counts the entries of this table from there, and either
they are enough or `find_space` returns `-EOVERLAP` (`findSpace_strict`).  An entry above the
leaf tables counts for all pages below it, also when the hint lies in the middle of them; and
the count ends with the table.

So the answer is right if and only if that count tells whether the range is mapped, and the range
needs no new table, since `create_pt` does not return (`strict_right_iff`).  It is not for a range
that goes on in the next leaf table, which is refused although nothing in it is mapped.
-/
import Mimik.VmFlagExact
import Mimik.VmOverrun
import Mimik.VmRefused
import Mimik.VmSearch

namespace Mimik.Vm

open FaultState

/-! ## The count -/

/-- The walk of the indices ends at an entry that is not present, from which on there are entries
enough. -/
def CountsFree (mem : Tables) (paddrStart : PAddr) (pages : ℕ) (flags : Flags) :
    List ℕ → PAddr → Prop
  | [], _ => False
  | [i], p => present (mem p i) = false ∧ Enough mem paddrStart pages flags 0 p i
  | i :: j :: path, p =>
    if present (mem p i) then CountsFree mem paddrStart pages flags (j :: path) (ptePaddr (mem p i))
    else Enough mem paddrStart pages flags (path.length + 1) p i

variable {tmpPaddr root paddrStart p : PAddr} {pages fuel height i level vaddrHint : ℕ}
  {flags : Flags} {t : FlatState} {index : List ℕ}

/-- A pass that stops at its first entry, with `STRICT`. -/
theorem nextFreeEntry_strict (tmpPaddr paddrStart p : PAddr) (pages fuel height : ℕ)
    (scan : Search → Prog Fault FlatState (FaultState.Flow Search (Option Status × Search)))
    (below : List ℕ) (hstrict : isFlagSet flags vmFlagStrict = true) (hi : i < 512)
    (hscan : scan { i, index := i, below, foundPages := 0 } t =
      .ok (.done (none, { i, index := i, below, foundPages := 0 }), t)) :
    (Enough t.mem paddrStart pages flags height p i →
      ∃ found : ℕ, pages ≤ found ∧
        nextFreeEntry (flat tmpPaddr) scan p height paddrStart pages flags (fuel + 1) i below t =
          .ok (((found : ℤ), i :: below), t)) ∧
    (¬ Enough t.mem paddrStart pages flags height p i →
      nextFreeEntry (flat tmpPaddr) scan p height paddrStart pages flags (fuel + 1) i below t =
        .ok ((-eoverlap, i :: below), t)) := by
  obtain ⟨m, hrun, hm, hfew, hend⟩ : ∃ m, CountsRun t.mem paddrStart flags p i m ∧ i + m ≤ 512 ∧
      (∀ k < m, 0 + k * pagesPerEntry height < pages) ∧
      (pages ≤ 0 + m * pagesPerEntry height ∨ i + m = 512 ∨
        counts flags (t.mem p (i + m)) (paddrStart + BitVec.ofNat 64 (m * 4096)) = false) :=
    exists_count hi.le
  have hfirst : rounds scan (fun v => return (none, v)) ptLength
      { i, index := i, below, foundPages := 0 } t =
      .ok ((none, { i, index := i, below, foundPages := 0 }), t) := rounds_of_done hscan 511
  have hcount : rounds (countFree (flat tmpPaddr) p height pages flags)
      (fun v => return (v.1, v.2.1)) ptLength (i, 0, paddrStart) t =
      .ok ((i + m, 0 + m * pagesPerEntry height), t) :=
    countFree_run m hrun hm hfew hend (by rw [ptLength]; omega)
  have hpass : nextFreeEntry (flat tmpPaddr) scan p height paddrStart pages flags (fuel + 1) i below
      t = (if 0 + m * pagesPerEntry height < pages then
          (return (-eoverlap, i :: below) : Prog Fault FlatState (Status × List ℕ))
        else return (((0 + m * pagesPerEntry height : ℕ) : ℤ), i :: below)) t := by
    rw [nextFreeEntry, bind_eq_of_ok hfirst]
    show (if ptLength ≤ i then _ else _ : Prog Fault FlatState _) t = _
    rw [if_neg (by rw [ptLength]; omega), bind_eq_of_ok hcount]
    show (if 0 + m * pagesPerEntry height < pages then if isFlagSet flags vmFlagStrict = true then _
      else _ else _ : Prog Fault FlatState _) t = _
    rw [if_pos hstrict]
  rw [enough_iff hrun hm hend, hpass]
  constructor
  · intro henough
    refine ⟨0 + m * pagesPerEntry height, henough, ?_⟩
    rw [if_neg (not_lt.mpr henough)]
    rfl
  · intro hlow
    rw [if_pos (not_le.mp hlow)]
    rfl

/-- **The search with `STRICT`.**  It finds space at the hint if there are entries enough from the
end of the hint's walk on, and refuses otherwise. -/
theorem findSpace_strict (h : Sound tmpPaddr root t) (hpages : 0 < pages)
    (hstrict : isFlagSet flags vmFlagStrict = true) (height : ℕ)
    (hlen : index.length = height + 1) (hidx : ∀ i ∈ index, i < ptLength)
    (hp : TableOf root t.mem level p) (hlevel : level + height = 3) :
    (CountsFree t.mem paddrStart pages flags index p → ∃ found : ℕ, pages ≤ found ∧
      findSpace (flat tmpPaddr) (fuel + 1) paddrStart pages flags height index p t =
        .ok (((found : ℤ), index), t)) ∧
    (¬ CountsFree t.mem paddrStart pages flags index p → ∃ index',
      findSpace (flat tmpPaddr) (fuel + 1) paddrStart pages flags height index p t =
        .ok ((-eoverlap, index'), t)) := by
  induction height generalizing index p level with
  | zero =>
    obtain ⟨i, rfl⟩ := List.length_eq_one_iff.mp hlen
    have hi : i < 512 := hidx i List.mem_cons_self
    have hread : (flat tmpPaddr).read p i t = .ok (t.mem p i, t) := rfl
    rw [CountsFree]
    cases hpres : present (t.mem p i) with
    | true =>
      have hround : scanLeaf (flat tmpPaddr) p pages flags
          { i, index := i, below := [], foundPages := 0 } t =
          .ok (.done (some (-eoverlap), { i, index := i, below := [], foundPages := 0 }), t) := by
        rw [scanLeaf, if_pos ⟨hpages, hi⟩, bind_eq_of_ok hread, hpres, hstrict]
        rfl
      have hfirst : rounds _ (fun v => return (none, v)) 512 _ t = _ := rounds_of_done hround 511
      constructor
      · rintro ⟨habs, -⟩
        cases habs
      · intro _
        refine ⟨[i], ?_⟩
        rw [findSpace, nextFreeEntry]
        refine (bind_eq_of_ok hfirst _).trans ?_
        rfl
    | false =>
      have hpass := nextFreeEntry_strict tmpPaddr paddrStart p pages fuel 0
        (scanLeaf (flat tmpPaddr) p pages flags) [] hstrict hi (by
          rw [scanLeaf, if_pos ⟨hpages, hi⟩, bind_eq_of_ok hread, hpres]
          rfl)
      constructor
      · rintro ⟨-, henough⟩
        exact hpass.1 henough
      · intro hnot
        exact ⟨[i], hpass.2 fun henough => hnot ⟨rfl, henough⟩⟩
  | succ height ih =>
    obtain ⟨i, index, rfl⟩ := List.exists_cons_of_length_eq_add_one hlen
    have hlen' : index.length = height + 1 := by simpa using hlen
    obtain ⟨j, path, rfl⟩ := List.exists_cons_of_length_eq_add_one hlen'
    have hpath : path.length = height := by simpa using hlen'
    have hi : i < 512 := hidx i List.mem_cons_self
    have hread : (flat tmpPaddr).read p i t = .ok (t.mem p i, t) := rfl
    rw [CountsFree]
    cases hpres : present (t.mem p i) with
    | true =>
      have hnext := hp.step hi hpres
      obtain ⟨hfree, hfull⟩ := ih hlen' (fun k hk => hidx k (List.mem_cons_of_mem i hk)) hnext
        (by omega)
      have hround : ∀ {res index'}, findSpace (flat tmpPaddr) (fuel + 1) paddrStart pages flags
            height (j :: path) (ptePaddr (t.mem p i)) t = .ok ((res, index'), t) →
          scanInner (flat tmpPaddr) (findSpace (flat tmpPaddr) (fuel + 1) paddrStart pages flags
              height) p pages { i, index := i, below := j :: path, foundPages := 0 } t =
            .ok (Search.afterChild { i, index := i, below := j :: path, foundPages := 0 } pages res
              index', t) := by
        intro res index' hchild
        have hne : ptePaddr (ptePaddr (t.mem p i)) ≠ tmpPaddr := by
          rw [ptePaddr_ptePaddr]
          intro heq
          exact h.avoids (level + 1) (by omega) (heq ▸ hnext)
        have hmap : (flat tmpPaddr).mapPageTmp (ptePaddr (t.mem p i)) vmFlagWritable t =
            .ok (ptePaddr (t.mem p i), t) := by
          show (if _ then _ else _ : Prog Fault FlatState PAddr) t = _
          rw [if_neg hne, ptePaddr_ptePaddr]
          rfl
        rw [scanInner, if_pos ⟨hpages, hi⟩, bind_eq_of_ok hread, if_pos hpres, bind_eq_of_ok hread]
        have hopen : withTable (flat tmpPaddr) (ptePaddr (t.mem p i)) (findSpace (flat tmpPaddr)
            (fuel + 1) paddrStart pages flags height (j :: path)) t = .ok ((res, index'), t) := by
          rw [withTable, bind_eq_of_ok hmap]
          refine (bind_eq_of_ok hchild _).trans ?_
          rfl
        rw [bind_eq_of_ok hopen]
        rfl
      rw [if_pos rfl]
      constructor
      · intro hcounts
        obtain ⟨found, hfound, hchild⟩ := hfree hcounts
        have hafter : Search.afterChild { i, index := i, below := j :: path, foundPages := 0 } pages
            (found : ℤ) (j :: path) =
            .done (some (found : ℤ),
              { i, index := i, below := j :: path, foundPages := found }) :=
          Search.afterChild_found _ hfound rfl
        have hfirst := hround hchild
        rw [hafter] at hfirst
        have hloop : rounds _ (fun v => return (none, v)) 512 _ t = _ := rounds_of_done hfirst 511
        refine ⟨found, hfound, ?_⟩
        rw [findSpace, nextFreeEntry]
        refine (bind_eq_of_ok hloop _).trans ?_
        rfl
      · intro hcounts
        obtain ⟨index', hchild⟩ := hfull hcounts
        have hloop : rounds _ (fun v => return (none, v)) 512 _ t = _ :=
          rounds_of_done (hround hchild) 511
        refine ⟨i :: index', ?_⟩
        rw [findSpace, nextFreeEntry]
        refine (bind_eq_of_ok hloop _).trans ?_
        rfl
    | false =>
      have hpass := nextFreeEntry_strict tmpPaddr paddrStart p pages fuel (height + 1)
        (scanInner (flat tmpPaddr) (findSpace (flat tmpPaddr) (fuel + 1) paddrStart pages flags
          height) p pages) (j :: path) hstrict hi (by
            rw [scanInner, if_pos ⟨hpages, hi⟩, bind_eq_of_ok hread, hpres]
            rfl)
      rw [if_neg Bool.false_ne_true, hpath]
      constructor
      · exact hpass.1
      · exact fun hnot => ⟨i :: j :: path, hpass.2 hnot⟩

/-! ## The call -/

section Call

variable {s : VmState}

/-- The range lies in a leaf table that there is, in which its entries are not present. -/
def LiesFree (mem : Tables) (root : PAddr) (pages vaddr : ℕ) : Prop :=
  ∃ p i, pageTables.leafSlot mem root (indices vaddr) = some (p, i) ∧ i + pages ≤ ptLength ∧
    ∀ k < pages, present (mem p (i + k)) = false

/-- In a leaf table that there is, the entries of the range count from the hint's on. -/
theorem countsFree_iff {mem : Tables} {q : PAddr}
    (hslot : pageTables.leafSlot mem p index = some (q, i)) :
    CountsFree mem paddrStart pages flags index p ↔
      present (mem q i) = false ∧ Enough mem paddrStart pages flags 0 q i := by
  induction index generalizing p with
  | nil => cases hslot
  | cons j path ih =>
    cases path with
    | nil =>
      cases hslot
      rfl
    | cons k path =>
      rw [Radix.leafSlot_cons (List.cons_ne_nil k path)] at hslot
      split at hslot
      next hpres =>
        rw [CountsFree, if_pos (show present (mem p j) = true from hpres)]
        exact ih hslot
      next => cases hslot

/-- The pages of the range are those of the entries of the table. -/
theorem unmapped_iff {mem : Tables} {vaddr : ℕ}
    (hslot : pageTables.leafSlot mem root (indices vaddr) = some (p, i))
    (hfit : i + pages ≤ ptLength) :
    (∀ k < pages, pageTables.leaf mem root (indices (vaddr + k * pageSize)) = none) ↔
      ∀ k < pages, present (mem p (i + k)) = false := by
  refine forall₂_congr fun k hk => ?_
  have hvaddr : indices vaddr = [vaddr >>> 39 % 512, vaddr >>> 30 % 512, vaddr >>> 21 % 512] ++
      [vaddr >>> 12 % 512] := rfl
  rw [hvaddr] at hslot
  obtain ⟨hi, hother⟩ := Radix.leafSlot_append _ hslot
  have hindices : indices (vaddr + k * pageSize) =
      [vaddr >>> 39 % 512, vaddr >>> 30 % 512, vaddr >>> 21 % 512] ++ [i + k] := by
    rw [ptLength] at hfit
    simp only [indices, List.cons_append, List.nil_append, Nat.shiftRight_eq_div_pow, pageSize,
      List.cons.injEq, and_true] at hi ⊢
    omega
  rw [hindices, Radix.leaf, hother, Option.bind_some, Radix.entry]
  show (if present (mem p (i + k)) = true then some (mem p (i + k)) else none) = none ↔ _
  cases present (mem p (i + k)) with
  | true =>
    rw [if_pos rfl]
    exact ⟨fun h => absurd h (Option.some_ne_none _), fun h => absurd h.symm Bool.false_ne_true⟩
  | false =>
    rw [if_neg Bool.false_ne_true]
    exact ⟨fun _ => rfl, fun _ => rfl⟩

/-- Such a range counts as free. -/
theorem LiesFree.countsFree {mem : Tables} {vaddr : ℕ} (hpages : 0 < pages)
    (h : LiesFree mem root pages vaddr) :
    CountsFree mem paddrStart pages flags (indices vaddr) root := by
  obtain ⟨p, i, hslot, hfit, habs⟩ := h
  rw [countsFree_iff hslot]
  refine ⟨habs 0 hpages, pages, hfit, ?_, fun k hk => counts_of_absent (habs k hk)⟩
  rw [pagesPerEntry, Nat.pow_zero, Nat.mul_one]

/-- In a leaf table that there is, a range that counts as free lies free, when it is not mapped. -/
theorem CountsFree.liesFree {mem : Tables} {vaddr : ℕ} {q : PAddr}
    (h : CountsFree mem paddrStart pages flags (indices vaddr) root)
    (hslot : pageTables.leafSlot mem root (indices vaddr) = some (q, i))
    (hnone : i + pages ≤ ptLength → ∀ k < pages, present (mem q (i + k)) = false) :
    LiesFree mem root pages vaddr := by
  obtain ⟨-, n, hn, henough, -⟩ := (countsFree_iff hslot).mp h
  rw [pagesPerEntry, Nat.pow_zero, Nat.mul_one] at henough
  have hfit : i + pages ≤ ptLength := by rw [ptLength]; omega
  exact ⟨q, i, hslot, hfit, hnone hfit⟩

/-- What `STRICT` promises: a range of which a page is mapped is refused, and any other is mapped
at the hint. -/
structure StrictRight (tmpPaddr root : PAddr) (s : VmState) (fuel : ℕ) (paddrStart : PAddr)
    (pages vaddrHint : ℕ) (flags : Flags) : Prop where
  refused : (∃ k < pages, s.leaf tmpPaddr root (vaddrHint + k * pageSize) ≠ none) → ∃ v s',
    call root (vmMapPages (source tmpPaddr) fuel (.table root) paddrStart pages vaddrHint flags) s =
      .ok ((-eoverlap, v), s')
  placed : (∀ k < pages, s.leaf tmpPaddr root (vaddrHint + k * pageSize) = none) → ∃ s',
    call root (vmMapPages (source tmpPaddr) fuel (.table root) paddrStart pages vaddrHint flags) s =
      .ok ((success, vaddrHint), s')

/-- A range that is not mapped lies in one leaf table, and one that is does not count as free. -/
structure CountTells (tmpPaddr root : PAddr) (s : VmState) (paddrStart : PAddr)
    (pages vaddrHint : ℕ) (flags : Flags) : Prop where
  free : (∀ k < pages, s.leaf tmpPaddr root (vaddrHint + k * pageSize) = none) →
    LiesFree s.mem root pages vaddrHint
  taken : (∃ k < pages, s.leaf tmpPaddr root (vaddrHint + k * pageSize) ≠ none) →
    ¬ CountsFree s.mem paddrStart pages flags (indices vaddrHint) root

/-- A call that has found space at the hint returns, and then with `SUCCESS`, if and only if there
is the leaf table of the range. -/
theorem source_found (hwin : WindowOk s.tmpPt s.firstFreeTmpIndex)
    (hclosed : ∀ i < 511, present (s.tmpPt i) = false) (hsound : Sound tmpPaddr root s.flat)
    (hpaddr : paddrStart.toNat % pageSize = 0) (hpage : IsPage vaddrHint) (hpages : 0 < pages)
    {found : ℕ} (hfind : findSpace (flat tmpPaddr) fuel paddrStart pages flags 3
      (indices vaddrHint) root s.flat = .ok (((found : ℤ), indices vaddrHint), s.flat)) :
    (∀ r s', call root (vmMapPages (source tmpPaddr) fuel (.table root) paddrStart pages vaddrHint
        flags) s = .ok (r, s') → r = (success, vaddrHint) ∧
      ∃ slot, pageTables.leafSlot s.mem root (indices vaddrHint) = some slot) ∧
    (LiesFree s.mem root pages vaddrHint → ∃ s', call root (vmMapPages (source tmpPaddr) fuel
      (.table root) paddrStart pages vaddrHint flags) s = .ok ((success, vaddrHint), s')) := by
  have hroot : root ≠ tmpPaddr := by
    rintro rfl
    exact hsound.avoids 0 (by omega) .root
  obtain ⟨hstray, hplaced⟩ := bare_placed hsound hpaddr hpage.2.2 hpages hfind
  rw [hintOf_indices hpage] at hplaced
  have hidx : ∀ i ∈ indices vaddrHint, i < ptLength := fun _ hi => indices_lt hi
  constructor
  · intro r s' hok
    obtain ⟨t, hbare⟩ := (call_source_iff hwin hclosed hroot hstray).mp ⟨s', hok⟩
    obtain ⟨hr, w, hran⟩ := (hplaced r t).mp hbare
    refine ⟨hr, Option.ne_none_iff_exists'.mp fun hnone => ?_⟩
    exact recurseMap_of_none (length_indices vaddrHint) hidx hpages hnone _ hran
  · rintro ⟨p, i, hslot, hfit, habs⟩
    obtain ⟨w, t, hran, -⟩ := recurseMap_of_some hsound (length_indices vaddrHint) hidx .root rfl
      hpages hslot hfit habs
    exact (call_source_iff hwin hclosed hroot hstray).mpr ⟨t, (hplaced _ t).mpr ⟨rfl, _, hran⟩⟩

/-- A call whose search refuses the range returns what the search says. -/
theorem source_refused (hwin : WindowOk s.tmpPt s.firstFreeTmpIndex)
    (hclosed : ∀ i < 511, present (s.tmpPt i) = false) (hroot : root ≠ tmpPaddr)
    (hpaddr : paddrStart.toNat % pageSize = 0) (hpage : IsPage vaddrHint) (hpages : 0 < pages)
    {status : Status} (hfind : findSpace (flat tmpPaddr) fuel paddrStart pages flags 3
      (indices vaddrHint) root s.flat = .ok ((status, index), s.flat))
    (herr : isError status = true) (r : Status × ℕ) :
    (∃ s', call root (vmMapPages (source tmpPaddr) fuel (.table root) paddrStart pages vaddrHint
      flags) s = .ok (r, s')) ↔ r = (status, vaddrHint) := by
  have hbare := bare_refused hpaddr hpage.2.2 hpages hfind herr
  have hstray : vmMapPages (bare tmpPaddr) fuel root paddrStart pages vaddrHint flags s.flat ≠
      .error strayed := by
    rw [hbare]
    intro h
    cases h
  rw [call_source_iff hwin hclosed hroot hstray, hbare]
  constructor
  · rintro ⟨t, hok⟩
    cases hok
    rfl
  · rintro rfl
    exact ⟨s.flat, rfl⟩

/-- **When `STRICT` is right.**  `vm_map_pages` with `STRICT` keeps its promise if and only if a
range that is not mapped lies in one leaf table that there is, and a range that is mapped does not
count as free from the end of the hint's walk on. -/
theorem strict_right_iff (hwin : WindowOk s.tmpPt s.firstFreeTmpIndex)
    (hclosed : ∀ i < 511, present (s.tmpPt i) = false)
    (hclear : ¬ LeadsToWindow tmpPaddr s.tmpPt s.mem root)
    (hordered : Ordered tmpPaddr s.tmpPt root s.mem s.frames) (htmp : tmpPaddr ∉ s.frames)
    (hpaddr : paddrStart.toNat % pageSize = 0) (hpage : IsPage vaddrHint) (hpages : 0 < pages)
    (hstrict : isFlagSet flags vmFlagStrict = true) :
    StrictRight tmpPaddr root s (fuel + 1) paddrStart pages vaddrHint flags ↔
      CountTells tmpPaddr root s paddrStart pages vaddrHint flags := by
  have hsound : Sound tmpPaddr root s.flat := hordered.sound hclear htmp
  have hroot : root ≠ tmpPaddr := by
    rintro rfl
    exact hsound.avoids 0 (by omega) .root
  have hother : -eoverlap ≠ success := by decide
  obtain ⟨hfree, htaken⟩ : (CountsFree s.mem paddrStart pages flags (indices vaddrHint) root →
        ∃ found : ℕ, pages ≤ found ∧ findSpace (flat tmpPaddr) (fuel + 1) paddrStart pages flags 3
          (indices vaddrHint) root s.flat = .ok (((found : ℤ), indices vaddrHint), s.flat)) ∧
      (¬ CountsFree s.mem paddrStart pages flags (indices vaddrHint) root → ∃ index',
        findSpace (flat tmpPaddr) (fuel + 1) paddrStart pages flags 3 (indices vaddrHint) root
          s.flat = .ok ((-eoverlap, index'), s.flat)) :=
    findSpace_strict hsound hpages hstrict 3 rfl (fun _ hi => indices_lt hi) .root rfl
  by_cases hcounts : CountsFree s.mem paddrStart pages flags (indices vaddrHint) root
  · obtain ⟨found, -, hfind⟩ := hfree hcounts
    obtain ⟨hreturned, hreturns⟩ := source_found hwin hclosed hsound hpaddr hpage hpages hfind
    constructor
    · intro hright
      refine ⟨fun hnone => ?_, fun hmapped _ => ?_⟩
      · obtain ⟨s', hok⟩ := hright.placed hnone
        obtain ⟨-, ⟨q, i⟩, hslot⟩ := hreturned _ s' hok
        refine hcounts.liesFree hslot fun hfit => (unmapped_iff hslot hfit).mp fun k hk => ?_
        exact (walk_view hclear _).2.2.symm.trans (hnone k hk)
      · obtain ⟨v, s', hok⟩ := hright.refused hmapped
        exact absurd (congrArg Prod.fst (hreturned _ s' hok).1) hother
    · intro htells
      exact ⟨fun hmapped => absurd hcounts (htells.taken hmapped),
        fun hnone => hreturns (htells.free hnone)⟩
  · obtain ⟨index', hfind⟩ := htaken hcounts
    have hreturns := source_refused hwin hclosed hroot hpaddr hpage hpages hfind (by decide)
    constructor
    · intro hright
      refine ⟨fun hnone => ?_, fun _ => hcounts⟩
      have hsame := (hreturns _).mp (hright.placed hnone)
      exact absurd (congrArg Prod.fst hsame).symm hother
    · intro htells
      exact ⟨fun _ => ⟨vaddrHint, (hreturns _).mpr rfl⟩,
        fun hnone => absurd ((htells.free hnone).countsFree hpages) hcounts⟩

/-- The tables of the two pages in one leaf table are in order beside three spare frames. -/
theorem ordered_beside_spare {tmpPt : ℕ → Pte} :
    Ordered 0x8000#64 tmpPt 0x1000#64 (sparseTables besideEntries)
      [0x9000#64, 0xa000#64, 0xb000#64] := by
  have haligned : ∀ f ∈ [0x9000#64, 0xa000#64, 0xb000#64], ptePaddr f = f := by
    rw [List.forall_mem_cons, List.forall_mem_cons, List.forall_mem_singleton]
    decide
  exact ordered_beside haligned (by decide +kernel) (by decide)

/-- The third page of a leaf table, of which two are mapped, is not refused. -/
theorem strict_right_beside :
    StrictRight 0x8000#64 0x1000#64 (sparseState besideEntries [0x9000#64, 0xa000#64, 0xb000#64]) 1
      0xc000#64 1 0x2000 vmFlagStrict := by
  have hnone : ∀ k < 1, (sparseState besideEntries [0x9000#64, 0xa000#64, 0xb000#64]).leaf 0x8000#64
      0x1000#64 (0x2000 + k * pageSize) = none := by
    decide +kernel
  rw [strict_right_iff window_sparse closed_sparse (clear_sparse (by decide +kernel))
    ordered_beside_spare (by decide) (by decide) ⟨by decide, by decide, by decide⟩ (by decide)
    (by decide)]
  refine ⟨fun _ => ?_, fun hmapped => ?_⟩
  · exact ⟨0x4000#64, 2, by decide +kernel, by decide, by decide +kernel⟩
  · obtain ⟨k, hk, hne⟩ := hmapped
    exact absurd (hnone k hk) hne

/-- The last page of a leaf table and the first of the next one are refused, though neither is
mapped. -/
theorem not_strict_right_across :
    ¬ StrictRight 0x8000#64 0x1000#64 (sparseState besideEntries [0x9000#64, 0xa000#64, 0xb000#64])
      1 0xf000#64 2 0x1ff000 vmFlagStrict := by
  intro hright
  have hnone : ∀ k < 2, (sparseState besideEntries [0x9000#64, 0xa000#64, 0xb000#64]).leaf 0x8000#64
      0x1000#64 (0x1ff000 + k * pageSize) = none := by
    decide +kernel
  have hrun : (call 0x1000#64 (vmMapPages (source 0x8000#64) 1 (.table 0x1000#64) 0xf000#64 2
      0x1ff000 vmFlagStrict) (sparseState besideEntries
        [0x9000#64, 0xa000#64, 0xb000#64])).toOption.any
      (fun x => decide (x.1.1 = -eoverlap)) = true := by
    decide +kernel
  obtain ⟨⟨r, s'⟩, hok, htest⟩ := Except.exists_of_any hrun
  obtain ⟨s₁, hplaced⟩ := hright.placed hnone
  rw [hplaced] at hok
  cases hok
  cases htest

end Call

end Mimik.Vm
