/-
# Where the search for space goes

`find_space` searches a table in passes.  The first loop of a pass goes past entries in
steps of two, until it stops at one; the second loop counts the entries from there, and when
they are too few the next pass starts at the entry that ended the count.  `Comes` lists the
places where the first loop stands; the entry that it opens is the one at `*index`, which
has parted from `i` once an entry was gone past.

On a leaf table the first loop also stops at an entry that is present and that
`pte_flags_match` accepts.  The second loop counts such an entry only if it leads to
`paddr_start`; otherwise it counts nothing, and the next pass starts where the last one
did: the search stalls.  It ends if and only if it does not come to such an entry
(`search_ends_iff`).
-/
import Mimik.VmFindSpace
import Mimik.VmSparse

namespace Mimik.Vm

open FaultState

/-! ## The places of a search -/

/-- The second loop counts the entry, when it stands at the frame `paddr`. -/
def counts (flags : Flags) (e : Pte) (paddr : PAddr) : Bool :=
  !(present e && (ptePaddr e != paddr || !pteFlagsMatch e flags))

/-- The second loop counts `n` entries from `i` on. -/
def CountsRun (mem : Tables) (paddrStart : PAddr) (flags : Flags) (p : PAddr) (i n : ℕ) : Prop :=
  ∀ k < n, counts flags (mem p (i + k)) (paddrStart + BitVec.ofNat 64 (k * 4096)) = true

/-- From the entry `i` on, a table of the given height has entries enough that count as free. -/
def Enough (mem : Tables) (paddrStart : PAddr) (pages : ℕ) (flags : Flags) (height : ℕ) (p : PAddr)
    (i : ℕ) : Prop :=
  ∃ n, i + n ≤ 512 ∧ pages ≤ n * pagesPerEntry height ∧ CountsRun mem paddrStart flags p i n

/-- What the first loop does on a table: the entries where it stops, those that it goes past, and
those below which there is space.  The latter two depend on `*index`, `i` and the indices of
the levels below, and say what is left in these. -/
structure ScanRules where
  stops : ℕ → Prop
  passes : ℕ → ℕ → List ℕ → List ℕ → Prop
  finds : ℕ → ℕ → List ℕ → List ℕ → Prop

section Places

variable (mem : Tables) (paddrStart : PAddr) (pages : ℕ) (flags : Flags)

/-- The places where the first loop stands in the course of the search: `*index`, `i` and the
indices of the levels below. -/
inductive Comes (height : ℕ) (p : PAddr) (rules : ScanRules) (start : ℕ) (below₀ : List ℕ) :
    ℕ → ℕ → List ℕ → Prop
  | start : Comes height p rules start below₀ start start below₀
  | pass {index i : ℕ} {below below' : List ℕ} : Comes height p rules start below₀ index i below →
      i < 512 → rules.passes index i below below' →
      Comes height p rules start below₀ (i + 1) (i + 2) below'
  | count {index i n : ℕ} {below : List ℕ} : Comes height p rules start below₀ index i below →
      i < 512 → rules.stops i → isFlagSet flags vmFlagStrict = false →
      CountsRun mem paddrStart flags p i n → n * pagesPerEntry height < pages → i + n ≤ 512 →
      (i + n < 512 →
        counts flags (mem p (i + n)) (paddrStart + BitVec.ofNat 64 (n * 4096)) = false) →
      Comes height p rules start below₀ (i + n) (i + n) below

/-- The first loop on a leaf table. -/
def leafRules (p : PAddr) : ScanRules where
  stops i := present (mem p i) = false ∨
    (isFlagSet flags vmFlagStrict = false ∧ pteFlagsMatch (mem p i) flags = true)
  passes _ i below below' := present (mem p i) = true ∧ isFlagSet flags vmFlagStrict = false ∧
    pteFlagsMatch (mem p i) flags = false ∧ below' = below
  finds _ _ _ _ := False

/-- The first loop above the leaf tables; `full` says which searches of the level below find
nothing, `found` which find space, and both what they leave in the indices. -/
def innerRules (full found : List ℕ → PAddr → List ℕ → Prop) (p : PAddr) : ScanRules where
  stops i := present (mem p i) = false
  passes index i below below' :=
    present (mem p i) = true ∧ full below (ptePaddr (mem p index)) below'
  finds index i below below' :=
    present (mem p i) = true ∧ found below (ptePaddr (mem p index)) below'

/-- The search ends at the end of the table, with the indices `index'`. -/
def EndsFull (height : ℕ) (rules : PAddr → ScanRules) (index : List ℕ) (p : PAddr)
    (index' : List ℕ) : Prop :=
  ∃ x i below, Comes mem paddrStart pages flags height p (rules p) (index.headD 0) index.tail
    x i below ∧ 512 ≤ i ∧ index' = x :: below

/-- The search ends with space found, with the indices `index'`. -/
def EndsFound (height : ℕ) (rules : PAddr → ScanRules) (index : List ℕ) (p : PAddr)
    (index' : List ℕ) : Prop :=
  ∃ x i below, Comes mem paddrStart pages flags height p (rules p) (index.headD 0) index.tail
    x i below ∧ i < 512 ∧
      (((rules p).stops i ∧ Enough mem paddrStart pages flags height p i ∧ index' = x :: below) ∨
        ∃ below', (rules p).finds x i below below' ∧ index' = x :: below')

/-- The first loop on the tables of a level; `height` counts from the leaf tables. -/
def rulesAt : ℕ → PAddr → ScanRules
  | 0 => leafRules mem flags
  | height + 1 =>
    innerRules mem (EndsFull mem paddrStart pages flags height (rulesAt height))
      (EndsFound mem paddrStart pages flags height (rulesAt height))

/-- The places where the first loop stands on a table, when the search starts at `index`. -/
def ComesAt (height : ℕ) (index : List ℕ) (p : PAddr) : ℕ → ℕ → List ℕ → Prop :=
  Comes mem paddrStart pages flags height p (rulesAt mem paddrStart pages flags height p)
    (index.headD 0) index.tail

/-- The search comes to a leaf entry that `pte_flags_match` accepts, but that leads to another
frame than `paddr_start`. -/
def Stalls : ℕ → List ℕ → PAddr → Prop
  | 0, index, p => ∃ x i below, ComesAt mem paddrStart pages flags 0 index p x i below ∧ i < 512 ∧
      isFlagSet flags vmFlagStrict = false ∧ present (mem p i) = true ∧
      pteFlagsMatch (mem p i) flags = true ∧ ptePaddr (mem p i) ≠ paddrStart
  | height + 1, index, p => ∃ x i below,
      ComesAt mem paddrStart pages flags (height + 1) index p x i below ∧ i < 512 ∧
      present (mem p i) = true ∧ Stalls height below (ptePaddr (mem p x))

/-- The tables that the search may open: it opens the table of an entry without a look at whether
the entry is present. -/
inductive MayOpen (root : PAddr) : ℕ → PAddr → Prop
  | root : MayOpen root 0 root
  | step {n i : ℕ} {p : PAddr} : MayOpen root n p → i < 512 →
      MayOpen root (n + 1) (ptePaddr (mem p i))

end Places

variable {mem : Tables} {paddrStart : PAddr} {pages : ℕ} {flags : Flags} {height start : ℕ}
  {below₀ : List ℕ} {p : PAddr} {rules : ScanRules} {x i n fuel : ℕ} {below : List ℕ}

/-- What may be opened from the table of an entry may be opened from the table of the entry. -/
theorem MayOpen.of_entry {q : PAddr} (h : MayOpen mem (ptePaddr (mem p i)) n q) (hi : i < 512) :
    MayOpen mem p (n + 1) q := by
  induction h with
  | root => exact MayOpen.root.step hi
  | step _ hj ih => exact ih.step hj

/-- `*index` is not ahead of `i`. -/
theorem Comes.le (h : Comes mem paddrStart pages flags height p rules start below₀ x i below) :
    x ≤ i := by
  induction h with
  | start => exact le_rfl
  | pass _ _ _ _ => omega
  | count _ _ _ _ _ _ _ _ => exact le_rfl

/-- Nothing that is not present ends a count. -/
theorem counts_of_absent {e : Pte} {paddr : PAddr} (h : present e = false) :
    counts flags e paddr = true := by
  rw [counts, h, Bool.false_and, Bool.not_false]

/-- Entries never match flags without `WRITABLE` or `USER`, nor flags with `EXECUTABLE`. -/
theorem pteFlagsMatch_eq_false (hflags : isFlagSet flags vmFlagWritable = false ∨
    isFlagSet flags vmFlagUser = false ∨ isFlagSet flags vmFlagExecutable = true) (e : Pte) :
    pteFlagsMatch e flags = false := by
  have hunset : isFlagUnset flags vmFlagExecutable = !isFlagSet flags vmFlagExecutable := by
    rw [isFlagSet, isFlagUnset, bne, Bool.not_not]
  rw [pteFlagsMatch, hunset]
  rcases hflags with h | h | h <;> simp [h]

/-- A search with such flags, or with `STRICT`, does not stall. -/
theorem not_stalls (hflags : isFlagSet flags vmFlagStrict = true ∨
      isFlagSet flags vmFlagWritable = false ∨ isFlagSet flags vmFlagUser = false ∨
      isFlagSet flags vmFlagExecutable = true) (index : List ℕ) :
    ¬ Stalls mem paddrStart pages flags height index p := by
  induction height generalizing index p with
  | zero =>
    rintro ⟨x, i, below, -, -, hstrict, -, hmatch, -⟩
    rcases hflags with hflags | hflags
    · rw [hflags] at hstrict
      cases hstrict
    · rw [pteFlagsMatch_eq_false hflags] at hmatch
      cases hmatch
  | succ height ih =>
    rintro ⟨x, i, below, -, -, -, hstalls⟩
    exact ih below hstalls

/-! ## The second loop -/

section Flat

variable {tmpPaddr : PAddr} {t : FlatState}

/-- The second loop counts the entries up to the one that ends the count. -/
theorem countFree_run (m : ℕ) (hrun : CountsRun t.mem paddrStart flags p i m) (hi : i + m ≤ 512)
    {found : ℕ} (hfew : ∀ k < m, found + k * pagesPerEntry height < pages)
    (hend : pages ≤ found + m * pagesPerEntry height ∨ i + m = 512 ∨
      counts flags (t.mem p (i + m)) (paddrStart + BitVec.ofNat 64 (m * 4096)) = false)
    (hn : 512 ≤ n + i) :
    rounds (countFree (flat tmpPaddr) p height pages flags) (fun v => return (v.1, v.2.1)) n
      (i, found, paddrStart) t = .ok ((i + m, found + m * pagesPerEntry height), t) := by
  have hread : ∀ i, (flat tmpPaddr).read p i t = .ok (t.mem p i, t) := fun _ => rfl
  induction m generalizing i n found paddrStart with
  | zero =>
    simp only [Nat.zero_mul, Nat.add_zero] at hend ⊢
    cases n with
    | zero => rfl
    | succ n =>
      apply rounds_of_done
      by_cases hgo : found < pages ∧ i < ptLength
      · rw [countFree, if_pos hgo, bind_eq_of_ok (hread i)]
        rw [ptLength] at hgo
        have hstop := (hend.resolve_left (by omega)).resolve_left (by omega)
        rw [counts, Bool.not_eq_false', BitVec.add_zero] at hstop
        rw [if_pos hstop]
        rfl
      · rw [countFree, if_neg hgo]
        rfl
  | succ m ih =>
    obtain ⟨n, rfl⟩ : ∃ k, n = k + 1 := ⟨n - 1, by omega⟩
    have hframe : ∀ k, paddrStart + 4096#64 + BitVec.ofNat 64 (k * 4096) =
        paddrStart + BitVec.ofNat 64 ((k + 1) * 4096) := by
      intro k
      rw [BitVec.add_assoc, ← BitVec.ofNat_add, Nat.add_mul, Nat.one_mul, Nat.add_comm 4096]
    have hround : countFree (flat tmpPaddr) p height pages flags (i, found, paddrStart) t =
        .ok (.next (i + 1, found + pagesPerEntry height, paddrStart + 4096#64), t) := by
      have hfirst := hrun 0 (by omega)
      rw [Nat.add_zero, Nat.zero_mul, BitVec.add_zero, counts, Bool.not_eq_true'] at hfirst
      have hfound := hfew 0 (by omega)
      rw [countFree, if_pos ⟨by omega, by rw [ptLength]; omega⟩, bind_eq_of_ok (hread i), hfirst]
      rfl
    have hassoc : ∀ k, found + pagesPerEntry height + k * pagesPerEntry height =
        found + (k + 1) * pagesPerEntry height := by
      intro k
      rw [Nat.add_mul, Nat.one_mul, Nat.add_assoc, Nat.add_comm (pagesPerEntry height)]
    have hshift : i + 1 + m = i + (m + 1) := by omega
    rw [rounds_of_next hround, ih _ (by omega) _ _ (by omega), hassoc, hshift]
    · intro k hk
      have hnext := hrun (k + 1) (by omega)
      rw [hframe, show i + 1 + k = i + (k + 1) by omega]
      exact hnext
    · intro k hk
      rw [hassoc]
      exact hfew (k + 1) (by omega)
    · rw [hassoc, hshift, hframe]
      exact hend

/-- There is always an entry that ends the count. -/
theorem exists_count (hi : i ≤ 512) :
    ∃ m, CountsRun mem paddrStart flags p i m ∧ i + m ≤ 512 ∧
      (∀ k < m, 0 + k * pagesPerEntry height < pages) ∧
      (pages ≤ 0 + m * pagesPerEntry height ∨ i + m = 512 ∨
        counts flags (mem p (i + m)) (paddrStart + BitVec.ofNat 64 (m * 4096)) = false) := by
  classical
  have hex : ∃ m, pages ≤ 0 + m * pagesPerEntry height ∨ i + m = 512 ∨
      counts flags (mem p (i + m)) (paddrStart + BitVec.ofNat 64 (m * 4096)) = false :=
    ⟨512 - i, .inr (.inl (by omega))⟩
  refine ⟨Nat.find hex, fun k hk => ?_, ?_, fun k hk => ?_, Nat.find_spec hex⟩
  · have hnot := Nat.find_min hex hk
    rw [not_or, not_or, Bool.not_eq_false] at hnot
    exact hnot.2.2
  · exact le_trans (Nat.add_le_add_left (Nat.find_min' hex (.inr (.inl
      (by omega : i + (512 - i) = 512)))) i) (by omega)
  · have hnot := Nat.find_min hex hk
    rw [not_or] at hnot
    omega

/-! ## One pass -/

variable {scan : Search → Prog Fault FlatState (FaultState.Flow Search (Option Status × Search))}
  {r : (Status × List ℕ) × FlatState} {v : Search}

/-- The rest of the search, from a place of the first loop on, with `n` rounds of this loop and
`fuel` passes left. -/
def searchFrom (tmpPaddr : PAddr)
    (scan : Search → Prog Fault FlatState (FaultState.Flow Search (Option Status × Search)))
    (p : PAddr) (height : ℕ) (paddrStart : PAddr) (pages : ℕ) (flags : Flags) (n fuel : ℕ)
    (v : Search) : Prog Fault FlatState (Status × List ℕ) := do
  let (ret, v) ← rounds scan (fun v => return (none, v)) n v
  match ret with
  | some res => return (res, v.index :: v.below)
  | none =>
    if ptLength ≤ v.i then return (-efull, v.index :: v.below)
    else
      let (i, foundPages) ← rounds (countFree (flat tmpPaddr) p height pages flags)
        (fun v => return (v.1, v.2.1)) ptLength (v.i, v.foundPages, paddrStart)
      if foundPages < pages then
        if isFlagSet flags vmFlagStrict then return (-eoverlap, v.index :: v.below)
        else nextFreeEntry (flat tmpPaddr) scan p height paddrStart pages flags fuel i v.below
      else return ((foundPages : ℤ), v.index :: v.below)

/-- The start of a pass. -/
theorem nextFreeEntry_succ :
    nextFreeEntry (flat tmpPaddr) scan p height paddrStart pages flags (fuel + 1) i below =
      searchFrom tmpPaddr scan p height paddrStart pages flags 512 fuel
        { i, index := i, below, foundPages := 0 } := rfl

/-- The first loop goes past an entry. -/
theorem searchFrom_next {v' : Search} (h : scan v t = .ok (.next v', t)) :
    searchFrom tmpPaddr scan p height paddrStart pages flags (n + 1) fuel v t =
      searchFrom tmpPaddr scan p height paddrStart pages flags n fuel v' t := by
  have hrounds : rounds scan (fun v => return (none, v)) (n + 1) v t =
      rounds scan (fun v => return (none, v)) n v' t := rounds_of_next h n
  rw [searchFrom, searchFrom]
  show (rounds scan _ (n + 1) v t >>= _) = (rounds scan _ n v' t >>= _)
  rw [hrounds]

/-- The first loop is left below the table's end, and the count of the entries is too low. -/
theorem searchFrom_count (hdone : scan v t = .ok (.done (none, v), t)) (hi : v.i < 512)
    (hfound : v.foundPages = 0) {m : ℕ} (hrun : CountsRun t.mem paddrStart flags p v.i m)
    (hm : v.i + m ≤ 512) (hfew : m * pagesPerEntry height < pages)
    (hend : v.i + m < 512 →
      counts flags (t.mem p (v.i + m)) (paddrStart + BitVec.ofNat 64 (m * 4096)) = false)
    (hstrict : isFlagSet flags vmFlagStrict = false) :
    searchFrom tmpPaddr scan p height paddrStart pages flags (n + 1) fuel v t =
      nextFreeEntry (flat tmpPaddr) scan p height paddrStart pages flags fuel (v.i + m) v.below
        t := by
  have hfirst : rounds scan (fun v => return (none, v)) (n + 1) v t = .ok ((none, v), t) :=
    rounds_of_done hdone n
  have hcount : rounds (countFree (flat tmpPaddr) p height pages flags)
      (fun v => return (v.1, v.2.1)) ptLength (v.i, v.foundPages, paddrStart) t =
      .ok ((v.i + m, 0 + m * pagesPerEntry height), t) := by
    rw [hfound]
    apply countFree_run m hrun hm _ _ (by rw [ptLength]; omega)
    · intro k hk
      have hle : k * pagesPerEntry height ≤ m * pagesPerEntry height :=
        Nat.mul_le_mul_right _ hk.le
      omega
    · by_cases hlt : v.i + m < 512
      · exact .inr (.inr (hend hlt))
      · exact .inr (.inl (by omega))
  rw [searchFrom, bind_eq_of_ok hfirst]
  show (if ptLength ≤ v.i then _ else _ : Prog Fault FlatState _) t = _
  rw [if_neg (by rw [ptLength]; omega), bind_eq_of_ok hcount]
  show (if 0 + m * pagesPerEntry height < pages then _ else _ : Prog Fault FlatState _) t = _
  rw [if_pos (by omega), hstrict]
  rfl

/-- The second loop finds enough entries exactly if there are. -/
theorem enough_iff {m : ℕ} (hrun : CountsRun t.mem paddrStart flags p i m) (hm : i + m ≤ 512)
    (hend : pages ≤ 0 + m * pagesPerEntry height ∨ i + m = 512 ∨
      counts flags (t.mem p (i + m)) (paddrStart + BitVec.ofNat 64 (m * 4096)) = false) :
    Enough t.mem paddrStart pages flags height p i ↔ pages ≤ 0 + m * pagesPerEntry height := by
  constructor
  · rintro ⟨n, hn, henough, hall⟩
    by_contra hfew
    have hlt : m < n := by
      by_contra hle
      have hmul : n * pagesPerEntry height ≤ m * pagesPerEntry height :=
        Nat.mul_le_mul_right _ (not_lt.mp hle)
      omega
    have hstop := (hend.resolve_left hfew).resolve_left (by omega)
    rw [hall m hlt] at hstop
    cases hstop
  · intro henough
    exact ⟨m, hm, by omega, hrun⟩

/-- The first loop is left below the table's end, and there are entries enough. -/
theorem searchFrom_found (hdone : scan v t = .ok (.done (none, v), t)) (hi : v.i < 512)
    (hfound : v.foundPages = 0) (henough : Enough t.mem paddrStart pages flags height p v.i) :
    ∃ found : ℕ, pages ≤ found ∧
      searchFrom tmpPaddr scan p height paddrStart pages flags (n + 1) fuel v t =
        .ok (((found : ℤ), v.index :: v.below), t) := by
  obtain ⟨m, hrun, hm, hfew, hend⟩ : ∃ m, CountsRun t.mem paddrStart flags p v.i m ∧
      v.i + m ≤ 512 ∧ (∀ k < m, 0 + k * pagesPerEntry height < pages) ∧
      (pages ≤ 0 + m * pagesPerEntry height ∨ v.i + m = 512 ∨
        counts flags (t.mem p (v.i + m)) (paddrStart + BitVec.ofNat 64 (m * 4096)) = false) :=
    exists_count hi.le
  have hfirst : rounds scan (fun v => return (none, v)) (n + 1) v t = .ok ((none, v), t) :=
    rounds_of_done hdone n
  have hcount : rounds (countFree (flat tmpPaddr) p height pages flags)
      (fun v => return (v.1, v.2.1)) ptLength (v.i, v.foundPages, paddrStart) t =
      .ok ((v.i + m, 0 + m * pagesPerEntry height), t) := by
    rw [hfound]
    exact countFree_run m hrun hm hfew hend (by rw [ptLength]; omega)
  have hpages := (enough_iff hrun hm hend).mp henough
  refine ⟨0 + m * pagesPerEntry height, hpages, ?_⟩
  rw [searchFrom, bind_eq_of_ok hfirst]
  show (if ptLength ≤ v.i then _ else _ : Prog Fault FlatState _) t = _
  rw [if_neg (by rw [ptLength]; omega), bind_eq_of_ok hcount]
  show (if 0 + m * pagesPerEntry height < pages then _ else _ : Prog Fault FlatState _) t = _
  rw [if_neg (not_lt.mpr hpages)]
  rfl

/-- The first loop is left at the table's end. -/
theorem searchFrom_full (hdone : scan v t = .ok (.done (none, v), t)) (hi : 512 ≤ v.i) :
    searchFrom tmpPaddr scan p height paddrStart pages flags n fuel v t =
      .ok ((-efull, v.index :: v.below), t) := by
  have hfirst : rounds scan (fun v => return (none, v)) n v t = .ok ((none, v), t) := by
    cases n with
    | zero => rfl
    | succ n => exact rounds_of_done hdone n
  rw [searchFrom, bind_eq_of_ok hfirst]
  show (if ptLength ≤ v.i then _ else _ : Prog Fault FlatState _) t = _
  rw [if_pos (by rw [ptLength]; omega)]
  rfl

/-! ## A search that returns comes to each of the places -/

/-- The rounds of the first loop follow the rules, as far as they return. -/
structure Follows (t : FlatState) (pages : ℕ) (rules : ScanRules)
    (scan : Search → Prog Fault FlatState (FaultState.Flow Search (Option Status × Search))) :
    Prop where
  ended : ∀ v, 512 ≤ v.i → scan v t = .ok (.done (none, v), t)
  stops : ∀ v, v.foundPages = 0 → v.i < 512 → rules.stops v.i →
    scan v t = .ok (.done (none, v), t)
  passes : ∀ v below, v.foundPages = 0 → v.i < 512 → rules.passes v.index v.i v.below below →
    ∀ r, scan v t = .ok r → r = (.next { v.retry with below }, t)
  finds : ∀ v below, v.foundPages = 0 → v.i < 512 → rules.finds v.index v.i v.below below →
    ∀ r, scan v t = .ok r → ∃ found : ℕ, pages ≤ found ∧
      r = (.done (some (found : ℤ), { v with below, foundPages := found }), t)

/-- From each place that the search comes to it returns what it returns from the start. -/
theorem Comes.returns (hfollows : Follows t pages rules scan)
    (h : Comes t.mem paddrStart pages flags height p rules start below₀ x i below)
    (hok : nextFreeEntry (flat tmpPaddr) scan p height paddrStart pages flags fuel start below₀ t =
      .ok r) :
    ∃ n fuel', 512 ≤ n + i ∧ searchFrom tmpPaddr scan p height paddrStart pages flags n fuel'
      { i, index := x, below, foundPages := 0 } t = .ok r := by
  have hstart : ∀ {fuel i below}, nextFreeEntry (flat tmpPaddr) scan p height paddrStart pages flags
      fuel i below t = .ok r → ∃ fuel', searchFrom tmpPaddr scan p height paddrStart pages flags 512
        fuel' { i, index := i, below, foundPages := 0 } t = .ok r := by
    intro fuel i below hok
    cases fuel with
    | zero => cases hok
    | succ fuel => exact ⟨fuel, hok⟩
  induction h with
  | start =>
    obtain ⟨fuel', hok⟩ := hstart hok
    exact ⟨512, fuel', by omega, hok⟩
  | @pass x i below below' _ hi hpasses ih =>
    obtain ⟨n, fuel', hn, hret⟩ := ih
    obtain ⟨n, rfl⟩ : ∃ k, n = k + 1 := ⟨n - 1, by omega⟩
    obtain ⟨_, _, hrounds, -⟩ := bind_eq_ok_iff.mp hret
    obtain ⟨flow, t', hround, -⟩ := bind_eq_ok_iff.mp hrounds
    have hnext := hfollows.passes _ below' rfl hi hpasses _ hround
    cases hnext
    refine ⟨n, fuel', by omega, ?_⟩
    rw [← hret]
    exact (searchFrom_next hround).symm
  | @count x i m below _ hi hstops hstrict hrun hfew hm hend ih =>
    obtain ⟨n, fuel', hn, hret⟩ := ih
    obtain ⟨n, rfl⟩ : ∃ k, n = k + 1 := ⟨n - 1, by omega⟩
    have hdone := hfollows.stops { i, index := x, below, foundPages := 0 } rfl hi hstops
    rw [searchFrom_count hdone hi rfl hrun hm hfew hend hstrict] at hret
    obtain ⟨fuel', hret⟩ := hstart hret
    exact ⟨512, fuel', by omega, hret⟩

/-- A search that comes to the end of the table finds nothing. -/
theorem Comes.returns_full (hfollows : Follows t pages rules scan)
    (h : Comes t.mem paddrStart pages flags height p rules start below₀ x i below) (hi : 512 ≤ i)
    (hok : nextFreeEntry (flat tmpPaddr) scan p height paddrStart pages flags fuel start below₀ t =
      .ok r) : r = ((-efull, x :: below), t) := by
  obtain ⟨n, fuel', -, hret⟩ := h.returns hfollows hok
  rw [searchFrom_full (hfollows.ended _ hi) hi, Except.ok.injEq] at hret
  exact hret.symm

/-- A search that comes to space finds it. -/
theorem Comes.returns_found (hfollows : Follows t pages rules scan)
    (h : Comes t.mem paddrStart pages flags height p rules start below₀ x i below) (hi : i < 512)
    {index : List ℕ} (hspace : (rules.stops i ∧ Enough t.mem paddrStart pages flags height p i ∧
      index = x :: below) ∨ ∃ below', rules.finds x i below below' ∧ index = x :: below')
    (hok : nextFreeEntry (flat tmpPaddr) scan p height paddrStart pages flags fuel start below₀ t =
      .ok r) : ∃ found : ℕ, pages ≤ found ∧ r = (((found : ℤ), index), t) := by
  obtain ⟨n, fuel', hn, hret⟩ := h.returns hfollows hok
  obtain ⟨n, rfl⟩ : ∃ k, n = k + 1 := ⟨n - 1, by omega⟩
  rcases hspace with ⟨hstops, henough, rfl⟩ | ⟨below', hfinds, rfl⟩
  · have hdone := hfollows.stops { i, index := x, below, foundPages := 0 } rfl hi hstops
    obtain ⟨found, hpages, hfound⟩ : ∃ found : ℕ, pages ≤ found ∧
        searchFrom tmpPaddr scan p height paddrStart pages flags (n + 1) fuel'
          { i, index := x, below, foundPages := 0 } t = .ok (((found : ℤ), x :: below), t) :=
      searchFrom_found hdone hi rfl henough
    rw [hfound, Except.ok.injEq] at hret
    exact ⟨found, hpages, hret.symm⟩
  · obtain ⟨_, _, hrounds, -⟩ := bind_eq_ok_iff.mp hret
    obtain ⟨flow, t', hround, -⟩ := bind_eq_ok_iff.mp hrounds
    obtain ⟨found, hpages, hflow⟩ := hfollows.finds _ below' rfl hi hfinds _ hround
    cases hflow
    have hfirst : rounds scan (fun v => return (none, v)) (n + 1)
        { i, index := x, below, foundPages := 0 } t = _ := rounds_of_done hround n
    rw [searchFrom, bind_eq_of_ok hfirst] at hret
    cases hret
    exact ⟨found, hpages, rfl⟩

/-- A search that stops at an entry, and does not count it, never returns. -/
theorem Comes.never_returns (hfollows : Follows t pages rules scan)
    (h : Comes t.mem paddrStart pages flags height p rules start below₀ x i below) (hi : i < 512)
    (hpages : 0 < pages) (hstops : rules.stops i)
    (hstrict : isFlagSet flags vmFlagStrict = false)
    (hcounts : counts flags (t.mem p i) paddrStart = false) :
    nextFreeEntry (flat tmpPaddr) scan p height paddrStart pages flags fuel start below₀ t ≠
      .ok r := by
  intro hok
  obtain ⟨n, fuel', hn, hret⟩ := h.returns hfollows hok
  have hend : i + 0 < 512 →
      counts flags (t.mem p (i + 0)) (paddrStart + BitVec.ofNat 64 (0 * 4096)) = false := by
    intro _
    rw [Nat.add_zero, Nat.zero_mul, BitVec.add_zero]
    exact hcounts
  -- each pass ends where it started
  induction fuel' generalizing n x with
  | zero =>
    obtain ⟨n, rfl⟩ : ∃ k, n = k + 1 := ⟨n - 1, by omega⟩
    rw [searchFrom_count (hfollows.stops _ rfl hi hstops) hi rfl (m := 0) (fun k hk => by omega)
      hi.le (by rw [Nat.zero_mul]; exact hpages) hend hstrict] at hret
    cases hret
  | succ fuel' ih =>
    obtain ⟨n, rfl⟩ : ∃ k, n = k + 1 := ⟨n - 1, by omega⟩
    rw [searchFrom_count (hfollows.stops _ rfl hi hstops) hi rfl (m := 0) (fun k hk => by omega)
      hi.le (by rw [Nat.zero_mul]; exact hpages) hend hstrict] at hret
    exact ih (h.count hi hstops hstrict (n := 0) (fun k hk => by omega)
      (by rw [Nat.zero_mul]; exact hpages) hi.le hend) 512 (by omega) hret

/-! ## A search that does not stall returns -/

/-- What a round of the first loop leaves, from the place `v`: it goes past the entry, or it is
left without a result, or with one that is not `-EFULL`. -/
def ScanPost (t : FlatState) (pages : ℕ) (flags : Flags) (rules : ScanRules) (v : Search) :
    FaultState.Flow Search (Option Status × Search) → FlatState → Prop :=
  Flow.post
    (fun v' t' => t' = t ∧ v.i < 512 ∧
      ∃ below, rules.passes v.index v.i v.below below ∧ v' = { v.retry with below })
    fun r t' => t' = t ∧ ((r = (none, v) ∧ (v.i < 512 → rules.stops v.i)) ∨
      ∃ res, r.1 = some res ∧ res ≠ -efull ∧
        (isError res = true → isFlagSet flags vmFlagStrict = true) ∧
        (isError res = false → toSsize pages ≤ res ∧ v.i < 512 ∧ r.2.index = v.index ∧
          rules.finds v.index v.i v.below r.2.below))

/-- What a search leaves that started at `start`. -/
def SearchPost (t : FlatState) (paddrStart : PAddr) (pages : ℕ) (flags : Flags) (height : ℕ)
    (p : PAddr) (rules : ScanRules) (start : ℕ) (below₀ : List ℕ) (r : Status × List ℕ)
    (t' : FlatState) : Prop :=
  t' = t ∧
    (isError r.1 = false → toSsize pages ≤ r.1 ∧ ∃ x i below,
      Comes t.mem paddrStart pages flags height p rules start below₀ x i below ∧ i < 512 ∧
        ((rules.stops i ∧ Enough t.mem paddrStart pages flags height p i ∧ r.2 = x :: below) ∨
          ∃ below', rules.finds x i below below' ∧ r.2 = x :: below')) ∧
    (isError r.1 = true → r.1 = -efull ∨ isFlagSet flags vmFlagStrict = true) ∧
    (r.1 = -efull → ∃ x i below,
      Comes t.mem paddrStart pages flags height p rules start below₀ x i below ∧ 512 ≤ i ∧
        r.2 = x :: below)

theorem natCast_ne_efull (found : ℕ) : (found : ℤ) ≠ -efull := by
  have := Int.natCast_nonneg found
  rw [efull]
  omega

/-- What the first loop of a pass from `i` on leaves: a result, from the level below, or the place
where it stopped. -/
def PassPost (t : FlatState) (paddrStart : PAddr) (pages : ℕ) (flags : Flags) (height : ℕ)
    (p : PAddr) (rules : ScanRules) (start : ℕ) (below₀ : List ℕ) (i : ℕ)
    (r : Option Status × Search) (t' : FlatState) : Prop :=
  t' = t ∧
    ((∃ res, r.1 = some res ∧ res ≠ -efull ∧
        (isError res = true → isFlagSet flags vmFlagStrict = true) ∧
        (isError res = false → toSsize pages ≤ res ∧ ∃ i' below',
          Comes t.mem paddrStart pages flags height p rules start below₀ r.2.index i' below' ∧
            i' < 512 ∧ rules.finds r.2.index i' below' r.2.below)) ∨
      (r.1 = none ∧ r.2.foundPages = 0 ∧ i ≤ r.2.i ∧ (r.2.i < 512 → rules.stops r.2.i) ∧
        Comes t.mem paddrStart pages flags height p rules start below₀ r.2.index r.2.i r.2.below))

/-- The first loop of a pass. -/
theorem firstLoop_ends
    (hscan : ∀ x i below,
      Comes t.mem paddrStart pages flags height p rules start below₀ x i below →
      Total (fun t' => t' = t) (scan { i, index := x, below, foundPages := 0 })
        (ScanPost t pages flags rules { i, index := x, below, foundPages := 0 }))
    (hcomes : Comes t.mem paddrStart pages flags height p rules start below₀ i i below) :
    Total (fun t' => t' = t)
      (rounds scan (fun v => return (none, v)) ptLength { i, index := i, below, foundPages := 0 })
      (PassPost t paddrStart pages flags height p rules start below₀ i) := by
  apply (Total.rounds (fun n v t' => t' = t ∧ 512 ≤ n + v.i ∧ v.foundPages = 0 ∧ i ≤ v.i ∧
    Comes t.mem paddrStart pages flags height p rules start below₀ v.index v.i v.below)
    _ _ 512 _).mono _ fun _ _ h => h
  · rintro n ⟨i', x, below', found⟩
    apply Total.of_start
    rintro _ ⟨rfl, hn, rfl, hle, hplace⟩
    replace hn : 512 ≤ n + 1 + i' := hn
    replace hle : i ≤ i' := hle
    apply (hscan x i' below' hplace).mono fun _ h => h
    rintro (v' | r) t' hpost
    · obtain ⟨rfl, hi', below'', hpasses, rfl⟩ := hpost
      have hnext := hplace.pass hi' hpasses
      exact ⟨rfl, by show 512 ≤ n + (i' + 2); omega, rfl, by show i ≤ i' + 2; omega, hnext⟩
    · obtain ⟨rfl, ⟨rfl, hstops⟩ | ⟨res, hret, hne, hstrict, hres⟩⟩ := hpost
      · exact ⟨rfl, .inr ⟨rfl, rfl, hle, hstops, hplace⟩⟩
      · refine ⟨rfl, .inl ⟨res, hret, hne, hstrict, fun herr => ?_⟩⟩
        obtain ⟨henough, hi', hindex, hfinds⟩ := hres herr
        refine ⟨henough, i', below', ?_, hi', ?_⟩
        · rw [hindex]
          exact hplace
        · rw [hindex]
          exact hfinds
  · rintro ⟨i', x, below', found⟩
    apply Total.pure
    rintro t' ⟨rfl, hn, hfound, hle, hplace⟩
    replace hn : 512 ≤ 0 + i' := hn
    exact ⟨rfl, .inr ⟨rfl, hfound, hle, fun hlt => absurd hlt (by show ¬ i' < 512; omega),
      hplace⟩⟩
  · rintro t' rfl
    exact ⟨rfl, by show 512 ≤ 512 + i; omega, rfl, le_rfl, hcomes⟩

/-- Each pass starts behind the last one. -/
theorem nextFreeEntry_ends
    (hscan : ∀ x i below,
      Comes t.mem paddrStart pages flags height p rules start below₀ x i below →
      Total (fun t' => t' = t) (scan { i, index := x, below, foundPages := 0 })
        (ScanPost t pages flags rules { i, index := x, below, foundPages := 0 }))
    (hcounts : ∀ x i below,
      Comes t.mem paddrStart pages flags height p rules start below₀ x i below → i < 512 →
      rules.stops i → isFlagSet flags vmFlagStrict = false →
      counts flags (t.mem p i) paddrStart = true)
    (hfuel : 0 < fuel) (hbound : 513 ≤ fuel + i)
    (hcomes : Comes t.mem paddrStart pages flags height p rules start below₀ i i below) :
    Total (fun t' => t' = t)
      (nextFreeEntry (flat tmpPaddr) scan p height paddrStart pages flags fuel i below)
      (SearchPost t paddrStart pages flags height p rules start below₀) := by
  have hfull : ¬ isError (-efull) = false := by decide
  have hoverlap : ¬ isError (-eoverlap) = false ∧ -eoverlap ≠ -efull := by decide
  induction fuel generalizing i below with
  | zero => omega
  | succ fuel ih =>
    rw [nextFreeEntry_succ, searchFrom]
    apply Total.bind (firstLoop_ends hscan hcomes)
    rintro ⟨ret, i', x, below', found⟩
    apply Total.of_start
    rintro t' ⟨ht, hret⟩
    obtain rfl := ht.symm
    obtain ⟨res, rfl, hne, hstrict, hres⟩ | ⟨rfl, rfl, hle, hstops, hplace⟩ := hret
    · apply Total.pure
      rintro t' rfl
      refine ⟨rfl, fun herr => ?_, fun herr => .inr (hstrict herr), fun heq => absurd heq hne⟩
      obtain ⟨henough, i'', below'', hplace, hi'', hfinds⟩ := hres herr
      exact ⟨henough, x, i'', below'', hplace, hi'', .inr ⟨below', hfinds, rfl⟩⟩
    replace hle : i ≤ i' := hle
    apply Total.ite
    · intro hend
      apply Total.pure
      rintro t' rfl
      exact ⟨rfl, fun herr => absurd herr hfull, fun _ => .inl rfl,
        fun _ => ⟨x, i', below', hplace, hend, rfl⟩⟩
    intro hend
    replace hend : i' < 512 := by
      rw [ptLength] at hend
      exact not_le.mp hend
    obtain ⟨m, hrun, hm, hfew, hstop⟩ : ∃ m, CountsRun t.mem paddrStart flags p i' m ∧
        i' + m ≤ 512 ∧ (∀ k < m, 0 + k * pagesPerEntry height < pages) ∧
        (pages ≤ 0 + m * pagesPerEntry height ∨ i' + m = 512 ∨ counts flags
          (t.mem p (i' + m)) (paddrStart + BitVec.ofNat 64 (m * 4096)) = false) :=
      exists_count hend.le
    apply Total.bind (Q := fun c t' => t' = t ∧ c = (i' + m, 0 + m * pagesPerEntry height))
      ⟨fun t' ht' => ⟨_, t, by
        rw [ht']
        exact countFree_run m hrun hm hfew hstop (by rw [ptLength]; omega), rfl, rfl⟩⟩
    intro c
    apply Total.of_start
    rintro t' ⟨ht, rfl⟩
    obtain rfl := ht.symm
    apply Total.ite
    · intro hlow
      cases hstrict : isFlagSet flags vmFlagStrict with
      | true =>
        apply Total.pure
        rintro t' rfl
        exact ⟨rfl, fun herr => absurd herr hoverlap.1, fun _ => .inr hstrict,
          fun heq => absurd heq hoverlap.2⟩
      | false =>
        have hstop' := hstop.resolve_left (by omega)
        have hpos : 0 < m := by
          by_contra hzero
          obtain rfl : m = 0 := by omega
          have hnot := hstop'.resolve_left (by omega)
          rw [Nat.add_zero, Nat.zero_mul, BitVec.add_zero,
            hcounts x i' below' hplace hend (hstops hend) hstrict] at hnot
          cases hnot
        exact ih (by omega) (by omega) (hplace.count hend (hstops hend) hstrict hrun (by omega)
          hm fun hlt => hstop'.resolve_left hlt.ne)
    · intro henough
      apply Total.pure
      rintro t' rfl
      exact ⟨rfl, fun _ => ⟨toSsize_le (by omega), x, i', below', hplace, hend,
        .inl ⟨hstops hend, (enough_iff hrun hm hstop).mpr (by omega), rfl⟩⟩,
        fun herr => absurd (isError_natCast _) (by rw [herr]; exact Bool.noConfusion),
        fun heq => absurd heq (natCast_ne_efull _)⟩

/-! ## The search on all levels -/

/-- The first loop on the tables of a level. -/
def scanAt (tmpPaddr : PAddr) (fuel : ℕ) (paddrStart : PAddr) (pages : ℕ) (flags : Flags) :
    ℕ → PAddr → Search → Prog Fault FlatState (FaultState.Flow Search (Option Status × Search))
  | 0, p => scanLeaf (flat tmpPaddr) p pages flags
  | height + 1, p => scanInner (flat tmpPaddr)
      (findSpace (flat tmpPaddr) fuel paddrStart pages flags height) p pages

theorem findSpace_eq (index : List ℕ) :
    findSpace (flat tmpPaddr) fuel paddrStart pages flags height index p =
      nextFreeEntry (flat tmpPaddr) (scanAt tmpPaddr fuel paddrStart pages flags height p) p height
        paddrStart pages flags fuel (index.headD 0) index.tail := by
  cases height <;> rfl

/-- The first loop follows the rules of its level. -/
theorem follows_scanAt (hpages : 0 < pages) (height : ℕ) (p : PAddr) :
    Follows t pages (rulesAt t.mem paddrStart pages flags height p)
      (scanAt tmpPaddr fuel paddrStart pages flags height p) := by
  have hread : ∀ p i, (flat tmpPaddr).read p i t = .ok (t.mem p i, t) := fun _ _ => rfl
  have hlast : ∀ {v : Search}, 512 ≤ v.i → ¬ (v.foundPages < pages ∧ v.i < ptLength) := by
    intro v hv hgo
    rw [ptLength] at hgo
    omega
  have hgo : ∀ {v : Search}, v.foundPages = 0 → v.i < 512 →
      v.foundPages < pages ∧ v.i < ptLength := fun hfound hv => ⟨by omega, hv⟩
  induction height generalizing p with
  | zero =>
    refine ⟨fun v hv => ?_, fun v hfound hv hstops => ?_, fun v below hfound hv hpasses r hr => ?_,
      fun v below hfound hv hfinds => hfinds.elim⟩
    · show scanLeaf _ _ _ _ v t = _
      rw [scanLeaf, if_neg (hlast hv)]
      rfl
    · show scanLeaf _ _ _ _ v t = _
      rw [scanLeaf, if_pos (hgo hfound hv), bind_eq_of_ok (hread p v.i)]
      obtain habs | ⟨hstrict, hmatch⟩ := hstops
      · rw [habs]
        rfl
      · rw [hstrict, hmatch]
        cases present (t.mem p v.i) <;> rfl
    · replace hr : scanLeaf _ _ _ _ v t = .ok r := hr
      obtain ⟨hpres, hstrict, hmatch, rfl⟩ := hpasses
      rw [scanLeaf, if_pos (hgo hfound hv), bind_eq_of_ok (hread p v.i), hpres, hstrict,
        hmatch] at hr
      cases hr
      rfl
  | succ height ih =>
    -- a round that opens a table goes on with what the search in it returns
    have hround : ∀ (v : Search) (r), v.foundPages = 0 → v.i < 512 →
        present (t.mem p v.i) = true → scanInner (flat tmpPaddr) (findSpace (flat tmpPaddr) fuel
          paddrStart pages flags height) p pages v t = .ok r → ∃ c t',
        nextFreeEntry (flat tmpPaddr) (scanAt tmpPaddr fuel paddrStart pages flags height
            (ptePaddr (t.mem p v.index))) (ptePaddr (t.mem p v.index)) height paddrStart pages
          flags fuel (v.below.headD 0) v.below.tail t = .ok (c, t') ∧
        r = (v.afterChild pages c.1 c.2, t') := by
      intro v r hfound hv hpres hr
      rw [scanInner, if_pos (hgo hfound hv), bind_eq_of_ok (hread p v.i), if_pos hpres,
        bind_eq_of_ok (hread p v.index)] at hr
      obtain ⟨c, t₁, hopen, hr⟩ := bind_eq_ok_iff.mp hr
      obtain ⟨q, t₂, hmap, hchild⟩ := bind_eq_ok_iff.mp hopen
      obtain ⟨c', t₃, hchild, hunmap⟩ := bind_eq_ok_iff.mp hchild
      simp only [flat, ptePaddr_ptePaddr] at hmap
      split at hmap
      next => cases hmap
      next =>
        cases hmap
        rw [findSpace_eq] at hchild
        cases hunmap
        cases hr
        exact ⟨c, _, hchild, rfl⟩
    refine ⟨fun v hv => ?_, fun v hfound hv hstops => ?_, fun v below hfound hv hpasses r hr => ?_,
      fun v below hfound hv hfinds r hr => ?_⟩
    · show scanInner _ _ _ _ v t = _
      rw [scanInner, if_neg (hlast hv)]
      rfl
    · show scanInner _ _ _ _ v t = _
      rw [scanInner, if_pos (hgo hfound hv), bind_eq_of_ok (hread p v.i),
        show present (t.mem p v.i) = false from hstops]
      rfl
    · obtain ⟨hpres, x, i, below', hcomes, hi, rfl⟩ := hpasses
      obtain ⟨c, t', hchild, rfl⟩ := hround v r hfound hv hpres hr
      have hfull := hcomes.returns_full (ih _) hi hchild
      cases hfull
      rfl
    · obtain ⟨hpres, x, i, below', hcomes, hi, hspace⟩ := hfinds
      obtain ⟨c, t', hchild, rfl⟩ := hround v r hfound hv hpres hr
      obtain ⟨found, henough, hc⟩ := hcomes.returns_found (ih _) hi hspace hchild
      cases hc
      refine ⟨found, henough, ?_⟩
      rw [Search.afterChild_found v henough hfound]

/-- A search that stalls never returns. -/
theorem Stalls.never_returns (hpages : 0 < pages) {index : List ℕ}
    (h : Stalls t.mem paddrStart pages flags height index p) :
    findSpace (flat tmpPaddr) fuel paddrStart pages flags height index p t ≠ .ok r := by
  rw [findSpace_eq]
  induction height generalizing index p r with
  | zero =>
    obtain ⟨x, i, below, hcomes, hi, hstrict, hpres, hmatch, hne⟩ := h
    apply hcomes.never_returns (follows_scanAt hpages 0 p) hi hpages
      (.inr ⟨hstrict, hmatch⟩) hstrict
    rw [counts, hpres, hmatch, Bool.not_true, Bool.or_false, Bool.true_and, Bool.not_eq_false',
      bne_iff_ne]
    exact hne
  | succ height ih =>
    obtain ⟨x, i, below, hcomes, hi, hpres, hstalls⟩ := h
    intro hok
    obtain ⟨n, fuel', hn, hret⟩ := hcomes.returns (follows_scanAt hpages (height + 1) p) hok
    obtain ⟨n, rfl⟩ : ∃ k, n = k + 1 := ⟨n - 1, by omega⟩
    obtain ⟨_, _, hrounds, -⟩ := bind_eq_ok_iff.mp hret
    obtain ⟨flow, t', hround, -⟩ := bind_eq_ok_iff.mp hrounds
    -- the round opens the table in which the search stalls
    replace hround : scanInner _ _ _ _ _ t = .ok (flow, t') := hround
    have hread : ∀ p i, (flat tmpPaddr).read p i t = .ok (t.mem p i, t) := fun _ _ => rfl
    rw [scanInner, if_pos ⟨hpages, hi⟩, bind_eq_of_ok (hread p i), if_pos hpres,
      bind_eq_of_ok (hread p x)] at hround
    obtain ⟨c, t₁, hopen, -⟩ := bind_eq_ok_iff.mp hround
    obtain ⟨q, t₂, hmap, hchild⟩ := bind_eq_ok_iff.mp hopen
    obtain ⟨c', t₃, hchild, -⟩ := bind_eq_ok_iff.mp hchild
    simp only [flat, ptePaddr_ptePaddr] at hmap
    split at hmap
    next => cases hmap
    next =>
      cases hmap
      rw [findSpace_eq] at hchild
      exact ih hstalls hchild

/-- **A search that does not stall returns.** -/
theorem findSpace_ends {root : PAddr} {level : ℕ} (hpages : 0 < pages) (hfuel : 513 ≤ fuel)
    (hclear : ∀ n ≤ 3, ¬ MayOpen t.mem root n tmpPaddr) (height : ℕ) (index : List ℕ)
    (hp : MayOpen t.mem root level p) (hlevel : level + height = 3)
    (hnot : ¬ Stalls t.mem paddrStart pages flags height index p) :
    Total (fun t' => t' = t)
      (findSpace (flat tmpPaddr) fuel paddrStart pages flags height index p)
      (SearchPost t paddrStart pages flags height p
        (rulesAt t.mem paddrStart pages flags height p) (index.headD 0) index.tail) := by
  rw [findSpace_eq]
  induction height generalizing index p level with
  | zero =>
    apply nextFreeEntry_ends _ _ (by omega) (by omega) .start
    · intro x i below hcomes
      apply Total.ite
      · intro hgo
        apply Total.bind (Q := fun e t' => t' = t ∧ e = t.mem p i)
          (flatTotal_read p i fun t' ht => ⟨ht, by rw [ht]⟩)
        intro e
        apply Total.pure
        rintro t' ⟨ht, rfl⟩
        obtain rfl := ht.symm
        cases hpres : present (t.mem p i) with
        | false => exact ⟨rfl, .inl ⟨rfl, fun _ => .inl hpres⟩⟩
        | true =>
          cases hstrict : isFlagSet flags vmFlagStrict with
          | true => exact ⟨rfl, .inr ⟨_, rfl, by decide, fun _ => hstrict,
              fun herr => absurd herr (by decide)⟩⟩
          | false =>
            cases hmatch : pteFlagsMatch (t.mem p i) flags with
            | true => exact ⟨rfl, .inl ⟨rfl, fun _ => .inr ⟨hstrict, hmatch⟩⟩⟩
            | false => exact ⟨rfl, hgo.2, below, ⟨hpres, hstrict, hmatch, rfl⟩, rfl⟩
      · intro hend
        apply Total.pure
        rintro t' rfl
        exact ⟨rfl, .inl ⟨rfl, fun hlt => absurd ⟨hpages, hlt⟩ hend⟩⟩
    · rintro x i below hcomes hi (habs | ⟨hstrict, hmatch⟩) -
      · exact counts_of_absent habs
      · -- an entry that the first loop stops at is counted, or the search stalls
        cases hpres : present (t.mem p i) with
        | false => exact counts_of_absent hpres
        | true =>
          have heq : ptePaddr (t.mem p i) = paddrStart := by
            by_contra hne
            exact hnot ⟨x, i, below, hcomes, hi, hstrict, hpres, hmatch, hne⟩
          rw [counts, hpres, hmatch, heq, bne_self_eq_false]
          rfl
  | succ height ih =>
    apply nextFreeEntry_ends _ _ (by omega) (by omega) .start
    · intro x i below hcomes
      apply Total.ite
      · intro hgo
        have hx : x < 512 := lt_of_le_of_lt hcomes.le hgo.2
        have hq := hp.step hx
        have hne : ptePaddr (t.mem p x) ≠ tmpPaddr := fun heq =>
          hclear (level + 1) (by omega) (heq ▸ hq)
        apply Total.bind (Q := fun e t' => t' = t ∧ e = t.mem p i)
          (flatTotal_read p i fun t' ht => ⟨ht, by rw [ht]⟩)
        intro e
        apply Total.of_start
        rintro t' ⟨ht, rfl⟩
        obtain rfl := ht.symm
        apply Total.ite
        · intro hpres
          apply Total.bind (Q := fun e t' => t' = t ∧ e = t.mem p x)
            (flatTotal_read p x fun t' ht => ⟨ht, by rw [ht]⟩)
          intro parent
          apply Total.of_start
          rintro t' ⟨ht, rfl⟩
          obtain rfl := ht.symm
          apply Total.bind (flatTotal_withTable _ (by rw [ptePaddr_ptePaddr]; exact hne)
            (Q := SearchPost t paddrStart pages flags height (ptePaddr (t.mem p x))
              (rulesAt t.mem paddrStart pages flags height (ptePaddr (t.mem p x)))
              (below.headD 0) below.tail) _)
          · rintro ⟨res, below'⟩
            apply Total.pure
            rintro t' ⟨rfl, hres, hother, hfull⟩
            rw [Search.afterChild]
            cases herr : isError res with
            | true =>
              by_cases heq : res = -efull
              · have hends := hfull heq
                rw [if_pos rfl, if_pos heq]
                exact ⟨rfl, hgo.2, below', ⟨hpres, hends⟩, rfl⟩
              · rw [if_pos rfl, if_neg heq]
                exact ⟨rfl, .inr ⟨res, rfl, heq, fun _ => (hother herr).resolve_left heq,
                  fun h => by rw [herr] at h; cases h⟩⟩
            | false =>
              obtain ⟨henough, hspace⟩ := hres herr
              have hnonneg : 0 ≤ res := not_lt.mp (of_decide_eq_false herr)
              rw [if_neg Bool.false_ne_true, if_pos henough]
              refine ⟨rfl, .inr ⟨_, rfl, natCast_ne_efull _, fun h => ?_,
                fun _ => ⟨?_, hgo.2, rfl, hpres, hspace⟩⟩⟩
              · rw [isError_natCast] at h
                cases h
              show toSsize pages ≤ ((0 + res.toNat : ℕ) : ℤ)
              rw [Nat.zero_add, Int.toNat_of_nonneg hnonneg]
              exact henough
          · rw [ptePaddr_ptePaddr]
            have hchild := ih below hq (by omega) fun hstalls =>
              hnot ⟨x, i, below, hcomes, hgo.2, hpres, hstalls⟩
            rw [← findSpace_eq] at hchild
            exact hchild
        · intro habs
          apply Total.pure
          rintro t' rfl
          exact ⟨rfl, .inl ⟨rfl, fun _ => Bool.eq_false_of_not_eq_true habs⟩⟩
      · intro hend
        apply Total.pure
        rintro t' rfl
        exact ⟨rfl, .inl ⟨rfl, fun hlt => absurd ⟨hpages, hlt⟩ hend⟩⟩
    · intro x i below hcomes hi hstops _
      exact counts_of_absent hstops

/-! ## A search that returns -/

/-- What one pass returns, it returns with more passes left, and with another `tmp_pt`. -/
theorem transfers_nextFreeEntry {tmpPaddr' : PAddr} {fuel' : ℕ} {scan' : Search →
      Prog Fault FlatState (FaultState.Flow Search (Option Status × Search))}
    (hscan : ∀ v, Transfers id (fun _ => True) (scan v) (scan' v) fun _ _ => True)
    (hfuel : fuel ≤ fuel') (i : ℕ) (below : List ℕ) :
    Transfers id (fun _ => True)
      (nextFreeEntry (flat tmpPaddr) scan p height paddrStart pages flags fuel i below)
      (nextFreeEntry (flat tmpPaddr') scan' p height paddrStart pages flags fuel' i below)
      fun _ _ => True := by
  induction fuel generalizing fuel' i below with
  | zero => exact Transfers.fault _
  | succ fuel ih =>
    obtain ⟨fuel', rfl⟩ : ∃ k, fuel' = k + 1 := ⟨fuel' - 1, by omega⟩
    apply Transfers.bind (Transfers.rounds (fun _ _ => True)
      (fun v => (hscan v).mono (fun _ h => h) fun flow _ _ => by cases flow <;> exact True.intro)
      (fun _ => Transfers.pure fun _ _ => trivial) ptLength _)
    rintro ⟨_ | res, v⟩
    · apply Transfers.ite
      · exact fun _ => Transfers.pure fun _ _ => trivial
      intro _
      apply Transfers.bind (Q := fun _ _ => True) (Transfers.refl _ _)
      rintro ⟨j, found⟩
      apply Transfers.ite
      · intro _
        apply Transfers.ite
        · exact fun _ => Transfers.pure fun _ _ => trivial
        · exact fun _ => ih (by omega) j v.below
      · exact fun _ => Transfers.pure fun _ _ => trivial
    · exact Transfers.pure fun _ _ => trivial

/-- What the search returns, it returns with more passes left, and when `tmp_pt` is nowhere. -/
theorem transfers_findSpace {tmpPaddr' : PAddr} {fuel' : ℕ} (hfuel : fuel ≤ fuel')
    (hnowhere : ∀ p, ptePaddr p ≠ tmpPaddr') (height : ℕ) (index : List ℕ) (p : PAddr) :
    Transfers id (fun _ => True)
      (findSpace (flat tmpPaddr) fuel paddrStart pages flags height index p)
      (findSpace (flat tmpPaddr') fuel' paddrStart pages flags height index p)
      fun _ _ => True := by
  induction height generalizing index p with
  | zero => exact transfers_nextFreeEntry (fun v => Transfers.refl _ _) hfuel _ _
  | succ height ih =>
    apply transfers_nextFreeEntry _ hfuel
    intro v
    apply Transfers.ite
    · intro _
      apply Transfers.bind (Q := fun _ _ => True) (Transfers.refl _ _)
      intro e
      apply Transfers.ite
      · intro _
        apply Transfers.bind (Q := fun _ _ => True) (Transfers.refl _ _)
        intro parent
        apply Transfers.bind (Q := fun _ _ => True)
        · apply Transfers.bind (Q := fun _ _ => True)
          · have hopen : (flat tmpPaddr').mapPageTmp (ptePaddr parent) vmFlagWritable =
                pure (ptePaddr (ptePaddr parent)) := if_neg (hnowhere _)
            rw [hopen]
            show Transfers _ _ (if _ then _ else _) _ _
            split
            · exact Transfers.fault _
            · exact Transfers.refl _ _
          · intro q
            apply Transfers.bind (ih v.below q)
            exact fun _ => Transfers.refl _ _
        · exact fun _ => Transfers.refl _ _
      · exact fun _ => Transfers.refl _ _
    · exact fun _ => Transfers.refl _ _

/-- There is an address that is that of no page, nor the one given. -/
theorem exists_nowhere (root : PAddr) : ∃ q : PAddr, (∀ p, ptePaddr p ≠ q) ∧ root ≠ q := by
  have hodd : ∀ q : PAddr, ptePaddr q ≠ q → ∀ p, ptePaddr p ≠ q := by
    rintro q hq p rfl
    exact hq (ptePaddr_ptePaddr p)
  by_cases hroot : root = 1#64
  · refine ⟨2#64, hodd _ (by decide), ?_⟩
    rw [hroot]
    decide
  · exact ⟨1#64, hodd _ (by decide), hroot⟩

/-- The search from the hint on comes to entries enough, and leaves the indices `index`. -/
def SearchFinds (mem : Tables) (root paddrStart : PAddr) (pages vaddrHint : ℕ) (flags : Flags)
    (index : List ℕ) : Prop :=
  EndsFound mem paddrStart pages flags 3 (rulesAt mem paddrStart pages flags 3)
    (indices vaddrHint) root index

variable {root : PAddr} {vaddrHint : ℕ} {index : List ℕ}

/-- A search that returns, and comes to entries enough, has found them. -/
theorem SearchFinds.returns (hpages : 0 < pages)
    (h : SearchFinds t.mem root paddrStart pages vaddrHint flags index)
    {r : (Status × List ℕ) × FlatState} (hok : findSpace (flat tmpPaddr) fuel paddrStart
      pages flags 3
      (indices vaddrHint) root t = .ok r) : ∃ found : ℕ, r = (((found : ℤ), index), t) := by
  obtain ⟨x, i, below, hcomes, hi, hspace⟩ := h
  rw [findSpace_eq] at hok
  obtain ⟨found, -, hr⟩ := hcomes.returns_found (follows_scanAt hpages 3 root) hi hspace hok
  exact ⟨found, hr⟩

/-- **What a search that returns has found** is what it comes to. -/
theorem searchFinds_of_returns (hpages : 0 < pages) {found : Status} {t' : FlatState}
    (hok : findSpace (flat tmpPaddr) fuel paddrStart pages flags 3 (indices vaddrHint) root t =
      .ok ((found, index), t')) (hfound : isError found = false) :
    SearchFinds t.mem root paddrStart pages vaddrHint flags index := by
  obtain ⟨q, hnowhere, hroot⟩ := exists_nowhere root
  have hok' : findSpace (flat q) (fuel + 513) paddrStart pages flags 3 (indices vaddrHint) root t =
      .ok ((found, index), t') :=
    (transfers_findSpace (by omega) hnowhere 3 _ root).transfers t trivial _ _ hok
  have hclear : ∀ n ≤ 3, ¬ MayOpen t.mem root n q := by
    intro n _ h
    cases h with
    | root => exact hroot rfl
    | step => exact hnowhere _ rfl
  obtain ⟨r, t₁, hends, -, hspace, -⟩ := (findSpace_ends hpages (Nat.le_add_left 513 fuel)
    hclear 3 (indices vaddrHint) .root rfl
    fun hstalls => hstalls.never_returns hpages hok').run t rfl
  rw [hok'] at hends
  cases hends
  exact (hspace hfound).2

/-! ## The search opens no other tables -/

/-- The passes on one table do not come to `tmp_pt` when the rounds of the first loop do not. -/
theorem nextFreeEntry_safe (fuel i : ℕ) (below : List ℕ)
    (hscan : ∀ v, v.index ≤ v.i → Safe strayed (fun t' => t' = t) (scan v)
      (Flow.post (fun v' t' => t' = t ∧ v'.index ≤ v'.i) fun _ t' => t' = t)) :
    Safe strayed (fun t' => t' = t)
      (nextFreeEntry (flat tmpPaddr) scan p height paddrStart pages flags fuel i below)
      fun _ t' => t' = t := by
  have hfuel : Fault.outOfFuel ≠ strayed := fun h => by cases h
  induction fuel generalizing i below with
  | zero => exact Safe.fault hfuel
  | succ fuel ih =>
    rw [nextFreeEntry_succ, searchFrom]
    apply Safe.bind (Q := fun _ t' => t' = t)
    · apply (Safe.rounds (fun v t' => t' = t ∧ v.index ≤ v.i) _ _ 512 _).mono _ fun _ _ h => h
      · rintro v
        constructor
        · constructor
          rintro t' ⟨rfl, hle⟩
          exact (hscan v hle).run t' rfl
        · rintro t' ⟨rfl, hle⟩
          exact (hscan v hle).safe t' rfl
      · exact fun v => Safe.pure fun t' h => h.1
      · rintro t' rfl
        exact ⟨rfl, le_rfl⟩
    · rintro ⟨_ | res, v⟩
      · apply Safe.ite
        · exact fun _ => Safe.pure fun _ h => h
        intro _
        apply Safe.bind (Q := fun _ t' => t' = t)
        · apply (Safe.rounds (fun _ t' => t' = t) _ (fun _ => Safe.pure fun _ h => h) _ _)
          rintro ⟨i', found, paddr⟩
          apply Safe.ite
          · intro _
            apply Safe.bind (Q := fun _ t' => t' = t)
              (Safe.of_total (flatTotal_read p i' fun _ h => h))
            intro e
            split
            · exact Safe.pure fun _ h => h
            · exact Safe.pure fun _ h => h
          · exact fun _ => Safe.pure fun _ h => h
        · rintro ⟨i', found⟩
          apply Safe.ite
          · intro _
            apply Safe.ite
            · exact fun _ => Safe.pure fun _ h => h
            · exact fun _ => ih i' v.below
          · exact fun _ => Safe.pure fun _ h => h
      · exact Safe.pure fun _ h => h

/-- The search does not come to `tmp_pt` when it is none of the tables that it may open. -/
theorem findSpace_safe {root : PAddr} {level : ℕ}
    (hclear : ∀ n ≤ 3, ¬ MayOpen t.mem root n tmpPaddr) (height : ℕ) (index : List ℕ)
    (hp : MayOpen t.mem root level p) (hlevel : level + height = 3) :
    Safe strayed (fun t' => t' = t)
      (findSpace (flat tmpPaddr) fuel paddrStart pages flags height index p)
      fun _ t' => t' = t := by
  rw [findSpace_eq]
  induction height generalizing index p level with
  | zero =>
    apply nextFreeEntry_safe
    intro v hle
    apply Safe.ite
    · intro _
      apply Safe.bind (Q := fun _ t' => t' = t)
        (Safe.of_total (flatTotal_read p v.i fun _ h => h))
      intro e
      apply Safe.pure
      intro t' ht'
      show Flow.post _ _ (if _ then _ else _) t'
      split_ifs
      · exact ht'
      · exact ht'
      · exact ht'
      · exact ⟨ht', Nat.le_succ _⟩
    · exact fun _ => Safe.pure fun _ h => h
  | succ height ih =>
    apply nextFreeEntry_safe
    intro v hle
    apply Safe.ite
    · intro hgo
      have hq := hp.step (lt_of_le_of_lt hle hgo.2)
      have hne : ptePaddr (t.mem p v.index) ≠ tmpPaddr := fun heq =>
        hclear (level + 1) (by omega) (heq ▸ hq)
      apply Safe.bind (Q := fun _ t' => t' = t)
        (Safe.of_total (flatTotal_read p v.i fun _ h => h))
      intro e
      apply Safe.ite
      · intro _
        apply Safe.bind (Q := fun e t' => t' = t ∧ e = t.mem p v.index)
          (Safe.of_total (flatTotal_read p v.index fun t' ht => ⟨ht, by rw [ht]⟩))
        intro parent
        apply Safe.of_start
        rintro t' ⟨ht, rfl⟩
        obtain rfl := ht.symm
        apply Safe.bind (flatSafe_withTable _ (by rw [ptePaddr_ptePaddr]; exact hne)
          (Q := fun _ t' => t' = t) _)
        · rintro ⟨res, below⟩
          apply Safe.pure
          intro t' ht'
          show Flow.post _ _ (Search.afterChild _ _ _ _) t'
          rw [Search.afterChild]
          split_ifs
          · exact ⟨ht', Nat.le_succ _⟩
          · exact ht'
          · exact ht'
          · exact ⟨ht', Nat.le_succ _⟩
          · exact ⟨ht', Nat.le_succ_of_le hle⟩
        · rw [ptePaddr_ptePaddr, findSpace_eq]
          exact ih v.below hq (by omega)
      · exact fun _ => Safe.pure fun _ h => h
    · exact fun _ => Safe.pure fun _ h => h

end Flat

/-! ## The call -/

variable {tmpPaddr root : PAddr} {s : VmState}

/-- `find_space` returns, when it is called for a table at level 0. -/
def SearchEnds (tmpPaddr root : PAddr) (s : VmState) (paddrStart : PAddr) (index : List ℕ)
    (pages : ℕ) (flags : Flags) : Prop :=
  ∃ fuel r s', call root (findSpace (kernel tmpPaddr) fuel paddrStart pages flags 3 index
    (.table root)) s = .ok (r, s')

/-- A search that stalls does not end. -/
theorem Stalls.not_searchEnds (hwin : WindowOk s.tmpPt s.firstFreeTmpIndex)
    (hclear : ∀ n ≤ 3, ¬ MayOpen s.mem root n tmpPaddr) (hpages : 0 < pages) {index : List ℕ}
    (hstalls : Stalls s.mem paddrStart pages flags 3 index root) :
    ¬ SearchEnds tmpPaddr root s paddrStart index pages flags := by
  rintro ⟨fuel, r, s', hok⟩
  have hroot : root ≠ tmpPaddr := by
    rintro rfl
    exact hclear 0 (by omega) .root
  have hsafe : findSpace (flat tmpPaddr) fuel paddrStart pages flags 3 index root s.flat ≠
      .error strayed := (findSpace_safe (t := s.flat) hclear 3 index .root rfl).safe _ rfl
  obtain ⟨t, hflat, -⟩ := call_of_not_strayed (x := fun pt => findSpace (kernel tmpPaddr) fuel
    paddrStart pages flags 3 index pt) (fun _ _ hlevel _ _ hpt => sim_findSpace fuel paddrStart
      pages flags 3 hlevel index hpt) hwin hroot hsafe hok
  exact Stalls.never_returns (t := s.flat) hpages hstalls hflat

/-- **When the search ends.**  For tables that do not lead into the temporary window,
`find_space` returns if and only if it does not come to a leaf entry that
`pte_flags_match` accepts, but that leads to another frame than `paddr_start`. -/
theorem search_ends_iff (hwin : WindowOk s.tmpPt s.firstFreeTmpIndex) (hroom : Room 3 s.tmpPt)
    (hclear : ∀ n ≤ 3, ¬ MayOpen s.mem root n tmpPaddr) (hpages : 0 < pages) (index : List ℕ) :
    SearchEnds tmpPaddr root s paddrStart index pages flags ↔
      ¬ Stalls s.mem paddrStart pages flags 3 index root := by
  constructor
  · intro hends hstalls
    exact hstalls.not_searchEnds hwin hclear hpages hends
  · intro hnot
    have hroot : root ≠ tmpPaddr := by
      rintro rfl
      exact hclear 0 (by omega) .root
    have hends : Total (fun t => t = s.flat) (findSpace (flat tmpPaddr) 513 paddrStart pages flags 3
        index root) _ := findSpace_ends hpages le_rfl hclear 3 index .root rfl hnot
    obtain ⟨r, t, hflat, -⟩ := hends.run s.flat rfl
    obtain ⟨s', hok, -⟩ := flat_call (x := fun pt =>
      findSpace (kernel tmpPaddr) 513 paddrStart pages
      flags 3 index pt) (fun _ _ hlevel _ _ hpt => sim_findSpace 513 paddrStart pages flags 3 hlevel
        index hpt) hwin hroom hroot hflat
    exact ⟨513, r, s', hok⟩

/-- The tables of a list that the search may open: those that the entries lead to, and the one at
the physical address 0. -/
theorem mayOpen_sparse {entries : List Placed} (hzero : ∀ x ∈ entries, x.1 ≠ 0#64)
    (h : MayOpen (sparseTables entries) root n p) : p = 0#64 ∨ p ∈ reach entries root n := by
  induction h with
  | root => exact .inr (List.mem_singleton_self root)
  | @step n i p _ _ ih =>
    have hentry : (p, i, sparseTables entries p i) ∈ entries ∨ sparseTables entries p i = 0#64 :=
      mem_or_eq_zero p i
    rcases hentry with hmem | heq
    · right
      refine List.mem_map.mpr ⟨_, List.mem_filter.mpr ⟨hmem, ?_⟩, rfl⟩
      exact decide_eq_true (ih.resolve_left (hzero _ hmem))
    · left
      rw [heq]
      rfl

theorem not_mayOpen_sparse {entries : List Placed} (hzero : ∀ x ∈ entries, x.1 ≠ 0#64)
    (hout : ∀ n ≤ 3, 0x8000#64 ∉ reach entries root n) :
    ∀ n ≤ 3, ¬ MayOpen (sparseTables entries) root n 0x8000#64 := by
  intro n hn h
  rcases mayOpen_sparse hzero h with heq | hmem
  · exact absurd heq (by decide)
  · exact hout n hn hmem

/-- The flags of the pages of a process that are neither read-only nor executable. -/
def userDataFlags : Flags := vmFlagWritable ||| vmFlagUser

/-- A page of a process at `0x6000`, mapped at the virtual address 0. -/
def userEntries : List Placed :=
  [(0x1000#64, 0, setPte 0x2000#64 userDataFlags), (0x2000#64, 0, setPte 0x3000#64 userDataFlags),
    (0x3000#64, 0, setPte 0x4000#64 userDataFlags), (0x4000#64, 0, setPte 0x6000#64 userDataFlags)]

/-- The search for space from the page after it on ends, so that it does not stall. -/
theorem search_ends_after :
    SearchEnds 0x8000#64 0x1000#64 (sparseState userEntries []) 0x7000#64 (indices 0x1000) 1
        userDataFlags ∧
      ¬ Stalls (sparseTables userEntries) 0x7000#64 1 userDataFlags 3 (indices 0x1000)
        0x1000#64 := by
  have hrun : (call 0x1000#64 (findSpace (kernel 0x8000#64) 1 0x7000#64 1 userDataFlags 3
      (indices 0x1000) (.table 0x1000#64)) (sparseState userEntries [])).toOption.any
      (fun _ => true) = true := by
    decide +kernel
  obtain ⟨⟨r, s'⟩, hok, -⟩ := Except.exists_of_any hrun
  exact ⟨⟨1, r, s', hok⟩, (search_ends_iff window_sparse room_sparse
    (not_mayOpen_sparse (by decide +kernel) (by decide +kernel)) (by decide) _).mp
      ⟨1, r, s', hok⟩⟩

/-- The search for space from the page itself on does not end. -/
theorem not_search_ends_at :
    ¬ SearchEnds 0x8000#64 0x1000#64 (sparseState userEntries []) 0x7000#64 (indices 0) 1
      userDataFlags := by
  apply Stalls.not_searchEnds window_sparse
    (not_mayOpen_sparse (by decide +kernel) (by decide +kernel)) (by decide)
  exact ⟨0, 0, [0, 0, 0], .start, by decide, by decide +kernel,
    ⟨0, 0, [0, 0], .start, by decide, by decide +kernel,
      ⟨0, 0, [0], .start, by decide, by decide +kernel,
        ⟨0, 0, [], .start, by decide, by decide +kernel, by decide +kernel, by decide +kernel,
          by decide +kernel⟩⟩⟩⟩

end Mimik.Vm
