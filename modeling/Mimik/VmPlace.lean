/-
# Where pages are placed

Without `VM_FLAG_STRICT` the search moves on from a range that is taken, and the address that
`vm_map_pages` returns is put together from the indices at which it has ended.  They are the
hint's only if the search has not moved at all (`EndsFound.countsFree`): past an entry that is
present `*index` has gone on by one and `i` by two, and the indices of the levels below are what
the last search there has left.

So a range that is free is placed rightly when it begins at the hint and lies in a leaf table that
there is; and a search that finds nothing is right when there is nothing to find
(`places_right_iff`).
-/
import Mimik.VmStrict

namespace Mimik.Vm

open FaultState

/-! ## Searches that do not move -/

section Search

variable {mem : Tables} {paddrStart p : PAddr} {pages height start x i : ℕ} {flags : Flags}
  {rules : ScanRules} {index index' below₀ below : List ℕ}

/-- The flags of the kernel's pages, which are not refused when they overlap others. -/
structure KernelFlags (flags : Flags) : Prop where
  user : isFlagSet flags vmFlagUser = false
  strict : isFlagSet flags vmFlagStrict = false

/-- With such flags a search stops only at an entry that is not present. -/
theorem KernelFlags.absent_of_stops (hflags : KernelFlags flags)
    (hstops : (rulesAt mem paddrStart pages flags height p).stops i) :
    present (mem p i) = false := by
  cases height with
  | zero =>
    rcases hstops with habs | ⟨-, hmatch⟩
    · exact habs
    · rw [pteFlagsMatch_eq_false (.inr (.inl hflags.user))] at hmatch
      cases hmatch
  | succ height => exact hstops

/-- With such flags only entries that are not present count. -/
theorem KernelFlags.absent_of_countsFree (hflags : KernelFlags flags) {q : PAddr}
    (hslot : pageTables.leafSlot mem p index = some (q, i))
    (h : CountsFree mem paddrStart pages flags index p) :
    ∀ k < pages, present (mem q (i + k)) = false := by
  obtain ⟨-, n, -, henough, hrun⟩ := (countsFree_iff hslot).mp h
  rw [pagesPerEntry, Nat.pow_zero, Nat.mul_one] at henough
  intro k hk
  have hcounts := hrun k (by omega)
  rw [counts, pteFlagsMatch_eq_false (.inr (.inl hflags.user)), Bool.not_false, Bool.or_true,
    Bool.and_true, Bool.not_eq_true'] at hcounts
  exact hcounts

/-- A place with the first `*index` is the first one. -/
theorem Comes.eq_start (hstops : ∀ i, rules.stops i → present (mem p i) = false)
    (h : Comes mem paddrStart pages flags height p rules start below₀ x i below) :
    start ≤ x ∧ (x = start → i = start ∧ below = below₀) := by
  induction h with
  | start => exact ⟨le_rfl, fun _ => ⟨rfl, rfl⟩⟩
  | pass hplace _ _ ih =>
    have hle := hplace.le
    exact ⟨by omega, fun heq => by omega⟩
  | @count x i n below hplace _ hstop _ _ _ _ hend ih =>
    have hle := hplace.le
    have hpos : 0 < n := by
      by_contra hzero
      obtain rfl : n = 0 := by omega
      -- the entry that the loop stops at is counted
      have hcounts := hend (by omega)
      rw [Nat.add_zero, counts_of_absent (hstops i hstop)] at hcounts
      cases hcounts
    exact ⟨by omega, fun heq => by omega⟩

/-- A search that ends with the indices it has begun with has found entries enough there. -/
theorem EndsFound.countsFree (hflags : KernelFlags flags) (hlen : index.length = height + 1)
    (hidx : ∀ i ∈ index, i < 512)
    (hsame : ∀ k ≤ height, index'.getD k 0 % 512 = index.getD k 0)
    (h : EndsFound mem paddrStart pages flags height (rulesAt mem paddrStart pages flags height)
      index p index') : CountsFree mem paddrStart pages flags index p := by
  induction height generalizing index index' p with
  | zero =>
    obtain ⟨j, rfl⟩ := List.length_eq_one_iff.mp hlen
    obtain ⟨x, i, below, hcomes, hi, ⟨hstops, henough, rfl⟩ | ⟨_, hfinds, -⟩⟩ := h
    · have hx : x % 512 = j := hsame 0 le_rfl
      rw [Nat.mod_eq_of_lt (lt_of_le_of_lt hcomes.le hi)] at hx
      obtain ⟨rfl, -⟩ := (hcomes.eq_start fun _ => hflags.absent_of_stops).2 hx
      exact ⟨hflags.absent_of_stops hstops, henough⟩
    · exact hfinds.elim
  | succ height ih =>
    obtain ⟨j, index, rfl⟩ := List.exists_cons_of_length_eq_add_one hlen
    have hlen' : index.length = height + 1 := by simpa using hlen
    obtain ⟨k, path, rfl⟩ := List.exists_cons_of_length_eq_add_one hlen'
    have hpath : path.length = height := by simpa using hlen'
    obtain ⟨x, i, below, hcomes, hi, hspace⟩ := h
    have hx : x = j := by
      rw [← Nat.mod_eq_of_lt (lt_of_le_of_lt hcomes.le hi)]
      rcases hspace with ⟨-, -, rfl⟩ | ⟨_, -, rfl⟩
      · exact hsame 0 (Nat.zero_le _)
      · exact hsame 0 (Nat.zero_le _)
    obtain ⟨rfl, rfl⟩ := (hcomes.eq_start fun _ => hflags.absent_of_stops).2 hx
    replace hx : x = i := hx
    subst hx
    rw [CountsFree]
    rcases hspace with ⟨hstops, henough, rfl⟩ | ⟨below', ⟨hpres, hfound⟩, rfl⟩
    · have habs : present (mem p x) = false := hstops
      rw [habs, if_neg Bool.false_ne_true, hpath]
      exact henough
    · rw [hpres, if_pos rfl]
      exact ih hlen' (fun l hl => hidx l (List.mem_cons_of_mem x hl))
        (fun l hl => hsame (l + 1) (by omega)) hfound

/-- Where there are entries enough from the end of a walk on, the search does not move. -/
theorem CountsFree.endsFound (hlen : index.length = height + 1) (hidx : ∀ i ∈ index, i < 512)
    (h : CountsFree mem paddrStart pages flags index p) :
    EndsFound mem paddrStart pages flags height (rulesAt mem paddrStart pages flags height)
      index p index := by
  induction height generalizing index p with
  | zero =>
    obtain ⟨j, rfl⟩ := List.length_eq_one_iff.mp hlen
    exact ⟨j, j, [], .start, hidx j List.mem_cons_self, .inl ⟨.inl h.1, h.2, rfl⟩⟩
  | succ height ih =>
    obtain ⟨j, index, rfl⟩ := List.exists_cons_of_length_eq_add_one hlen
    have hlen' : index.length = height + 1 := by simpa using hlen
    obtain ⟨k, path, rfl⟩ := List.exists_cons_of_length_eq_add_one hlen'
    have hpath : path.length = height := by simpa using hlen'
    refine ⟨j, j, k :: path, .start, hidx j List.mem_cons_self, ?_⟩
    rw [CountsFree, hpath] at h
    cases hpres : present (mem p j) with
    | true =>
      rw [hpres, if_pos rfl] at h
      exact .inr ⟨k :: path, ⟨hpres, ih hlen' (fun l hl => hidx l (List.mem_cons_of_mem j hl)) h⟩,
        rfl⟩
    | false =>
      rw [hpres, if_neg Bool.false_ne_true] at h
      exact .inl ⟨hpres, h, rfl⟩

end Search

/-! ## Searches that find nothing -/

section NoSpace

variable {mem : Tables} {root paddrStart p : PAddr} {pages height vaddrHint : ℕ} {flags : Flags}
  {index index' : List ℕ}

/-- No table that may be opened, at or behind the hint's entry of the root table, has entries
enough. -/
structure NoSpace (mem : Tables) (root paddrStart : PAddr) (pages vaddrHint : ℕ) (flags : Flags) :
    Prop where
  inRoot : ∀ i < 512, (indices vaddrHint).headD 0 ≤ i →
    ¬ Enough mem paddrStart pages flags 3 root i
  below : ∀ j < 512, (indices vaddrHint).headD 0 ≤ j → ∀ n ≤ 2, ∀ p,
    MayOpen mem (ptePaddr (mem root j)) n p → ∀ i < 512,
      ¬ Enough mem paddrStart pages flags (2 - n) p i

/-- Entries enough are enough for the pages. -/
theorem Enough.le {i : ℕ} (h : Enough mem paddrStart pages flags height p i) :
    pages ≤ (512 - i) * 512 ^ height := by
  obtain ⟨n, hn, henough, -⟩ := h
  exact henough.trans (Nat.mul_le_mul_right _ (by omega))

/-- There is no space for more pages than there are behind the hint's entry of the root table. -/
theorem noSpace_of_lt (h : (512 - (indices vaddrHint).headD 0) * 512 ^ 3 < pages) :
    NoSpace mem root paddrStart pages vaddrHint flags := by
  have hhead : (indices vaddrHint).headD 0 < 512 := Nat.mod_lt _ (by decide)
  constructor
  · intro i _ hi henough
    have hle := henough.le.trans (Nat.mul_le_mul_right (512 ^ 3) (Nat.sub_le_sub_left hi 512))
    omega
  · intro j _ _ n hn p _ i _ henough
    have hheight : (512 - i) * 512 ^ (2 - n) ≤ 512 * 512 ^ 2 :=
      Nat.mul_le_mul (Nat.sub_le 512 i) (Nat.pow_le_pow_right (by decide) (by omega))
    have hle := henough.le.trans hheight
    omega

/-- A search that ends has come to a table with entries enough. -/
theorem EndsFound.enough (h : EndsFound mem paddrStart pages flags height
      (rulesAt mem paddrStart pages flags height) index p index') :
    ∃ n ≤ height, ∃ q, MayOpen mem p n q ∧ ∃ i < 512,
      Enough mem paddrStart pages flags (height - n) q i := by
  induction height generalizing index index' p with
  | zero =>
    obtain ⟨x, i, below, -, hi, ⟨-, henough, -⟩ | ⟨_, hfinds, -⟩⟩ := h
    · exact ⟨0, le_rfl, p, .root, i, hi, henough⟩
    · exact hfinds.elim
  | succ height ih =>
    obtain ⟨x, i, below, hcomes, hi, ⟨-, henough, -⟩ | ⟨_, ⟨-, hfound⟩, -⟩⟩ := h
    · exact ⟨0, Nat.zero_le _, p, .root, i, hi, henough⟩
    · obtain ⟨n, hn, q, hopen, j, hj, henough⟩ := ih hfound
      refine ⟨n + 1, by omega, q, ?_, j, hj, ?_⟩
      · exact hopen.of_entry (lt_of_le_of_lt hcomes.le hi)
      · rwa [show height + 1 - (n + 1) = height - n by omega]

/-- Then no search finds space. -/
theorem NoSpace.not_finds (h : NoSpace mem root paddrStart pages vaddrHint flags)
    (hflags : KernelFlags flags) (index : List ℕ) :
    ¬ SearchFinds mem root paddrStart pages vaddrHint flags index := by
  rintro ⟨x, i, below, hcomes, hi, hspace⟩
  have hle := hcomes.le
  obtain ⟨hx, -⟩ := hcomes.eq_start fun _ => hflags.absent_of_stops
  rcases hspace with ⟨-, henough, -⟩ | ⟨_, ⟨-, hfound⟩, -⟩
  · exact h.inRoot i hi (hx.trans hle) henough
  · obtain ⟨n, hn, q, hopen, j, hj, henough⟩ := hfound.enough
    exact h.below x (lt_of_le_of_lt hle hi) hx n hn q hopen j hj henough

end NoSpace

/-! ## The call -/

section Call

variable {tmpPaddr root paddrStart : PAddr} {pages fuel vaddrHint v : ℕ} {flags : Flags}
  {t : FlatState} {s : VmState} {index : List ℕ}

/-- What the search from the hint on returns. -/
theorem findSpace_places (hclear : ∀ n ≤ 3, ¬ MayOpen t.mem root n tmpPaddr)
    (hflags : KernelFlags flags) (hpages : 0 < pages) (hfuel : 513 ≤ fuel) (paddrStart : PAddr)
    (vaddrHint : ℕ) :
    (∃ (found : ℕ) (index : List ℕ),
      SearchFinds t.mem root paddrStart pages vaddrHint flags index ∧
      findSpace (flat tmpPaddr) fuel paddrStart pages flags 3 (indices vaddrHint) root t =
        .ok (((found : ℤ), index), t)) ∨
    (∀ index, ¬ SearchFinds t.mem root paddrStart pages vaddrHint flags index) ∧
      ∃ index, findSpace (flat tmpPaddr) fuel paddrStart pages flags 3 (indices vaddrHint) root t =
        .ok ((-efull, index), t) := by
  have hnot : ¬ Stalls t.mem paddrStart pages flags 3 (indices vaddrHint) root :=
    not_stalls (.inr (.inr (.inl hflags.user))) _
  obtain ⟨⟨res, index⟩, t', hok, rfl, hfound, herror, -⟩ :=
    (findSpace_ends hpages hfuel hclear 3 (indices vaddrHint) .root rfl hnot).run t rfl
  cases herr : isError res with
  | false =>
    obtain ⟨-, hfinds⟩ := hfound herr
    obtain ⟨found, heq⟩ := SearchFinds.returns hpages hfinds hok
    cases heq
    exact .inl ⟨found, index, hfinds, hok⟩
  | true =>
    obtain rfl : res = -efull := (herror herr).resolve_right (by rw [hflags.strict]; decide)
    refine .inr ⟨fun index' hfinds => ?_, index, hok⟩
    obtain ⟨found, heq⟩ := hfinds.returns hpages hok
    cases heq

/-- The search comes to entries enough in one way only. -/
theorem SearchFinds.unique (hclear : ∀ n ≤ 3, ¬ MayOpen t.mem root n tmpPaddr)
    (hflags : KernelFlags flags) (hpages : 0 < pages) {index' : List ℕ}
    (h : SearchFinds t.mem root paddrStart pages vaddrHint flags index)
    (h' : SearchFinds t.mem root paddrStart pages vaddrHint flags index') : index = index' := by
  rcases findSpace_places hclear hflags hpages le_rfl paddrStart vaddrHint with
    ⟨_, _, -, hok⟩ | ⟨hnone, -⟩
  · obtain ⟨_, heq⟩ := h.returns hpages hok
    obtain ⟨_, heq'⟩ := h'.returns hpages hok
    cases heq
    cases heq'
    rfl
  · exact absurd h (hnone index)

/-- The address that is put together from indices has them, up to the ends of the tables. -/
theorem indices_hintOf (vaddrHint : ℕ) (index : List ℕ) : indices (hintOf vaddrHint index) =
    [index.getD 0 0 % 512, index.getD 1 0 % 512, index.getD 2 0 % 512, index.getD 3 0 % 512] := by
  have hoff : vaddrHint % pageSize < 4096 := Nat.mod_lt _ (by decide)
  simp only [indices, hintOf, Nat.shiftRight_eq_div_pow, Nat.shiftLeft_eq]
  generalize (if (index.getD 0 0).testBit 8 = true then 65535 else _) = high
  generalize vaddrHint % pageSize = offset at hoff ⊢
  simp only [List.cons.injEq, and_true]
  omega

/-- Tables that the search may not open are not walked. -/
theorem not_leadsToWindow {tmpPt : ℕ → Pte} {mem : Tables}
    (hclear : ∀ n ≤ 3, ¬ MayOpen mem root n tmpPaddr) :
    ¬ LeadsToWindow tmpPaddr tmpPt mem root := by
  have hopen : ∀ {n p}, TableOf root mem n p → MayOpen mem root n p := by
    intro n p h
    induction h with
    | root => exact .root
    | step _ hi _ ih => exact ih.step hi
  rintro ⟨n, hn, hat⟩
  exact hclear n hn (hopen ((at_view (fun m hm htable => hclear m hm (hopen htable)) hn).mp hat))

/-- An address at or above the hint, in its half, from which on `pages` pages are not mapped. -/
structure Run (tmpPaddr root : PAddr) (s : VmState) (pages vaddrHint v : ℕ) : Prop where
  page : IsPage v
  above : vaddrHint ≤ v
  half : InHalf v pages
  sameHalf : v < 2 ^ 47 ↔ vaddrHint < 2 ^ 47
  unmapped : ∀ k < pages, s.leaf tmpPaddr root (v + k * pageSize) = none

/-- What placement promises: the lowest run is mapped, and without a run there is `-EFULL`. -/
structure PlacesRight (tmpPaddr root : PAddr) (s : VmState) (fuel : ℕ) (paddrStart : PAddr)
    (pages vaddrHint : ℕ) (flags : Flags) : Prop where
  lowest : ∀ v, IsLeast {u | Run tmpPaddr root s pages vaddrHint u} v → ∃ s',
    call root (vmMapPages (source tmpPaddr) fuel (.table root) paddrStart pages vaddrHint flags) s =
      .ok ((success, v), s')
  full : (∀ u, ¬ Run tmpPaddr root s pages vaddrHint u) → ∃ v s',
    call root (vmMapPages (source tmpPaddr) fuel (.table root) paddrStart pages vaddrHint flags) s =
      .ok ((-efull, v), s')

/-- A run has no more pages than there are behind the hint's entry of the root table. -/
theorem Run.le {v : ℕ} (h : Run tmpPaddr root s pages vaddrHint v) (hpage : IsPage vaddrHint) :
    pages ≤ (512 - (indices vaddrHint).headD 0) * 512 ^ 3 := by
  have habove := h.above
  have hhalf := h.half
  have hsame := h.sameHalf
  obtain ⟨hlt, hcanon, -⟩ := hpage
  rw [canonical_iff hlt] at hcanon
  have hhead : (indices vaddrHint).headD 0 = vaddrHint / 2 ^ 39 % 512 := by
    rw [indices, List.headD_cons, Nat.shiftRight_eq_div_pow]
  rw [hhead]
  simp only [InHalf, pageSize] at hhalf
  omega

/-- In both cases the call returns. -/
theorem PlacesRight.returns
    (h : PlacesRight tmpPaddr root s fuel paddrStart pages vaddrHint flags) : ∃ r s',
    call root (vmMapPages (source tmpPaddr) fuel (.table root) paddrStart pages vaddrHint flags) s =
      .ok (r, s') := by
  classical
  by_cases hrun : ∃ u, Run tmpPaddr root s pages vaddrHint u
  · exact ⟨_, h.lowest _ ⟨Nat.find_spec hrun, fun _ hu => Nat.find_min' hrun hu⟩⟩
  · obtain ⟨v, s', hok⟩ := h.full fun u hu => hrun ⟨u, hu⟩
    exact ⟨_, s', hok⟩

/-- A range that lies free in a leaf table is a run. -/
theorem LiesFree.run (hclear : ¬ LeadsToWindow tmpPaddr s.tmpPt s.mem root)
    (hpage : IsPage vaddrHint) (h : LiesFree s.mem root pages vaddrHint) :
    Run tmpPaddr root s pages vaddrHint vaddrHint := by
  obtain ⟨p, i, hslot, hfit, habs⟩ := h
  have hunmapped := (unmapped_iff hslot hfit).mpr habs
  refine ⟨hpage, le_rfl, ?_, Iff.rfl, fun k hk => (walk_view hclear _).2.2.trans (hunmapped k hk)⟩
  have hindices : indices vaddrHint = [vaddrHint >>> 39 % 512, vaddrHint >>> 30 % 512,
      vaddrHint >>> 21 % 512] ++ [vaddrHint >>> 12 % 512] := rfl
  rw [hindices] at hslot
  obtain ⟨rfl, -⟩ := Radix.leafSlot_append _ hslot
  obtain ⟨hlt, hcanon, hal⟩ := hpage
  rw [canonical_iff hlt] at hcanon
  simp only [InHalf, pageSize, ptLength, Nat.shiftRight_eq_div_pow] at hfit hal ⊢
  omega

/-- **When placement is right.**  `vm_map_pages` for the kernel's pages, without `STRICT`, maps
the lowest run at or above the hint, or returns `-EFULL` when there is none, if the range at the
hint lies free in a leaf table that there is, or if there is no run and no table with entries
enough.  Where the range at the hint is a run, or counts as free, the former is the only way. -/
theorem places_right_iff (hwin : WindowOk s.tmpPt s.firstFreeTmpIndex)
    (hclosed : ∀ i < 511, present (s.tmpPt i) = false)
    (hclear : ∀ n ≤ 3, ¬ MayOpen s.mem root n tmpPaddr)
    (hordered : Ordered tmpPaddr s.tmpPt root s.mem s.frames) (htmp : tmpPaddr ∉ s.frames)
    (hpaddr : paddrStart.toNat % pageSize = 0) (hpage : IsPage vaddrHint) (hpages : 0 < pages)
    (hflags : KernelFlags flags) (hfuel : 513 ≤ fuel) :
    (LiesFree s.mem root pages vaddrHint ∨
        (∀ u, ¬ Run tmpPaddr root s pages vaddrHint u) ∧
          NoSpace s.mem root paddrStart pages vaddrHint flags →
      PlacesRight tmpPaddr root s fuel paddrStart pages vaddrHint flags) ∧
    (Run tmpPaddr root s pages vaddrHint vaddrHint ∨
        CountsFree s.mem paddrStart pages flags (indices vaddrHint) root →
      (PlacesRight tmpPaddr root s fuel paddrStart pages vaddrHint flags ↔
        LiesFree s.mem root pages vaddrHint)) := by
  have hwindow : ¬ LeadsToWindow tmpPaddr s.tmpPt s.mem root := not_leadsToWindow hclear
  have hsound : Sound tmpPaddr root s.flat := hordered.sound hwindow htmp
  have hroot : root ≠ tmpPaddr := by
    rintro rfl
    exact hclear 0 (by omega) .root
  have hleast : Run tmpPaddr root s pages vaddrHint vaddrHint →
      IsLeast {u | Run tmpPaddr root s pages vaddrHint u} vaddrHint :=
    fun hrun => ⟨hrun, fun _ hu => hu.above⟩
  have hsearch := findSpace_places (t := s.flat) hclear hflags hpages hfuel paddrStart vaddrHint
  -- the search stays at the hint where the range counts as free
  have hfinds : CountsFree s.mem paddrStart pages flags (indices vaddrHint) root → ∃ found : ℕ,
      findSpace (flat tmpPaddr) fuel paddrStart pages flags 3 (indices vaddrHint) root s.flat =
        .ok (((found : ℤ), indices vaddrHint), s.flat) := by
    intro hcounts
    have hhint : SearchFinds s.flat.mem root paddrStart pages vaddrHint flags (indices vaddrHint) :=
      hcounts.endsFound rfl fun _ hi => indices_lt hi
    rcases hsearch with ⟨found, index, hother, hok⟩ | ⟨hnone, -⟩
    · obtain rfl := SearchFinds.unique hclear hflags hpages hother hhint
      exact ⟨found, hok⟩
    · exact absurd hhint (hnone _)
  have hfree : LiesFree s.mem root pages vaddrHint →
      PlacesRight tmpPaddr root s fuel paddrStart pages vaddrHint flags := by
    intro hfree
    have hrun := hfree.run hwindow hpage
    obtain ⟨found, hok⟩ := hfinds (hfree.countsFree hpages)
    refine ⟨fun v hv => ?_, fun hnone => absurd hrun (hnone _)⟩
    rw [hv.unique (hleast hrun)]
    exact (source_found hwin hclosed hsound hpaddr hpage hpages hok).2 hfree
  have hfull : (∀ u, ¬ Run tmpPaddr root s pages vaddrHint u) →
      NoSpace s.mem root paddrStart pages vaddrHint flags →
      PlacesRight tmpPaddr root s fuel paddrStart pages vaddrHint flags := by
    intro hnone hspace
    refine ⟨fun v hv => absurd hv.1 (hnone v), fun _ => ⟨vaddrHint, ?_⟩⟩
    rcases hsearch with ⟨found, index, hfound, -⟩ | ⟨-, index, hok⟩
    · exact absurd hfound (hspace.not_finds hflags index)
    · exact (source_refused hwin hclosed hroot hpaddr hpage hpages hok (by decide) _).mpr rfl
  -- a call that is right at the hint has found it there
  have hcounts : PlacesRight tmpPaddr root s fuel paddrStart pages vaddrHint flags →
      Run tmpPaddr root s pages vaddrHint vaddrHint →
      CountsFree s.mem paddrStart pages flags (indices vaddrHint) root := by
    intro hright hrun
    obtain ⟨s', hcall⟩ := hright.lowest vaddrHint (hleast hrun)
    rcases hsearch with ⟨found, index, hfound, hok⟩ | ⟨-, index, hok⟩
    · obtain ⟨hstray, hplaced⟩ := bare_placed hsound hpaddr hpage.2.2 hpages hok
      obtain ⟨t, hbare⟩ := (call_source_iff hwin hclosed hroot hstray).mp ⟨s', hcall⟩
      have hhint : vaddrHint = hintOf vaddrHint index :=
        congrArg Prod.snd ((hplaced _ t).mp hbare).1
      apply EndsFound.countsFree hflags rfl (fun _ hi => indices_lt hi) _ hfound
      have hindices := indices_hintOf vaddrHint index
      rw [← hhint] at hindices
      intro k hk
      rw [hindices]
      interval_cases k <;> rfl
    · have hrefused := (source_refused hwin hclosed hroot hpaddr hpage hpages hok (by decide)
        (success, vaddrHint)).mp ⟨s', hcall⟩
      cases hrefused
  refine ⟨fun h => h.elim hfree fun hnone => hfull hnone.1 hnone.2, fun hstays => ⟨?_, hfree⟩⟩
  intro hright
  have hcounts' := hstays.elim (hcounts hright) id
  obtain ⟨found, hok⟩ := hfinds hcounts'
  obtain ⟨r, s', hcall⟩ := hright.returns
  obtain ⟨-, ⟨q, i⟩, hslot⟩ :=
    (source_found hwin hclosed hsound hpaddr hpage hpages hok).1 r s' hcall
  exact hcounts'.liesFree hslot fun _ => hflags.absent_of_countsFree hslot hcounts'

/-- Behind two pages of a leaf table the lowest run is the next page. -/
theorem run_beside (vaddrHint : ℕ) (hhint : vaddrHint ≤ 0x2000) :
    Run 0x8000#64 0x1000#64 (sparseState besideEntries [0x9000#64, 0xa000#64, 0xb000#64]) 1
      vaddrHint 0x2000 where
  page := ⟨by decide, by decide, by decide⟩
  above := hhint
  half := .inl (by decide)
  sameHalf := ⟨fun _ => by omega, fun _ => by decide⟩
  unmapped := by decide +kernel

/-- The page behind two pages of a leaf table is mapped at the hint, and more pages than there are
addresses are refused. -/
theorem places_right_beside :
    PlacesRight 0x8000#64 0x1000#64 (sparseState besideEntries [0x9000#64, 0xa000#64, 0xb000#64])
        513 0xc000#64 1 0x2000 vmFlagWritable ∧
      PlacesRight 0x8000#64 0x1000#64 (sparseState besideEntries [0x9000#64, 0xa000#64, 0xb000#64])
        513 0xc000#64 (2 ^ 36 + 1) 0x2000 vmFlagWritable := by
  have hpage : IsPage 0x2000 := ⟨by decide, by decide, by decide⟩
  constructor
  · apply (places_right_iff window_sparse closed_sparse
      (not_mayOpen_sparse (by decide +kernel) (by decide +kernel)) ordered_beside_spare (by decide)
      (by decide) hpage (by decide) ⟨by decide, by decide⟩ le_rfl).1
    exact .inl ⟨0x4000#64, 2, by decide +kernel, by decide, by decide +kernel⟩
  · apply (places_right_iff window_sparse closed_sparse
      (not_mayOpen_sparse (by decide +kernel) (by decide +kernel)) ordered_beside_spare (by decide)
      (by decide) hpage (by decide) ⟨by decide, by decide⟩ le_rfl).1
    refine .inr ⟨fun u hu => ?_, noSpace_of_lt (by decide)⟩
    exact absurd (hu.le hpage) (by decide)

/-- From the first of the two pages on the second one is returned, which is mapped. -/
theorem not_places_right_second :
    ¬ PlacesRight 0x8000#64 0x1000#64
      (sparseState besideEntries [0x9000#64, 0xa000#64, 0xb000#64]) 513 0xc000#64 1 0
      vmFlagWritable := by
  intro hright
  have hmapped : ∀ u ∈ [0, 0x1000], (sparseState besideEntries
      [0x9000#64, 0xa000#64, 0xb000#64]).leaf 0x8000#64 0x1000#64 u ≠ none := by
    decide +kernel
  have hleast : IsLeast {u | Run 0x8000#64 0x1000#64 (sparseState besideEntries
      [0x9000#64, 0xa000#64, 0xb000#64]) 1 0 u} 0x2000 := by
    refine ⟨run_beside 0 (by decide), fun u hu => ?_⟩
    by_contra hlt
    have hal := hu.page.2.2
    rw [pageSize] at hal
    have hmem : u ∈ [0, 0x1000] := by
      rw [List.mem_cons, List.mem_singleton]
      omega
    exact hmapped u hmem (hu.unmapped 0 (by decide))
  obtain ⟨s', hok⟩ := hright.lowest _ hleast
  have hrun : (call 0x1000#64 (vmMapPages (source 0x8000#64) 513 (.table 0x1000#64) 0xc000#64 1 0
      vmFlagWritable) (sparseState besideEntries
        [0x9000#64, 0xa000#64, 0xb000#64])).toOption.any (fun x => x.1.2 == 0x1000) = true := by
    decide +kernel
  obtain ⟨⟨r, s₁⟩, hok', htest⟩ := Except.exists_of_any hrun
  rw [hok] at hok'
  cases hok'
  cases htest

end Call

end Mimik.Vm
