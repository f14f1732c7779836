/-
# When unmapping is exact

`recurse_unmap` keeps one array of indices for the whole call.  When a table is done,
the index of its level stays at `PT_LENGTH`, so the tables after it are skipped; an
entry that is not present counts with all the pages below it, wherever in it the range
begins or ends.  `Fits` describes the ranges for which none of this happens: the walk of
the first address leads to a leaf table in which the range ends, or the range covers
entries that are not present from the first page to the last.  For these the call clears
the leaf entries of the range and reports the number of pages (`unmap_exact_iff`), and
the only pages that lose their mapping besides are those that share one of the cleared
entries.
-/
import Mimik.VmFlat

namespace Mimik.Vm

open FaultState

/-! ## The ranges that fit -/

/-- The entries from `i` on, `n` of them, are not present. -/
def AbsentRun (mem : Tables) (p : PAddr) (i n : ℕ) : Prop :=
  ∀ j, i ≤ j → j < i + n → present (mem p j) = false

/-- The number of pages from the indices on to the end of the table. -/
def toEnd (index : List ℕ) : ℕ := 512 ^ index.length - lin index

/-- From the indices on to the end of the table there is a part of a leaf table, or no
more than entries that are not present, the first of them from its first page on. -/
def Exhausts (mem : Tables) : List ℕ → PAddr → Prop
  | [], _ => True
  | [_], _ => True
  | i :: j :: path, p =>
    if present (mem p i) then
      Exhausts mem (j :: path) (ptePaddr (mem p i)) ∧ AbsentRun mem p (i + 1) (511 - i)
    else lin (j :: path) = 0 ∧ AbsentRun mem p i (512 - i)

/-- The range of `pages` pages from the indices on ends in the same leaf table, or is what
`Exhausts` describes followed by entries that are not present, or consists of entries
that are not present. -/
def Fits (mem : Tables) (pages : ℕ) : List ℕ → PAddr → Prop
  | [], _ => False
  | [i], _ => i + pages ≤ 512
  | i :: j :: path, p =>
    if present (mem p i) then
      Fits mem pages (j :: path) (ptePaddr (mem p i)) ∨
        Exhausts mem (j :: path) (ptePaddr (mem p i)) ∧
          ∃ n, 0 < n ∧ i + n < 512 ∧ pages = toEnd (j :: path) + n * 512 ^ (path.length + 1) ∧
            AbsentRun mem p (i + 1) n
    else
      lin (j :: path) = 0 ∧
        ∃ n, 0 < n ∧ i + n ≤ 512 ∧ pages = n * 512 ^ (path.length + 1) ∧ AbsentRun mem p i n

/-- The tables with the entries of one leaf table cleared, `pages` of them from the place
on. -/
def clearFrom (mem : Tables) (pages : ℕ) : Option (PAddr × ℕ) → Tables
  | none => mem
  | some (q, a) => fun p i => if p = q ∧ a ≤ i ∧ i < min (a + pages) 512 then 0#64 else mem p i

variable {tmpPaddr root p : PAddr} {mem : Tables} {pages : ℕ}

theorem clearFrom_some (q : PAddr) (a : ℕ) (p : PAddr) (i : ℕ) :
    clearFrom mem pages (some (q, a)) p i =
      if p = q ∧ a ≤ i ∧ i < min (a + pages) 512 then 0#64 else mem p i := rfl

/-- Entries are only removed. -/
theorem clearFrom_removes (mem : Tables) (pages : ℕ) (slot : Option (PAddr × ℕ)) (p : PAddr)
    (i : ℕ) : clearFrom mem pages slot p i = mem p i ∨ clearFrom mem pages slot p i = 0#64 := by
  rcases slot with _ | ⟨q, a⟩
  · exact .inl rfl
  · rw [clearFrom_some]
    by_cases h : p = q ∧ a ≤ i ∧ i < min (a + pages) 512
    · exact .inr (if_pos h)
    · exact .inl (if_neg h)

/-- Entries that are not present stay so. -/
theorem AbsentRun.clearFrom {i n : ℕ} (h : AbsentRun mem p i n) (slot : Option (PAddr × ℕ)) :
    AbsentRun (clearFrom mem pages slot) p i n := by
  intro j hj hjn
  rcases clearFrom_removes mem pages slot p j with heq | heq
  · rw [heq]
    exact h j hj hjn
  · rw [heq, present_zero]

/-! ## The loop on a leaf table -/

theorem clearFrom_set (mem : Tables) (p : PAddr) {i c : ℕ} (hi : i < 512) :
    clearFrom (mem.set p i 0#64) c (some (p, i + 1)) = clearFrom mem (c + 1) (some (p, i)) := by
  funext q j
  rw [clearFrom_some, clearFrom_some, Tables.set_apply]
  by_cases hq : q = p
  · subst hq
    by_cases hj : j = i
    · subst hj
      have hout : ¬ (j + 1 ≤ j ∧ j < min (j + 1 + c) 512) := by omega
      have hin : j ≤ j ∧ j < min (j + (c + 1)) 512 := by omega
      rw [if_neg fun h => hout h.2, if_pos ⟨rfl, rfl⟩, if_pos ⟨rfl, hin⟩]
    · have hiff : (i + 1 ≤ j ∧ j < min (i + 1 + c) 512) ↔ (i ≤ j ∧ j < min (i + (c + 1)) 512) := by
        omega
      simp only [hiff, hj, and_false, if_false]
  · rw [if_neg fun h => hq h.1, if_neg fun h => hq h.1, if_neg fun h => hq h.1]

theorem clearFrom_zero (mem : Tables) (p : PAddr) (i : ℕ) :
    clearFrom mem 0 (some (p, i)) = mem := by
  funext q j
  rw [clearFrom_some, if_neg (by omega)]

theorem clearFrom_end (mem : Tables) (p : PAddr) (c : ℕ) :
    clearFrom mem c (some (p, 512)) = mem := by
  funext q j
  rw [clearFrom_some, if_neg (by omega)]

variable (tmpPaddr p pages) in
/-- The loop clears the entries up to the end of the range or of the table, and invalidates as
many pages. -/
theorem unmapLeaf_rounds (n : ℕ) (v : UnmapVars) (t : FlatState) (hv : v.index ≤ 512)
    (hn : 512 ≤ n + v.index) (hpages : v.unmappedPages < pages) :
    ∃ w tlb, rounds (unmapLeaf (flat tmpPaddr) p pages) (fun v => return v) n v t =
        .ok (w, { t with
          mem := clearFrom t.mem (pages - v.unmappedPages) (some (p, v.index))
          tlb }) ∧
      w.unmappedPages = v.unmappedPages + min (pages - v.unmappedPages) (512 - v.index) ∧
      (w.unmappedPages < pages → w.index = 512) ∧
      (v.vaddr < 2 ^ 64 → ∀ x ∈ tlb, x ∈ t.tlb ∧
        ∀ k < min (pages - v.unmappedPages) (512 - v.index),
          x.1 ≠ vpage (wrap64 (v.vaddr + k * pageSize))) := by
  induction n generalizing v t with
  | zero =>
    have h512 : v.index = 512 := by omega
    refine ⟨v, t.tlb, ?_, by omega, fun _ => h512, fun _ x hx => ⟨hx, fun k hk => by omega⟩⟩
    rw [h512, clearFrom_end]
    rfl
  | succ n ih =>
    by_cases h512 : v.index = 512
    · refine ⟨v, t.tlb, ?_, by omega, fun _ => h512, fun _ x hx => ⟨hx, fun k hk => by omega⟩⟩
      rw [h512, clearFrom_end]
      apply rounds_of_done
      rw [unmapLeaf, if_neg (by rw [ptLength]; omega)]
      rfl
    · -- one entry is cleared
      have hround : unmapLeaf (flat tmpPaddr) p pages v t =
          .ok (UnmapVars.advance { v with
              unmappedPages := v.unmappedPages + 1
              vaddr := wrap64 (v.vaddr + pageSize) } pages,
            { t with mem := t.mem.set p v.index 0#64, tlb := t.tlb.invlpg v.vaddr }) := by
        rw [unmapLeaf, if_pos ⟨by rw [ptLength]; omega, hpages⟩]
        rfl
      have hone : pages - v.unmappedPages = (pages - (v.unmappedPages + 1)) + 1 := by omega
      rw [hone, ← clearFrom_set _ _ (by omega)]
      by_cases hdone : pages ≤ v.unmappedPages + 1
      · rw [UnmapVars.advance, if_pos hdone] at hround
        rw [rounds_of_done hround n, Nat.sub_eq_zero_of_le hdone, clearFrom_zero]
        refine ⟨_, _, rfl, ?_, fun hfew => ?_, fun hvaddr x hx => ?_⟩
        · show v.unmappedPages + 1 = _
          omega
        · replace hfew : v.unmappedPages + 1 < pages := hfew
          omega
        · obtain ⟨hmem, hne⟩ := List.mem_filter.mp hx
          refine ⟨hmem, fun k hk => ?_⟩
          obtain rfl : k = 0 := by omega
          rw [Nat.zero_mul, Nat.add_zero, wrap64_of_lt hvaddr]
          exact bne_iff_ne.mp hne
      · rw [UnmapVars.advance, if_neg hdone] at hround
        rw [rounds_of_next hround n]
        obtain ⟨w, tlb, hw, hcount, hindex, htlb⟩ := ih
          { v with
            index := v.index + 1
            unmappedPages := v.unmappedPages + 1
            vaddr := wrap64 (v.vaddr + pageSize) }
          { t with mem := t.mem.set p v.index 0#64, tlb := t.tlb.invlpg v.vaddr }
          (show v.index + 1 ≤ 512 by omega) (show 512 ≤ n + (v.index + 1) by omega)
          (show v.unmappedPages + 1 < pages by omega)
        refine ⟨w, tlb, hw, ?_, hindex, fun hvaddr x hx => ?_⟩
        · rw [hcount]
          show v.unmappedPages + 1 + min (pages - (v.unmappedPages + 1)) (512 - (v.index + 1)) = _
          omega
        · obtain ⟨hmem, hlater⟩ := htlb (Nat.mod_lt _ (by decide)) x hx
          obtain ⟨hmem, hne⟩ := List.mem_filter.mp hmem
          refine ⟨hmem, fun k hk => ?_⟩
          cases k with
          | zero =>
            rw [Nat.zero_mul, Nat.add_zero, wrap64_of_lt hvaddr]
            exact bne_iff_ne.mp hne
          | succ k =>
            replace hlater := hlater k (show k < min (pages - (v.unmappedPages + 1))
              (512 - (v.index + 1)) by omega)
            rw [wrap64, wrap64, Nat.mod_add_mod, Nat.add_assoc] at hlater
            rw [wrap64, Nat.add_mul, Nat.one_mul, Nat.add_comm (k * pageSize)]
            exact hlater

/-! ## The loop above the leaf tables -/

section Inner

variable {child : List ℕ → PAddr → ℕ → Prog Fault FlatState UnmapVars} {height : ℕ}

variable (tmpPaddr child height) in
/-- An entry that is not present counts with all its pages. -/
theorem unmapInner_absent {v : UnmapVars} {t : FlatState} (hv : v.index < 512)
    (hpages : v.unmappedPages < pages) (habs : present (t.mem p v.index) = false) :
    unmapInner (flat tmpPaddr) child height p pages v t =
      .ok (UnmapVars.advance { v with
          unmappedPages := v.unmappedPages + pagesPerEntry height
          vaddr := wrap64 (v.vaddr + pagesPerEntry height * pageSize) } pages, t) := by
  have hread : (flat tmpPaddr).read p v.index t = .ok (t.mem p v.index, t) := rfl
  rw [unmapInner, if_pos ⟨hv, hpages⟩, bind_eq_of_ok hread, habs]
  rfl

variable (height) in
/-- An entry that is present is left to the call for the level below. -/
theorem unmapInner_present {v w : UnmapVars} {t t' : FlatState} (hv : v.index < 512)
    (hpages : v.unmappedPages < pages) (hpres : present (t.mem p v.index) = true)
    (hne : ptePaddr (t.mem p v.index) ≠ tmpPaddr)
    (hchild : child v.below (ptePaddr (t.mem p v.index)) v.vaddr t = .ok (w, t')) :
    unmapInner (flat tmpPaddr) child height p pages v t =
      .ok (UnmapVars.advance { v with
          below := w.index :: w.below
          vaddr := w.vaddr
          unmappedPages := v.unmappedPages + w.unmappedPages } pages, t') := by
  have hread : (flat tmpPaddr).read p v.index t = .ok (t.mem p v.index, t) := rfl
  have hopen : withTable (flat tmpPaddr) (ptePaddr (t.mem p v.index))
      (fun ptVaddr => child v.below ptVaddr v.vaddr) t = .ok (w, t') := by
    have hmap : (flat tmpPaddr).mapPageTmp (ptePaddr (t.mem p v.index)) vmFlagWritable t =
        .ok (ptePaddr (t.mem p v.index), t) := by
      simp only [flat, ptePaddr_ptePaddr, if_neg hne]
      rfl
    rw [withTable, bind_eq_of_ok hmap, bind_eq_of_ok hchild]
    rfl
  rw [unmapInner, if_pos ⟨hv, hpages⟩, bind_eq_of_ok hread, if_pos hpres, bind_eq_of_ok hopen]
  rfl

variable (tmpPaddr child) in
/-- A run of entries that are not present, to the end of the range or of the table. -/
theorem unmapInner_absentRun (k n : ℕ) (v : UnmapVars) (t : FlatState)
    (hn : 512 ≤ n + v.index) (hv : v.index + k ≤ 512) (habs : AbsentRun t.mem p v.index k)
    (hpages : v.unmappedPages < pages)
    (hend : pages = v.unmappedPages + k * pagesPerEntry height ∨
      v.index + k = 512 ∧ v.unmappedPages + k * pagesPerEntry height ≤ pages) :
    ∃ w, rounds (unmapInner (flat tmpPaddr) child height p pages) (fun v => return v) n v t =
        .ok (w, t) ∧
      w.unmappedPages = v.unmappedPages + k * pagesPerEntry height := by
  have hpos : 0 < pagesPerEntry height := Nat.pow_pos (by omega)
  induction k generalizing n v with
  | zero =>
    have h512 : v.index = 512 := by omega
    refine ⟨v, ?_, by omega⟩
    cases n with
    | zero => rfl
    | succ n =>
      apply rounds_of_done
      rw [unmapInner, if_neg (by rw [ptLength]; omega)]
      rfl
  | succ k ih =>
    obtain ⟨n, rfl⟩ : ∃ m, n = m + 1 := ⟨n - 1, by omega⟩
    have hround := unmapInner_absent tmpPaddr child height
      (show v.index < 512 by omega) hpages (habs v.index le_rfl (by omega))
    rw [Nat.add_mul, Nat.one_mul] at hend
    rw [Nat.add_mul, Nat.one_mul]
    by_cases hdone : pages ≤ v.unmappedPages + pagesPerEntry height
    · -- then this was the last entry of the run
      rw [UnmapVars.advance, if_pos hdone] at hround
      refine ⟨_, rounds_of_done hround n, ?_⟩
      show v.unmappedPages + pagesPerEntry height = _
      omega
    · rw [UnmapVars.advance, if_neg hdone] at hround
      rw [rounds_of_next hround n]
      have hrest : AbsentRun t.mem p (v.index + 1) k :=
        fun j hj hjk => habs j (by omega) (by omega)
      obtain ⟨w, hw, hcount⟩ := ih n { v with
          index := v.index + 1
          unmappedPages := v.unmappedPages + pagesPerEntry height
          vaddr := wrap64 (v.vaddr + pagesPerEntry height * pageSize) }
        (show 512 ≤ n + (v.index + 1) by omega) (show v.index + 1 + k ≤ 512 by omega)
        hrest (show v.unmappedPages + pagesPerEntry height < pages by omega)
        (show pages = v.unmappedPages + pagesPerEntry height + k * pagesPerEntry height ∨
          v.index + 1 + k = 512 ∧
            v.unmappedPages + pagesPerEntry height + k * pagesPerEntry height ≤ pages by omega)
      refine ⟨w, hw, ?_⟩
      rw [hcount]
      show v.unmappedPages + pagesPerEntry height + k * pagesPerEntry height = _
      omega

end Inner

/-! ## The recursion -/

/-- No table on the way is `tmp_pt`. -/
def Avoids (tmpPaddr : PAddr) (mem : Tables) : List ℕ → PAddr → Prop
  | [], _ => True
  | [_], _ => True
  | i :: j :: path, p => present (mem p i) = true →
    ptePaddr (mem p i) ≠ tmpPaddr ∧ Avoids tmpPaddr mem (j :: path) (ptePaddr (mem p i))

/-- The end of a table, counted in entries and pages. -/
theorem toEnd_cons {i j : ℕ} {path : List ℕ} (hi : i < 512) (hpath : ∀ i ∈ j :: path, i < 512) :
    toEnd (i :: j :: path) =
      toEnd (j :: path) + (511 - i) * pagesPerEntry (path.length + 1) := by
  have hlt := lin_lt hpath
  have hlin : lin (i :: j :: path) = i * 512 ^ (j :: path).length + lin (j :: path) := rfl
  have hlen : 512 ^ (i :: j :: path).length = 512 * 512 ^ (j :: path).length := by
    rw [List.length_cons, Nat.pow_succ, Nat.mul_comm]
  have hsplit : 512 * 512 ^ (j :: path).length =
      i * 512 ^ (j :: path).length + (511 - i) * 512 ^ (j :: path).length +
        512 ^ (j :: path).length := by
    have h511 : 512 = i + (511 - i) + 1 := by omega
    calc 512 * 512 ^ (j :: path).length
        = (i + (511 - i) + 1) * 512 ^ (j :: path).length := by rw [← h511]
      _ = _ := by rw [Nat.add_mul, Nat.add_mul, Nat.one_mul]
  rw [toEnd, toEnd, hlin, hlen, hsplit, pagesPerEntry, ← List.length_cons (a := j)]
  omega

/-- A walk above the leaf tables has an index for the table and one for the table below. -/
theorem exists_two_of_length {index : List ℕ} {height : ℕ} (h : index.length = height + 1 + 1) :
    ∃ i j path, index = i :: j :: path := by
  obtain ⟨i, index, rfl⟩ := List.exists_cons_of_length_eq_add_one h
  obtain ⟨j, path, rfl⟩ := List.exists_cons_of_length_eq_add_one (Nat.succ.inj h)
  exact ⟨i, j, path, rfl⟩

theorem leafSlot_present {i j : ℕ} {path : List ℕ} (h : present (mem p i) = true) :
    pageTables.leafSlot mem p (i :: j :: path) =
      pageTables.leafSlot mem (ptePaddr (mem p i)) (j :: path) :=
  if_pos h

theorem leafSlot_absent {i j : ℕ} {path : List ℕ} (h : present (mem p i) = false) :
    pageTables.leafSlot mem p (i :: j :: path) = none :=
  if_neg (by show ¬ present (mem p i) = true; rw [h]; exact Bool.false_ne_true)

/-- A table that is exhausted counts to its end. -/
theorem recurseUnmap_exhausts (height : ℕ) (index : List ℕ) (p : PAddr) (t : FlatState)
    (vaddr : ℕ) (hlen : index.length = height + 1) (hidx : ∀ i ∈ index, i < 512)
    (havoid : Avoids tmpPaddr t.mem index p) (hex : Exhausts t.mem index p)
    (hpages : toEnd index ≤ pages) :
    ∃ w tlb, recurseUnmap (flat tmpPaddr) pages height index p vaddr t =
        .ok (w, { t with
          mem := clearFrom t.mem pages (pageTables.leafSlot t.mem p index)
          tlb }) ∧
      w.unmappedPages = toEnd index := by
  induction height generalizing index p t vaddr with
  | zero =>
    obtain ⟨i, rfl⟩ := List.length_eq_one_iff.mp hlen
    have hi := hidx i List.mem_cons_self
    have hend : toEnd [i] = 512 - i := by
      simp [toEnd, lin]
    rw [hend] at hpages ⊢
    obtain ⟨w, tlb, hw, hcount, -⟩ := unmapLeaf_rounds tmpPaddr p pages
      ptLength { index := i, below := [], vaddr, unmappedPages := 0 } t (show i ≤ 512 by omega)
      (show 512 ≤ 512 + i by omega) (show 0 < pages by omega)
    refine ⟨w, tlb, hw, ?_⟩
    rw [hcount]
    show 0 + min (pages - 0) (512 - i) = 512 - i
    omega
  | succ height ih =>
    obtain ⟨i, j, path, rfl⟩ := exists_two_of_length hlen
    have hi := hidx i List.mem_cons_self
    have hidx' : ∀ k ∈ j :: path, k < 512 := fun k hk => hidx k (List.mem_cons_of_mem i hk)
    have hpath : path.length = height := by simpa using hlen
    have hlt : lin (j :: path) < 512 ^ (j :: path).length := lin_lt hidx'
    have hcons := toEnd_cons hi hidx'
    have hpos : 0 < toEnd (j :: path) := by rw [toEnd]; omega
    rw [hpath] at hcons
    rw [Exhausts] at hex
    by_cases hpres : present (t.mem p i) = true
    · rw [if_pos hpres] at hex
      obtain ⟨hne, havoid'⟩ := havoid hpres
      obtain ⟨w, tlb, hw, hcount⟩ := ih (j :: path) (ptePaddr (t.mem p i)) t vaddr
        (by simpa using hlen) hidx' havoid' hex.1 (by omega)
      have hround := unmapInner_present (height + 1)
        (v := { index := i, below := j :: path, vaddr, unmappedPages := 0 }) hi
        (show 0 < pages by omega) hpres hne hw
      rw [leafSlot_present hpres]
      rw [show (0 : ℕ) + w.unmappedPages = toEnd (j :: path) by rw [hcount, Nat.zero_add]] at hround
      by_cases hdone : pages ≤ toEnd (j :: path)
      · rw [UnmapVars.advance, if_pos hdone] at hround
        refine ⟨_, tlb, rounds_of_done hround 511, ?_⟩
        show toEnd (j :: path) = _
        omega
      · rw [UnmapVars.advance, if_neg hdone] at hround
        -- what follows the table is not present
        obtain ⟨x, hx, hxcount⟩ := unmapInner_absentRun tmpPaddr
          (recurseUnmap (flat tmpPaddr) pages height) (511 - i) 511
          { index := i + 1, below := w.index :: w.below, vaddr := w.vaddr,
            unmappedPages := toEnd (j :: path) }
          { t with
            mem := clearFrom t.mem pages
              (pageTables.leafSlot t.mem (ptePaddr (t.mem p i)) (j :: path))
            tlb }
          (show 512 ≤ 511 + (i + 1) by omega) (show i + 1 + (511 - i) ≤ 512 by omega)
          (hex.2.clearFrom _) (show toEnd (j :: path) < pages by omega)
          (.inr ⟨show i + 1 + (511 - i) = 512 by omega, by rw [← hcons]; exact hpages⟩)
        refine ⟨x, tlb, ?_, by rw [hxcount, hcons]⟩
        rw [← hx]
        exact rounds_of_next hround 511
    · rw [if_neg hpres] at hex
      have hzero : toEnd (j :: path) = pagesPerEntry (height + 1) := by
        rw [toEnd, hex.1, pagesPerEntry, List.length_cons, hpath, Nat.sub_zero]
      rw [leafSlot_absent (Bool.not_eq_true _ ▸ hpres)]
      have htotal : (512 - i) * pagesPerEntry (height + 1) = toEnd (i :: j :: path) := by
        rw [hcons, hzero, show 512 - i = (511 - i) + 1 by omega, Nat.add_mul, Nat.one_mul,
          Nat.add_comm]
      obtain ⟨x, hx, hxcount⟩ := unmapInner_absentRun tmpPaddr
        (recurseUnmap (flat tmpPaddr) pages height) (512 - i) ptLength
        { index := i, below := j :: path, vaddr, unmappedPages := 0 } t
        (show 512 ≤ 512 + i by omega) (show i + (512 - i) ≤ 512 by omega) hex.2
        (show 0 < pages by omega)
        (.inr ⟨show i + (512 - i) = 512 by omega, by rw [htotal, Nat.zero_add]; exact hpages⟩)
      refine ⟨x, t.tlb, hx, ?_⟩
      rw [hxcount, htotal, Nat.zero_add]

/-- **A range that fits is counted exactly**, and what is cleared is its part of the leaf
table that the indices lead to. -/
theorem recurseUnmap_fits (height : ℕ) (index : List ℕ) (p : PAddr) (t : FlatState)
    (vaddr : ℕ) (hlen : index.length = height + 1) (hidx : ∀ i ∈ index, i < 512)
    (havoid : Avoids tmpPaddr t.mem index p) (hfits : Fits t.mem pages index p)
    (hpages : 0 < pages) :
    ∃ w tlb, recurseUnmap (flat tmpPaddr) pages height index p vaddr t =
        .ok (w, { t with
          mem := clearFrom t.mem pages (pageTables.leafSlot t.mem p index)
          tlb }) ∧
      w.unmappedPages = pages := by
  induction height generalizing index p t vaddr with
  | zero =>
    obtain ⟨i, rfl⟩ := List.length_eq_one_iff.mp hlen
    have hi := hidx i List.mem_cons_self
    rw [Fits] at hfits
    obtain ⟨w, tlb, hw, hcount, -⟩ := unmapLeaf_rounds tmpPaddr p pages
      ptLength { index := i, below := [], vaddr, unmappedPages := 0 } t (show i ≤ 512 by omega)
      (show 512 ≤ 512 + i by omega) hpages
    refine ⟨w, tlb, hw, ?_⟩
    rw [hcount]
    show 0 + min (pages - 0) (512 - i) = pages
    omega
  | succ height ih =>
    obtain ⟨i, j, path, rfl⟩ := exists_two_of_length hlen
    have hi := hidx i List.mem_cons_self
    have hidx' : ∀ k ∈ j :: path, k < 512 := fun k hk => hidx k (List.mem_cons_of_mem i hk)
    have hlen' : (j :: path).length = height + 1 := by simpa using hlen
    have hpath : path.length = height := by simpa using hlen
    rw [Fits, hpath] at hfits
    by_cases hpres : present (t.mem p i) = true
    · rw [if_pos hpres] at hfits
      obtain ⟨hne, havoid'⟩ := havoid hpres
      rw [leafSlot_present hpres]
      rcases hfits with hfits | ⟨hex, n, hn, hin, htotal, habs⟩
      · -- the range ends in the table below
        obtain ⟨w, tlb, hw, hcount⟩ := ih (j :: path) (ptePaddr (t.mem p i)) t vaddr hlen' hidx'
          havoid' hfits
        have hround := unmapInner_present (height + 1)
          (v := { index := i, below := j :: path, vaddr, unmappedPages := 0 }) hi
          hpages hpres hne hw
        rw [show (0 : ℕ) + w.unmappedPages = pages by rw [hcount, Nat.zero_add],
          UnmapVars.advance, if_pos le_rfl] at hround
        exact ⟨_, tlb, rounds_of_done hround 511, rfl⟩
      · -- the table below is exhausted, and the rest of the range is not present
        have hlt := lin_lt hidx'
        have hpos : 0 < n * 512 ^ (height + 1) := Nat.mul_pos hn (Nat.pow_pos (by omega))
        have hle : toEnd (j :: path) ≤ pages := by
          rw [htotal]
          omega
        obtain ⟨w, tlb, hw, hcount⟩ := recurseUnmap_exhausts height (j :: path)
          (ptePaddr (t.mem p i)) t vaddr hlen' hidx' havoid' hex hle
        have hround := unmapInner_present (height + 1)
          (v := { index := i, below := j :: path, vaddr, unmappedPages := 0 }) hi
          hpages hpres hne hw
        rw [show (0 : ℕ) + w.unmappedPages = toEnd (j :: path) by rw [hcount, Nat.zero_add],
          UnmapVars.advance,
          if_neg (show ¬ pages ≤ toEnd (j :: path) by rw [htotal]; omega)] at hround
        obtain ⟨x, hx, hxcount⟩ := unmapInner_absentRun tmpPaddr
          (recurseUnmap (flat tmpPaddr) pages height) n 511
          { index := i + 1, below := w.index :: w.below, vaddr := w.vaddr,
            unmappedPages := toEnd (j :: path) }
          { t with
            mem := clearFrom t.mem pages
              (pageTables.leafSlot t.mem (ptePaddr (t.mem p i)) (j :: path))
            tlb }
          (show 512 ≤ 511 + (i + 1) by omega) (show i + 1 + n ≤ 512 by omega)
          (habs.clearFrom _) (show toEnd (j :: path) < pages by omega) (.inl htotal)
        refine ⟨x, tlb, ?_, by rw [hxcount, htotal]; rfl⟩
        rw [← hx]
        exact rounds_of_next hround 511
    · rw [if_neg hpres] at hfits
      obtain ⟨-, n, hn, hin, htotal, habs⟩ := hfits
      rw [leafSlot_absent (Bool.not_eq_true _ ▸ hpres)]
      obtain ⟨x, hx, hxcount⟩ := unmapInner_absentRun tmpPaddr
        (recurseUnmap (flat tmpPaddr) pages height) n ptLength
        { index := i, below := j :: path, vaddr, unmappedPages := 0 } t
        (show 512 ≤ 512 + i by omega) hin habs hpages
        (.inl (by rw [htotal]; exact (Nat.zero_add _).symm))
      refine ⟨x, t.tlb, hx, ?_⟩
      rw [hxcount, htotal]
      exact Nat.zero_add _

/-! ## The pages of the range -/

/-- The pages below an entry that is not present have no leaf entry. -/
theorem leafSlot_absentRun {height i n m : ℕ} (h : AbsentRun mem p i n)
    (hm : m < n * 512 ^ (height + 1)) :
    pageTables.leafSlot mem p (digits (height + 1) (i * 512 ^ (height + 1) + m)) = none := by
  have hpos : 0 < 512 ^ (height + 1) := Nat.pow_pos (by omega)
  have hdigit : (i * 512 ^ (height + 1) + m) / 512 ^ (height + 1) = i + m / 512 ^ (height + 1) := by
    rw [Nat.add_comm, Nat.add_mul_div_right _ _ hpos, Nat.add_comm]
  have hlt : m / 512 ^ (height + 1) < n := Nat.div_lt_of_lt_mul (by rwa [Nat.mul_comm])
  have hne : digits height ((i * 512 ^ (height + 1) + m) % 512 ^ (height + 1)) ≠ [] := by
    cases height <;> exact List.cons_ne_nil _ _
  rw [digits, hdigit, Radix.leafSlot_cons hne, if_neg]
  show ¬ present _ = true
  rw [h _ (Nat.le_add_right i _) (Nat.add_lt_add_left hlt i)]
  exact Bool.false_ne_true

/-- The page `k` pages on, in the same leaf table. -/
theorem leafSlot_add (height : ℕ) (index : List ℕ) (p q : PAddr) {a k : ℕ}
    (hlen : index.length = height + 1) (hidx : ∀ i ∈ index, i < 512)
    (h : pageTables.leafSlot mem p index = some (q, a)) (hk : a + k < 512) :
    lin index + k < 512 ^ index.length ∧
      pageTables.leafSlot mem p (digits height (lin index + k)) = some (q, a + k) := by
  induction height generalizing index p with
  | zero =>
    obtain ⟨i, rfl⟩ := List.length_eq_one_iff.mp hlen
    rw [Radix.leafSlot_singleton] at h
    cases h
    have hlin : lin [a] = a := by simp [lin]
    rw [hlin]
    exact ⟨by simpa using hk, rfl⟩
  | succ height ih =>
    obtain ⟨i, j, path, rfl⟩ := exists_two_of_length hlen
    have hlen' : (j :: path).length = height + 1 := by simpa using hlen
    have hidx' : ∀ k ∈ j :: path, k < 512 := fun k hk => hidx k (List.mem_cons_of_mem i hk)
    have hi := hidx i List.mem_cons_self
    by_cases hpres : present (mem p i) = true
    · rw [leafSlot_present hpres] at h
      obtain ⟨hlt, hslot⟩ := ih (j :: path) (ptePaddr (mem p i)) hlen' hidx' h
      rw [hlen'] at hlt
      have hlin : lin (i :: j :: path) + k = i * 512 ^ (height + 1) + (lin (j :: path) + k) := by
        rw [lin, hlen', Nat.add_assoc]
      have hne : digits height (lin (j :: path) + k) ≠ [] := by
        cases height <;> exact List.cons_ne_nil _ _
      rw [hlin, digits_add height hlt, Radix.leafSlot_cons hne]
      refine ⟨?_, (if_pos hpres).trans hslot⟩
      calc i * 512 ^ (height + 1) + (lin (j :: path) + k)
          < i * 512 ^ (height + 1) + 512 ^ (height + 1) := Nat.add_lt_add_left hlt _
        _ = (i + 1) * 512 ^ (height + 1) := by rw [Nat.add_mul, Nat.one_mul]
        _ ≤ 512 * 512 ^ (height + 1) := Nat.mul_le_mul_right _ hi
        _ = 512 ^ (i :: j :: path).length := by
          rw [List.length_cons, hlen', Nat.pow_succ 512 (height + 1), Nat.mul_comm]
    · rw [leafSlot_absent (Bool.not_eq_true _ ▸ hpres)] at h
      cases h

/-- The pages up to the end of a table that is exhausted: those that have a leaf entry have
it in the leaf table that the indices lead to. -/
theorem leafSlot_of_exhausts (height : ℕ) (index : List ℕ) (p : PAddr) {k : ℕ}
    {slot : PAddr × ℕ} (hlen : index.length = height + 1) (hidx : ∀ i ∈ index, i < 512)
    (hex : Exhausts mem index p) (hk : k < toEnd index)
    (hslot : pageTables.leafSlot mem p (digits height (lin index + k)) = some slot) :
    ∃ q a, pageTables.leafSlot mem p index = some (q, a) ∧ slot = (q, a + k) ∧ a + k < 512 := by
  induction height generalizing index p with
  | zero =>
    obtain ⟨i, rfl⟩ := List.length_eq_one_iff.mp hlen
    have hlin : lin [i] = i := by simp [lin]
    rw [toEnd, hlin] at hk
    rw [hlin, digits, Radix.leafSlot_singleton, Option.some.injEq] at hslot
    exact ⟨p, i, rfl, hslot.symm, by simp at hk; omega⟩
  | succ height ih =>
    obtain ⟨i, j, path, rfl⟩ := exists_two_of_length hlen
    have hlen' : (j :: path).length = height + 1 := by simpa using hlen
    have hidx' : ∀ k ∈ j :: path, k < 512 := fun k hk => hidx k (List.mem_cons_of_mem i hk)
    have hi := hidx i List.mem_cons_self
    have hlt := lin_lt hidx'
    have hcons := toEnd_cons hi hidx'
    have hend : toEnd (j :: path) = 512 ^ (height + 1) - lin (j :: path) := by rw [toEnd, hlen']
    rw [show path.length = height by simpa using hlen', pagesPerEntry] at hcons
    rw [hlen'] at hlt
    have hlin : lin (i :: j :: path) = i * 512 ^ (height + 1) + lin (j :: path) := by
      rw [lin, hlen']
    rw [Exhausts] at hex
    by_cases hpres : present (mem p i) = true
    · rw [if_pos hpres] at hex
      rw [leafSlot_present hpres]
      by_cases hin : k < toEnd (j :: path)
      · have hne : digits height (lin (j :: path) + k) ≠ [] := by
          cases height <;> exact List.cons_ne_nil _ _
        rw [hlin, Nat.add_assoc, digits_add height (by omega), Radix.leafSlot_cons hne] at hslot
        exact ih (j :: path) (ptePaddr (mem p i)) hlen' hidx' hex.1 hin
          ((if_pos hpres).symm.trans hslot)
      · -- beyond the table below nothing is present
        have hnone := leafSlot_absentRun (m := k - toEnd (j :: path)) hex.2
          (show _ < (511 - i) * 512 ^ (height + 1) by omega)
        have hsum : (i + 1) * 512 ^ (height + 1) + (k - toEnd (j :: path)) =
            lin (i :: j :: path) + k := by
          rw [hlin, Nat.add_mul, Nat.one_mul]
          omega
        rw [hsum, hslot] at hnone
        cases hnone
    · rw [if_neg hpres] at hex
      rw [hex.1] at hlin hend
      have htotal : (512 - i) * 512 ^ (height + 1) = toEnd (i :: j :: path) := by
        rw [hcons, hend, show 512 - i = (511 - i) + 1 by omega, Nat.add_mul, Nat.one_mul,
          Nat.add_comm]
        rfl
      have hnone := leafSlot_absentRun (m := k) hex.2 (by rw [htotal]; exact hk)
      rw [← Nat.add_zero (i * 512 ^ (height + 1)), ← hlin, hslot] at hnone
      cases hnone

/-- The pages of a range that fits: those that have a leaf entry have it in the leaf table
that the indices lead to. -/
theorem leafSlot_of_fits (height : ℕ) (index : List ℕ) (p : PAddr) {k : ℕ}
    {slot : PAddr × ℕ} (hlen : index.length = height + 1) (hidx : ∀ i ∈ index, i < 512)
    (hfits : Fits mem pages index p) (hk : k < pages) :
    lin index + k < 512 ^ index.length ∧
    (pageTables.leafSlot mem p (digits height (lin index + k)) = some slot →
    ∃ q a, pageTables.leafSlot mem p index = some (q, a) ∧ slot = (q, a + k) ∧ a + k < 512) := by
  induction height generalizing index p with
  | zero =>
    obtain ⟨i, rfl⟩ := List.length_eq_one_iff.mp hlen
    have hlin : lin [i] = i := by simp [lin]
    rw [Fits] at hfits
    rw [hlin, digits, Radix.leafSlot_singleton, Option.some.injEq]
    refine ⟨by rw [List.length_singleton]; omega, fun hslot => ?_⟩
    exact ⟨p, i, rfl, hslot.symm, by omega⟩
  | succ height ih =>
    obtain ⟨i, j, path, rfl⟩ := exists_two_of_length hlen
    have hlen' : (j :: path).length = height + 1 := by simpa using hlen
    have hidx' : ∀ k ∈ j :: path, k < 512 := fun k hk => hidx k (List.mem_cons_of_mem i hk)
    have hi := hidx i List.mem_cons_self
    have hlt := lin_lt hidx'
    have hend : toEnd (j :: path) = 512 ^ (height + 1) - lin (j :: path) := by rw [toEnd, hlen']
    rw [hlen'] at hlt
    have hlin : lin (i :: j :: path) = i * 512 ^ (height + 1) + lin (j :: path) := by
      rw [lin, hlen']
    have hpow : 512 ^ (i :: j :: path).length = 512 * 512 ^ (height + 1) := by
      rw [List.length_cons, hlen', Nat.pow_succ, Nat.mul_comm]
    -- an entry and what lies below it
    have hbound : ∀ m c, m < c * 512 ^ (height + 1) → i + c ≤ 512 →
        i * 512 ^ (height + 1) + m < 512 * 512 ^ (height + 1) := by
      intro m c hm hc
      calc i * 512 ^ (height + 1) + m
          < i * 512 ^ (height + 1) + c * 512 ^ (height + 1) := Nat.add_lt_add_left hm _
        _ = (i + c) * 512 ^ (height + 1) := by rw [Nat.add_mul]
        _ ≤ 512 * 512 ^ (height + 1) := Nat.mul_le_mul_right _ hc
    rw [Fits, show path.length = height by simpa using hlen'] at hfits
    rw [hpow, hlin]
    by_cases hpres : present (mem p i) = true
    · rw [if_pos hpres] at hfits
      rw [leafSlot_present hpres]
      have hbelow : lin (j :: path) + k < 512 ^ (height + 1) →
          pageTables.leafSlot mem p (digits (height + 1)
            (i * 512 ^ (height + 1) + lin (j :: path) + k)) =
          pageTables.leafSlot mem (ptePaddr (mem p i)) (digits height (lin (j :: path) + k)) := by
        intro h
        have hne : digits height (lin (j :: path) + k) ≠ [] := by
          cases height <;> exact List.cons_ne_nil _ _
        rw [Nat.add_assoc, digits_add height h, Radix.leafSlot_cons hne]
        exact if_pos hpres
      rcases hfits with hfits | ⟨hex, n, hn, hin, htotal, habs⟩
      · obtain ⟨hkin, hslot'⟩ := ih (j :: path) (ptePaddr (mem p i)) hlen' hidx' hfits
        rw [hlen'] at hkin
        rw [hbelow hkin]
        refine ⟨?_, hslot'⟩
        rw [Nat.add_assoc]
        exact hbound _ 1 (by omega) (by omega)
      · by_cases hkin : k < toEnd (j :: path)
        · rw [hbelow (by omega), Nat.add_assoc]
          refine ⟨hbound _ 1 (by omega) (by omega), fun hslot => ?_⟩
          exact leafSlot_of_exhausts height (j :: path) (ptePaddr (mem p i)) hlen' hidx'
            hex hkin hslot
        · have hnone := leafSlot_absentRun (m := k - toEnd (j :: path)) habs
            (show _ < n * 512 ^ (height + 1) by omega)
          have hsum : (i + 1) * 512 ^ (height + 1) + (k - toEnd (j :: path)) =
              i * 512 ^ (height + 1) + lin (j :: path) + k := by
            rw [Nat.add_mul, Nat.one_mul]
            omega
          rw [hsum] at hnone
          refine ⟨?_, fun hslot => ?_⟩
          · rw [Nat.add_assoc]
            apply hbound _ (1 + n) _ (by omega)
            rw [Nat.add_mul, Nat.one_mul]
            omega
          · rw [hnone] at hslot
            cases hslot
    · rw [if_neg hpres] at hfits
      obtain ⟨hzero, n, hn, hin, htotal, habs⟩ := hfits
      rw [hzero, Nat.add_zero]
      have hnone := leafSlot_absentRun (m := k) habs (by rw [← htotal]; exact hk)
      refine ⟨hbound k n (by rw [← htotal]; exact hk) hin, fun hslot => ?_⟩
      rw [hnone] at hslot
      cases hslot

/-! ## The call -/

variable {s s' : VmState} {tmpPt : ℕ → Pte} {vaddr : ℕ}

/-- What exact unmapping means: the call returns `pages`, no page of the range is mapped
any more, and every other page has the leaf entry that it had. -/
def UnmapsExactly (tmpPaddr root : PAddr) (s : VmState) (vaddr pages : ℕ) : Prop :=
  ∃ s', call root (vmUnmapPages (kernel tmpPaddr) (.table root) vaddr pages) s = .ok (pages, s') ∧
    (∀ k < pages, s'.leaf tmpPaddr root (vaddr + k * pageSize) = none) ∧
    ∀ u, IsPage u → (∀ k < pages, u ≠ vaddr + k * pageSize) →
      s'.leaf tmpPaddr root u = s.leaf tmpPaddr root u

/-- No page that is mapped outside the range has the leaf entry of a page of the range on
its walk. -/
def Unshared (tmpPaddr root : PAddr) (s : VmState) (vaddr pages : ℕ) : Prop :=
  ∀ u, IsPage u → (∀ k < pages, u ≠ vaddr + k * pageSize) → s.leaf tmpPaddr root u ≠ none →
    ∀ k < pages, ∀ slot, s.leafSlot tmpPaddr root (vaddr + k * pageSize) = some slot →
      slot ∉ s.slots tmpPaddr root u

/-- Tables that do not lead into the window avoid it on every walk. -/
theorem avoids_of_clear (hclear : ¬ LeadsToWindow tmpPaddr tmpPt mem root) (index : List ℕ)
    (p : PAddr) {n : ℕ} (hp : pageTables.At (view tmpPaddr tmpPt mem) root n p)
    (hlen : n + index.length ≤ 4) (hidx : ∀ i ∈ index, i < ptLength) :
    Avoids tmpPaddr mem index p := by
  induction index generalizing p n with
  | nil => trivial
  | cons i index ih =>
    cases index with
    | nil => trivial
    | cons j path =>
      intro hpres
      rw [List.length_cons, List.length_cons] at hlen
      have hne : ∀ m ≤ 3, ∀ q, pageTables.At (view tmpPaddr tmpPt mem) root m q →
          q ≠ tmpPaddr := by
        rintro m hm q hq rfl
        exact hclear ⟨m, hm, hq⟩
      have hstep := hp.step (hidx i List.mem_cons_self)
        (by rw [view_of_ne (hne n (by omega) p hp)]; exact hpres)
      rw [view_of_ne (hne n (by omega) p hp)] at hstep
      exact ⟨hne (n + 1) (by omega) _ hstep, ih _ hstep (by rw [List.length_cons]; omega)
        fun k hk => hidx k (List.mem_cons_of_mem i hk)⟩

/-- Removing entries does not lead into the window. -/
theorem clear_of_clearFrom (hclear : ¬ LeadsToWindow tmpPaddr tmpPt mem root)
    (slot : Option (PAddr × ℕ)) :
    ¬ LeadsToWindow tmpPaddr tmpPt (clearFrom mem pages slot) root := by
  rintro ⟨n, hn, hat⟩
  refine hclear ⟨n, hn, ?_⟩
  have hback : pageTables.At (view tmpPaddr tmpPt mem) root n tmpPaddr ∨ False := by
    apply Radix.At.back (fun _ _ => False) (d := 3) _ hat hn
    rintro m hm q (hq | hq) i hi hpres
    · replace hpres : present (view tmpPaddr tmpPt (clearFrom mem pages slot) q i) = true := hpres
      have hsame : view tmpPaddr tmpPt (clearFrom mem pages slot) q i =
          view tmpPaddr tmpPt mem q i := by
        rw [view] at hpres ⊢
        by_cases hqt : q = tmpPaddr
        · rw [if_pos hqt, view, if_pos hqt]
        · rw [if_neg hqt] at hpres ⊢
          rw [view, if_neg hqt]
          rcases clearFrom_removes mem pages slot q i with heq | heq
          · exact heq
          · rw [heq, present_zero] at hpres
            cases hpres
      rw [hsame] at hpres ⊢
      exact .inl (hq.step hi hpres)
    · cases hq
  exact hback.resolve_right id

/-- The pages of a range that fits are not mapped when their part of the leaf table is
cleared. -/
theorem leaf_clearFrom_range {index : List ℕ} (hlen : index.length = 4)
    (hidx : ∀ i ∈ index, i < 512) (hfits : Fits mem pages index root) {k : ℕ} (hk : k < pages) :
    pageTables.leaf (clearFrom mem pages (pageTables.leafSlot mem root index)) root
      (digits 3 (lin index + k)) = none := by
  rw [Option.eq_none_iff_forall_ne_some]
  intro e he
  have hremoved : ∀ q i,
      clearFrom mem pages (pageTables.leafSlot mem root index) q i = mem q i ∨
        pageTables.present
          (clearFrom mem pages (pageTables.leafSlot mem root index) q i) = false := by
    intro q i
    rcases clearFrom_removes mem pages (pageTables.leafSlot mem root index) q i with h | h
    · exact .inl h
    · exact .inr (by rw [h]; exact present_zero)
  have hrem := Radix.slots_of_removed hremoved he
  obtain ⟨slot, hslot, hpres, hread⟩ := Radix.leaf_eq_some_iff.mp he
  rw [(Radix.leaf_congr hrem).2.1] at hslot
  obtain ⟨q, a, hindex, rfl, hak⟩ :=
    (leafSlot_of_fits 3 index root hlen hidx hfits hk).2 hslot
  -- the entry was cleared
  rw [hindex, clearFrom_some, if_pos ⟨rfl, by omega, by omega⟩] at hread
  rw [← hread] at hpres
  exact Bool.false_ne_true (present_zero.symm.trans hpres)

/-- The page `u` keeps its leaf entry exactly when none of the cleared entries is on its
walk, or it had none. -/
theorem leaf_clearFrom_other {path : List ℕ} {slot : Option (PAddr × ℕ)} :
    pageTables.leaf (clearFrom mem pages slot) root path = pageTables.leaf mem root path ↔
      (pageTables.leaf mem root path ≠ none → ∀ x ∈ pageTables.slots mem root path,
        clearFrom mem pages slot x.1 x.2 = mem x.1 x.2) := by
  have hrem : ∀ q i, clearFrom mem pages slot q i = mem q i ∨
      pageTables.present (clearFrom mem pages slot q i) = false := by
    intro q i
    rcases clearFrom_removes mem pages slot q i with h | h
    · exact .inl h
    · exact .inr (by rw [h]; exact present_zero)
  cases hleaf : pageTables.leaf mem root path with
  | none =>
    refine ⟨fun _ h => absurd rfl h, fun _ => ?_⟩
    rw [Option.eq_none_iff_forall_ne_some]
    intro e he
    rw [(Radix.leaf_congr (Radix.slots_of_removed hrem he)).2.2, hleaf] at he
    cases he
  | some e =>
    refine ⟨fun h _ => Radix.slots_of_removed hrem h, fun h => ?_⟩
    rw [(Radix.leaf_congr (h (Option.some_ne_none e))).2.2, hleaf]

/-- **Exact unmapping.**  For a range that fits, `vm_unmap_pages` unmaps exactly the range
if and only if no other mapped page walks through a leaf entry of the range. -/
theorem unmap_exact_iff (hwin : WindowOk s.tmpPt s.firstFreeTmpIndex) (hroom : Room 3 s.tmpPt)
    (hclear : ¬ LeadsToWindow tmpPaddr s.tmpPt s.mem root) (hpage : IsPage vaddr)
    (hpages : 0 < pages) (hhalf : InHalf vaddr pages)
    (hfits : Fits s.mem pages (indices vaddr) root) :
    UnmapsExactly tmpPaddr root s vaddr pages ↔ Unshared tmpPaddr root s vaddr pages := by
  have hidx : ∀ i ∈ indices vaddr, i < 512 := fun _ hi => indices_lt hi
  have hrange : ∀ k < pages, indices (vaddr + k * pageSize) =
    digits 3 (lin (indices vaddr) + k) := by
    intro k hk
    rw [indices_eq_digits, (hhalf.page hpage.2.2 hk).2, lin_indices]
  -- the run on the machine without a window
  obtain ⟨w, tlb, hw, hcount⟩ := recurseUnmap_fits 3 (indices vaddr) root
    s.flat vaddr rfl hidx (avoids_of_clear hclear _ _ .root le_rfl hidx) hfits hpages
  have hflat : vmUnmapPages (flat tmpPaddr) root vaddr pages s.flat =
      .ok (pages, { s.flat with
        mem := clearFrom s.mem pages (pageTables.leafSlot s.mem root (indices vaddr))
        tlb }) := by
    rw [vmUnmapPages, check, if_pos (by rw [decide_eq_true_eq]; exact hpage.2.2), check,
      if_pos (by rw [decide_eq_true_eq]; exact hpages)]
    show (recurseUnmap (flat tmpPaddr) pages 3 (indices vaddr) root vaddr >>=
      fun v => pure v.unmappedPages) s.flat = _
    rw [bind_eq_of_ok hw, hcount]
    rfl
  have hroot : root ≠ tmpPaddr := by
    rintro rfl
    exact hclear ⟨0, by omega, .root⟩
  obtain ⟨s', hok, hleaves⟩ := flat_call (x := fun pt => vmUnmapPages (kernel tmpPaddr) pt vaddr
    pages) (fun _ _ hlevel _ _ hpt => sim_vmUnmapPages hlevel hpt vaddr pages)
    hwin hroom hroot hflat
  have hleaf : ∀ u, s.leaf tmpPaddr root u = pageTables.leaf s.mem root (indices u) :=
    fun u => (walk_view hclear u).2.2
  have hleaf' : ∀ u, s'.leaf tmpPaddr root u = pageTables.leaf
      (clearFrom s.mem pages (pageTables.leafSlot s.mem root (indices vaddr))) root
      (indices u) := by
    intro u
    rw [VmState.leaf, VmState.tables, hleaves.tmpPt_eq, hleaves.mem_eq]
    exact (walk_view (clear_of_clearFrom hclear _) u).2.2
  have hslot : ∀ u, s.leafSlot tmpPaddr root u = pageTables.leafSlot s.mem root (indices u) :=
    fun u => (walk_view hclear u).2.1
  have hslots : ∀ u, s.slots tmpPaddr root u = pageTables.slots s.mem root (indices u) :=
    fun u => (walk_view hclear u).1
  -- the entries that are cleared are the leaf entries of the range
  have hcleared : ∀ x : PAddr × ℕ, x.2 < 512 →
      (∃ k < pages, s.leafSlot tmpPaddr root (vaddr + k * pageSize) = some x) ∨
        clearFrom s.mem pages (pageTables.leafSlot s.mem root (indices vaddr)) x.1 x.2 =
          s.mem x.1 x.2 := by
    rintro ⟨q, i⟩ hi
    cases hindex : pageTables.leafSlot s.mem root (indices vaddr) with
    | none => exact .inr rfl
    | some slot =>
      obtain ⟨q', a⟩ := slot
      rw [clearFrom_some]
      by_cases hin : q = q' ∧ a ≤ i ∧ i < min (a + pages) 512
      · obtain ⟨rfl, hai, hmin⟩ := hin
        refine .inl ⟨i - a, by omega, ?_⟩
        rw [hslot, hrange _ (by omega),
          (leafSlot_add 3 _ root q rfl hidx hindex (k := i - a) (by omega)).2]
        congr 2
        omega
      · exact .inr (if_neg hin)
  constructor
  · rintro ⟨s₁, hok₁, -, hother⟩ u hu hout hmapped k hk slot hkslot hmem
    rw [hok] at hok₁
    cases hok₁
    have hsame := hother u hu hout
    rw [hleaf', hleaf, leaf_clearFrom_other] at hsame
    rw [hslots] at hmem
    rw [hleaf] at hmapped
    have hkeep := hsame hmapped slot hmem
    rw [hslot, hrange k hk] at hkslot
    obtain ⟨q, a, hindex, rfl, hak⟩ :=
      (leafSlot_of_fits 3 (indices vaddr) root rfl hidx hfits hk).2 hkslot
    rw [hindex, clearFrom_some, if_pos ⟨rfl, by omega, by omega⟩] at hkeep
    obtain ⟨e, he⟩ := Option.ne_none_iff_exists'.mp hmapped
    have hpres := Radix.present_of_mem_slots he hmem
    rw [← hkeep] at hpres
    exact Bool.false_ne_true (present_zero.symm.trans hpres)
  · intro hunshared
    refine ⟨s', hok, fun k hk => ?_, fun u hu hout => ?_⟩
    · rw [hleaf', hrange k hk]
      exact leaf_clearFrom_range rfl hidx hfits hk
    · rw [hleaf', hleaf, leaf_clearFrom_other]
      intro hmapped x hx
      have hlt : x.2 < 512 :=
        (Radix.At.root.slots (fun _ hi => indices_lt hi) hx).choose_spec.2.2.2
      refine (hcleared x hlt).resolve_left ?_
      rintro ⟨k, hk, hkslot⟩
      exact hunshared u hu hout (by rw [hleaf]; exact hmapped) k hk x hkslot
        (by rw [hslots]; exact hx)

/-- The only page of a small address space is unmapped exactly. -/
theorem unmap_exact_only :
    UnmapsExactly 0x8000#64 0x1000#64
      (rowState (fun i => if i = 0 then 0x5003#64 else 0#64) vmFlagWritable []) 0 1 := by
  have hfits : Fits (rowTables (fun i => if i = 0 then 0x5003#64 else 0#64) vmFlagWritable) 1
      (indices 0) 0x1000#64 := by
    have hone : ∀ p, p = 0x1000#64 ∨ p = 0x2000#64 ∨ p = 0x3000#64 → ∀ path,
        Fits (rowTables (fun i => if i = 0 then 0x5003#64 else 0#64) vmFlagWritable) 1 (0 :: path)
          (p + 0x1000#64) →
        Fits (rowTables (fun i => if i = 0 then 0x5003#64 else 0#64) vmFlagWritable) 1
          (0 :: 0 :: path) p := by
      intro p hp path h
      have hpres : (present (rowTables (fun i => if i = 0 then 0x5003#64 else 0#64) vmFlagWritable
            p 0) = true ↔ 0 = 0) ∧
          ptePaddr (rowTables (fun i => if i = 0 then 0x5003#64 else 0#64) vmFlagWritable p 0) =
            p + 0x1000#64 := present_rowTables hp
      rw [Fits, if_pos (hpres.1.mpr rfl), hpres.2]
      exact .inl h
    apply hone _ (.inl rfl)
    apply hone _ (.inr (.inl rfl))
    apply hone _ (.inr (.inr rfl))
    show 0 + 1 ≤ 512
    omega
  rw [unmap_exact_iff window_rowState room_rowState clear_rowTables
    ⟨by decide, by decide, by decide⟩ (by decide) (.inl (by decide)) hfits]
  intro u hu hout hmapped
  -- no other page is mapped
  refine absurd ?_ hmapped
  rw [VmState.leaf, VmState.tables]
  show pageTables.leaf (view 0x8000#64 _ (rowTables _ vmFlagWritable)) 0x1000#64 (indices u) = none
  rw [(walk_view clear_rowTables u).2.2, Option.eq_none_iff_forall_ne_some]
  intro e he
  obtain ⟨slot, hslot, hpres, hread⟩ := Radix.leaf_eq_some_iff.mp he
  rw [indices, leafSlot_rowTables] at hslot
  split at hslot
  next hzero =>
    cases hslot
    by_cases hd : u >>> 12 % 512 = 0
    · refine hout 0 (by omega) (hu.ext ⟨by decide, by decide, by decide⟩ ?_)
      simp only [Nat.shiftRight_eq_div_pow] at hzero hd
      simp only [pageNumber, pageSize]
      omega
    · rw [show rowTables _ vmFlagWritable 0x4000#64 (u >>> 12 % 512) = 0#64 from
        (if_pos rfl).trans (if_neg hd)] at hread
      rw [← hread] at hpres
      exact Bool.false_ne_true (present_zero.symm.trans hpres)
  next => cases hslot

/-- A single page below an entry that is not present counts as 512 pages. -/
theorem not_unmap_exact_absent :
    ¬ UnmapsExactly 0x8000#64 0x1000#64
      (rowState (fun i => if i = 0 then 0x5003#64 else 0#64) vmFlagWritable []) 0x200000 1 := by
  rintro ⟨s', hok, -⟩
  have hrun : (call 0x1000#64 (vmUnmapPages (kernel 0x8000#64) (.table 0x1000#64) 0x200000 1)
      (rowState (fun i => if i = 0 then 0x5003#64 else 0#64) vmFlagWritable [])).toOption.any
      (fun x => x.1 == 512) = true := by
    decide +kernel
  obtain ⟨r, hr, htest⟩ := Except.exists_of_any hrun
  rw [hok] at hr
  cases hr
  exact absurd htest (by show ¬ (1 == 512) = true; decide)

end Mimik.Vm
