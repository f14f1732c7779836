/-
# How a slab grows

`alloc_slab` is called each time a slab has run out of chunks: it asks `mm_map` for
the page at `PAGEALIGNUP(s->end)` and carves chunks from `s->end` on, for as long as
`next < p`, the end of the new page.  This module follows any number of such calls
on one slab, from `mm_init` on, with `mm_map` granting the page at the hint.

* Below `SLAB_4096` the carving leaves off less than one chunk before the end of the
  last page, and the next call resumes there.  A chunk is smaller than a page, so
  that every page brings at least one chunk, and the rounding of `s->end` finds the
  page after the last one.
* In `SLAB_4096` a chunk is as large as the page that was mapped for it, and the
  comparison `next < p` is strict: no chunk is ever carved.
* The last page of the address space brings no chunk either, since `p` wraps to `0`.
-/
import Mimik.SlabInvariant

namespace Mimik.SlabHeap

/-! ## Successive calls -/

/-- `SLAB_4096`, the largest class. -/
def slab4096 : ℕ := 15

/-- What `alloc_slab` makes of a slab once `mm_map` has returned `p`. -/
def growSlab (type p : ℕ) (s : Slab) : Slab :=
  let chunkSize := slabSize type
  let p := wrap64 (p + slabGrowSize)
  carve chunkSize p (p - s.endAddr) (wrap64 (s.endAddr + chunkSize)) s

/-- A slab, and the pages that `mm_map` has returned for it, in this order. -/
structure Growth where
  slab : Slab
  pages : List ℕ

/-- The slab `type` after `mm_init`. -/
def Growth.start (type : ℕ) : Growth := { slab := mmInit.slabs type, pages := [] }

/-- `alloc_slab`, with `mm_map` returning the page at the hint. -/
def Growth.call (type : ℕ) (g : Growth) : Except Fault Growth := do
  assert (type < slabMax) "s->type < SLAB_MAX"
  let p := pageAlignUp g.slab.endAddr
  assert (p != 0) "p != 0"
  return { slab := growSlab type p g.slab, pages := g.pages ++ [p] }

/-- The slab after `n` calls. -/
def Growth.after (type : ℕ) : ℕ → Except Fault Growth
  | 0 => .ok (start type)
  | n + 1 => do
    let g ← after type n
    g.call type

/-- **The calls followed here are those of the heap.**  Whenever `mm_map` returns the
page at the hint, `alloc_slab` leaves the slab that `Growth.call` computes. -/
theorem allocSlab_eq_call {env : HeapEnv} {h h₁ : Heap} {type : ℕ} (pages : List ℕ)
    (hmap : mmMap env h type (pageAlignUp (h.slabs type).endAddr) =
      (pageAlignUp (h.slabs type).endAddr, h₁)) :
    allocSlab env h type =
      (Growth.call type ⟨h.slabs type, pages⟩).map fun g => h₁.setSlab type g.slab := by
  unfold allocSlab Growth.call growSlab
  simp only [hmap]
  by_cases htype : type < slabMax
  · by_cases hp : pageAlignUp (h.slabs type).endAddr = 0
    · simp [htype, hp, Bind.bind, Except.bind, Except.map]
    · have hp' : (pageAlignUp (h.slabs type).endAddr != 0) = true := by simpa using hp
      simp [htype, hp', Bind.bind, Except.bind, Except.map, pure, Except.pure]
  · simp [htype, Bind.bind, Except.bind, Except.map]

/-! ## What growing without gaps means -/

/-- All chunks ever added to the slab are the consecutive intervals of `slab_size`
bytes from `start` to `end`, and they lie in the pages mapped for it. -/
structure Growth.Laid (type : ℕ) (g : Growth) : Prop where
  chunks : ∃ l m, g.slab.freelist = some l ∧
    l.Perm ((List.range m).map fun i => g.slab.start + i * slabSize type) ∧
    g.slab.endAddr = g.slab.start + m * slabSize type
  inside : ∀ b, g.slab.start ≤ b → b < g.slab.endAddr →
    ∃ page ∈ g.pages, page ≤ b ∧ b < page + pageSize

/-- A call takes the slab from `g` to `g'` as it should: it asks for the page directly
after the `k` pages that are mapped already, and adds at least one chunk. -/
structure Growth.Adds (type k : ℕ) (g g' : Growth) : Prop where
  mapped : g.pages = (List.range k).map fun j => g.slab.start + j * pageSize
  asks : g'.pages = g.pages ++ [g.slab.start + k * pageSize]
  adds : ∃ l new, g.slab.freelist = some l ∧ g'.slab.freelist = some (new ++ l) ∧ new ≠ []

/-- The first `n` calls of `alloc_slab` carve without gaps: each returns, is as it
should be, and leaves a slab that is laid out without gaps. -/
def CarvesWithoutGaps (type n : ℕ) : Prop :=
  ∀ k < n, ∃ g g', Growth.after type k = .ok g ∧ Growth.after type (k + 1) = .ok g' ∧
    Growth.Adds type k g g' ∧ Growth.Laid type g'

/-! ## Sizes and addresses of all classes -/

/-- Below `SLAB_4096`, a chunk is smaller than a page, by at least 1024 bytes. -/
theorem slabSize_lt_page {type : ℕ} (ht : type < slab4096) :
    0 < slabSize type ∧ slabSize type ≤ 3072 := by
  have hall : ∀ t < slab4096, 0 < slabSize t ∧ slabSize t ≤ 3072 := by decide
  exact hall type ht

/-- Carving moves the end of a slab, not its start. -/
theorem carve_start (c p : ℕ) :
    ∀ (n next : ℕ) (s : Slab), (carve c p n next s).start = s.start := by
  intro n
  induction n with
  | zero =>
    intro next s
    rfl
  | succ n ih =>
    intro next s
    unfold carve
    split
    · rw [ih]
    · rfl

/-- Nothing is carved when the next chunk would reach the end of the page. -/
theorem carve_of_le {c p next : ℕ} (n : ℕ) (s : Slab) (h : p ≤ next) :
    carve c p n next s = s := by
  cases n with
  | zero => rfl
  | succ n =>
    unfold carve
    rw [if_neg (by omega)]

/-! ## One call -/

/-- The slab after `k` calls: its pages are the first `k`, and it was carved up to
less than one chunk before their end. -/
structure Growth.CarvedTo (type k : ℕ) (g : Growth) : Prop where
  start_eq : g.slab.start = slabBase type
  pages_eq : g.pages = (List.range k).map (pageAt type)
  carved : ∃ m, g.slab.endAddr = chunkAt type m ∧
    (∃ l, g.slab.freelist = some l ∧ l.Perm ((List.range m).map (chunkAt type))) ∧
    ((k = 0 ∧ m = 0) ∨
      (chunkAt type m < pageAt type k ∧ pageAt type k ≤ chunkAt type (m + 1)))

/-- `mm_init` has carved nothing. -/
theorem Growth.carvedTo_start (type : ℕ) : Growth.CarvedTo type 0 (start type) where
  start_eq := rfl
  pages_eq := rfl
  carved := by
    refine ⟨0, ?_, ⟨[], rfl, List.Perm.refl _⟩, Or.inl ⟨rfl, rfl⟩⟩
    simp [Growth.start, mmInit, chunkAt]

/-- A slab carved up to the end of its pages is laid out without gaps. -/
theorem Growth.CarvedTo.laid {type k : ℕ} {g : Growth} (hg : CarvedTo type k g) :
    Laid type g := by
  obtain ⟨m, hend, ⟨l, hl, hperm⟩, htight⟩ := hg.carved
  constructor
  · refine ⟨l, m, hl, ?_, ?_⟩
    · rw [hg.start_eq]
      exact hperm
    · rw [hend, hg.start_eq, chunkAt]
  · intro b hlo hhi
    rw [hg.start_eq] at hlo
    rw [hend] at hhi
    have htop : b < pageAt type k := by
      rcases htight with ⟨rfl, rfl⟩ | ⟨hlt, -⟩
      · simpa [chunkAt, pageAt] using hhi
      · exact lt_trans hhi hlt
    obtain ⟨j, hj, hle, hlt⟩ := exists_pageAt hlo htop
    refine ⟨pageAt type j, ?_, hle, hlt⟩
    rw [hg.pages_eq]
    exact List.mem_map_of_mem (List.mem_range.mpr hj)

/-- The next call asks for the page after the last one. -/
theorem Growth.CarvedTo.hint_eq {type k : ℕ} {g : Growth} (hg : CarvedTo type k g)
    (ht : type < slab4096) (htop : pageAt type k < 2 ^ 64) :
    pageAlignUp g.slab.endAddr = pageAt type k := by
  obtain ⟨m, hend, -, htight⟩ := hg.carved
  have hmax : type < slabMax := by unfold slab4096 slabMax at *; omega
  have hsize := slabSize_lt_page ht
  have haligned := pageAt_mod hmax k
  rw [hend]
  rcases htight with ⟨rfl, rfl⟩ | ⟨hlt, hle⟩
  · have hzero : chunkAt type 0 = pageAt type 0 := by simp [chunkAt, pageAt]
    rw [hzero]
    exact pageAlignUp_eq haligned le_rfl (by unfold pageSize; omega) htop
  · rw [chunkAt_succ] at hle
    exact pageAlignUp_eq haligned hlt.le (by unfold pageSize; omega) htop

/-- What a call returns, as long as its page lies in the address space. -/
theorem Growth.CarvedTo.call_eq {type k : ℕ} {g : Growth} (hg : CarvedTo type k g)
    (ht : type < slab4096) (htop : pageAt type k < 2 ^ 64) :
    g.call type = .ok { slab := growSlab type (pageAt type k) g.slab,
                        pages := g.pages ++ [pageAt type k] } := by
  have hmax : type < slabMax := by unfold slab4096 slabMax at *; omega
  have hne : (pageAt type k != 0) = true := by
    rw [bne_iff_ne, pageAt, slabBase_of_lt_max hmax, layoutHeapStart]
    omega
  unfold Growth.call
  simp only [hg.hint_eq ht htop]
  simp [hmax, hne, Bind.bind, Except.bind, pure, Except.pure]

/-- **A call below the last page of the address space** carves up to the end of the
new page, and adds at least one chunk. -/
theorem Growth.CarvedTo.grow {type k : ℕ} {g : Growth} (hg : CarvedTo type k g)
    (ht : type < slab4096) (htop : pageAt type (k + 1) < 2 ^ 64) :
    ∃ g', g.call type = .ok g' ∧ CarvedTo type (k + 1) g' ∧ Adds type k g g' := by
  obtain ⟨m, hend, ⟨l, hl, hperm⟩, htight⟩ := hg.carved
  obtain ⟨hpos, hle⟩ := slabSize_lt_page ht
  have hmax : type < slabMax := by unfold slab4096 slabMax at *; omega
  have hsucc := pageAt_succ type k
  have haligned := pageAt_mod hmax (k + 1)
  have hroom : pageAt type (k + 1) + slabSize type ≤ 2 ^ 64 := by
    unfold pageSize at haligned
    omega
  have hcarved : chunkAt type m ≤ pageAt type k := by
    rcases htight with ⟨rfl, rfl⟩ | ⟨hlt, -⟩
    · simp [chunkAt, pageAt]
    · exact hlt.le
  have hwrap : wrap64 (pageAt type k + slabGrowSize) = pageAt type (k + 1) := by
    have hpage : slabGrowSize = pageSize := rfl
    rw [wrap64_of_lt] <;> omega
  obtain ⟨n, hend', hfree', hstop, hgo⟩ :=
    carve_spec (c := slabSize type) (p := pageAt type (k + 1)) hpos hroom
      (pageAt type (k + 1) - g.slab.endAddr) g.slab l le_rfl
      (by rw [hend]; unfold pageSize at hsucc; omega) hl
  have hshift : ∀ i, chunkAt type m + i * slabSize type = chunkAt type (m + i) := by
    intro i
    unfold chunkAt
    rw [Nat.add_mul, Nat.add_assoc]
  rw [hend] at hend' hfree' hstop hgo
  simp only [hshift] at hend' hfree' hstop hgo
  -- a chunk is smaller than a page, so at least one fits
  have hn : n ≠ 0 := by
    rintro rfl
    rw [Nat.zero_add, chunkAt_succ] at hstop
    unfold pageSize at hsucc
    omega
  refine ⟨_, hg.call_eq ht (by omega), ⟨?_, ?_, ?_⟩, ⟨?_, ?_, ?_⟩⟩
  · rw [← hg.start_eq]
    exact carve_start _ _ _ _ _
  · rw [hg.pages_eq, List.range_succ, List.map_append, List.map_singleton]
  · unfold growSlab
    simp only [hwrap]
    rw [← hend] at hend' hfree'
    refine ⟨m + n, hend', ⟨_, hfree', ?_⟩, Or.inr ⟨hgo hn, hstop⟩⟩
    rw [List.range_add, List.map_append, List.map_map]
    refine List.perm_append_comm.trans (List.Perm.append hperm ?_)
    exact (List.reverse_perm _).map _
  · rw [hg.pages_eq, hg.start_eq]
    rfl
  · rw [hg.start_eq]
    rfl
  · unfold growSlab
    simp only [hwrap]
    rw [← hend] at hfree'
    refine ⟨l, _, hl, hfree', ?_⟩
    simpa using hn

/-! ## The two calls that carve nothing -/

/-- **The first call on `SLAB_4096`** leaves the slab as it was: the chunk that the
new page could hold ends where the page ends. -/
theorem growSlab_slab4096 :
    growSlab slab4096 (slabBase slab4096) (Growth.start slab4096).slab =
      (Growth.start slab4096).slab := by
  unfold growSlab
  exact carve_of_le _ _ (by decide)

/-- The state after it. -/
theorem Growth.call_slab4096 :
    (start slab4096).call slab4096 =
      .ok { slab := (start slab4096).slab, pages := [slabBase slab4096] } := by
  have hhint : pageAlignUp (start slab4096).slab.endAddr = slabBase slab4096 := by decide
  have hne : (slabBase slab4096 != 0) = true := by decide
  have hmax : slab4096 < slabMax := by decide
  unfold call
  simp only [hhint, growSlab_slab4096]
  simp [hmax, hne, Bind.bind, Except.bind, pure, Except.pure, start]

/-- **The call for the last page of the address space** leaves the slab as it was:
`p` wraps to `0`. -/
theorem growSlab_last {type k : ℕ} (s : Slab) (hlast : pageAt type (k + 1) = 2 ^ 64) :
    growSlab type (pageAt type k) s = s := by
  have hwrap : wrap64 (pageAt type k + slabGrowSize) = 0 := by
    have hsucc := pageAt_succ type k
    have hpage : slabGrowSize = pageSize := rfl
    rw [hpage, ← hsucc, hlast, wrap64, Nat.mod_self]
  unfold growSlab
  simp only [hwrap]
  exact carve_of_le _ _ (Nat.zero_le _)

/-- A call that leaves the slab as it was adds no chunk. -/
theorem Growth.Adds.slab_ne {type k : ℕ} {g g' : Growth} (h : Adds type k g g') :
    g'.slab ≠ g.slab := by
  obtain ⟨l, new, hl, hl', hnew⟩ := h.adds
  intro heq
  rw [heq, hl, Option.some_inj] at hl'
  exact hnew (List.self_eq_append_left.mp hl')

/-! ## Any number of calls -/

/-- The state after one call more. -/
theorem Growth.after_succ {type n : ℕ} {g : Growth} (h : after type n = .ok g) :
    after type (n + 1) = g.call type := by
  unfold after
  rw [h]
  rfl

/-- **Every run below the last page carves up to the end of its pages.** -/
theorem Growth.after_carvedTo {type : ℕ} (ht : type < slab4096) :
    ∀ n, pageAt type n < 2 ^ 64 → ∃ g, after type n = .ok g ∧ CarvedTo type n g := by
  intro n
  induction n with
  | zero =>
    intro _
    exact ⟨start type, rfl, carvedTo_start type⟩
  | succ n ih =>
    intro htop
    have hsucc := pageAt_succ type n
    obtain ⟨g, hafter, hg⟩ := ih (by omega)
    obtain ⟨g', hcall, hg', -⟩ := hg.grow ht htop
    exact ⟨g', by rw [after_succ hafter, hcall], hg'⟩

/-- **When a slab grows without gaps.**  The first `n` calls of `alloc_slab` on a slab
carve without gaps exactly when there is no call, or the slab is not `SLAB_4096` and
its pages end below the top of the address space. -/
theorem carvesWithoutGaps_iff (type n : ℕ) (ht : type < slabMax) :
    CarvesWithoutGaps type n ↔
      n = 0 ∨ (type ≠ slab4096 ∧ slabBase type + n * pageSize < 2 ^ 64) := by
  constructor
  · intro h
    by_cases hn : n = 0
    · exact Or.inl hn
    have hclass : type ≠ slab4096 := by
      rintro rfl
      obtain ⟨g, g', hg, hg', hadds, -⟩ := h 0 (by omega)
      cases hg
      rw [Growth.after_succ rfl, Growth.call_slab4096] at hg'
      cases hg'
      exact hadds.slab_ne rfl
    refine Or.inr ⟨hclass, ?_⟩
    have hlt : type < slab4096 := by unfold slab4096 slabMax at *; omega
    by_contra htop
    -- the call for the last page of the address space is one of the `n`
    obtain ⟨k, hk, hlast⟩ : ∃ k < n, pageAt type (k + 1) = 2 ^ 64 := by
      have hbase := slabBase_of_lt_max ht
      unfold slabMax layoutHeapStart pageSize at *
      refine ⟨(2 ^ 64 - slabBase type) / 4096 - 1, by omega, ?_⟩
      unfold pageAt pageSize
      omega
    have hsucc := pageAt_succ type k
    have hbelow : pageAt type k < 2 ^ 64 := by unfold pageSize at hsucc; omega
    obtain ⟨g, hg, hcarved⟩ := Growth.after_carvedTo hlt k hbelow
    obtain ⟨g₁, g', hg₁, hg', hadds, -⟩ := h k hk
    rw [hg] at hg₁
    cases hg₁
    rw [Growth.after_succ hg, hcarved.call_eq hlt hbelow] at hg'
    cases hg'
    exact hadds.slab_ne (growSlab_last g.slab hlast)
  · rintro (rfl | ⟨hclass, htop⟩)
    · intro k hk
      omega
    have hlt : type < slab4096 := by unfold slab4096 slabMax at *; omega
    intro k hk
    have hmono : pageAt type (k + 1) ≤ slabBase type + n * pageSize := by
      have := Nat.mul_le_mul_right pageSize (Nat.succ_le_of_lt hk)
      unfold pageAt
      rw [Nat.succ_eq_add_one] at this
      omega
    have hsucc := pageAt_succ type k
    obtain ⟨g, hg, hcarved⟩ := Growth.after_carvedTo hlt k (by omega)
    obtain ⟨g', hcall, hg', hadds⟩ := hcarved.grow hlt (by omega)
    exact ⟨g, g', hg, by rw [Growth.after_succ hg, hcall], hadds, hg'.laid⟩

/-- Two thousand pages of the slab whose chunks are the largest but one. -/
theorem carvesWithoutGaps_3072 : CarvesWithoutGaps 14 2000 :=
  (carvesWithoutGaps_iff 14 2000 (by decide)).mpr (Or.inr ⟨by decide, by decide⟩)

/-- The first call on `SLAB_4096` maps a page and carves no chunk from it. -/
theorem not_carvesWithoutGaps_4096 :
    ¬ ∀ type < slabMax, ∀ n, CarvesWithoutGaps type n := by
  intro h
  obtain ⟨g, g', hg, hg', hadds, -⟩ := h slab4096 (by decide) 1 0 (by omega)
  cases hg
  rw [Growth.after_succ rfl, Growth.call_slab4096] at hg'
  cases hg'
  exact hadds.slab_ne rfl

end Mimik.SlabHeap
