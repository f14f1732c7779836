/-
# The invariant of the slab heap

What every run of `mm_alloc` and `mm_free` keeps, whatever sizes are requested: a
slab is a gap-free sequence of chunks laid over the gap-free sequence of pages
that were mapped for it, its free list holds some of its chunks, and the chunks
that clients hold are others.  Only the classes below `usedClasses` are ever
chosen by `get_slab_from_size`.
-/
import Mimik.Slab
import Mathlib.Data.List.Nodup

namespace Mimik.SlabHeap

/-! ## The classes in use -/

/-- No request is served from a class at or above this one. -/
def usedClasses : ℕ := 10

/-- The smear step of `ceil_to_power_of_2` sets no bit above the highest one. -/
theorem or_shiftRight_lt {x n k : ℕ} (hx : x < 2 ^ n) : x ||| x >>> k < 2 ^ n :=
  Nat.or_lt_two_pow hx (lt_of_le_of_lt (Nat.shiftRight_le x k) hx)

/-- A request below a page is rounded up to at most a page. -/
theorem ceilToPowerOf2_le {sz : ℕ} (hpos : 0 < sz) (hsz : sz < 2 ^ 12) :
    ceilToPowerOf2 sz ≤ 2 ^ 12 := by
  have hpred : pred64 sz < 2 ^ 12 := by
    rw [pred64, if_neg (by omega)]
    omega
  have h1 := or_shiftRight_lt (k := 1) hpred
  have h2 := or_shiftRight_lt (k := 2) h1
  have h4 := or_shiftRight_lt (k := 4) h2
  have h8 := or_shiftRight_lt (k := 8) h4
  have h16 := or_shiftRight_lt (k := 16) h8
  have h32 := or_shiftRight_lt (k := 32) h16
  exact le_trans (Nat.mod_le _ _) (Nat.succ_le_of_lt h32)

/-- The class loop advances at most once for every bit. -/
theorem sizeClass_le : ∀ (n k chunkSz type : ℕ), chunkSz < 2 ^ k →
    sizeClass n chunkSz type ≤ type + k := by
  intro n
  induction n with
  | zero => intro k chunkSz type _; simp [sizeClass]
  | succ n ih =>
    intro k chunkSz type hk
    rw [sizeClass]
    split
    next hpos =>
      cases k with
      | zero => omega
      | succ k =>
        have hhalf : chunkSz >>> 1 < 2 ^ k := by
          rw [Nat.shiftRight_eq_div_pow]
          omega
        have := ih k (chunkSz >>> 1) (type + 1) hhalf
        omega
    next => omega

/-- The class that serves a request is one of those in use. -/
theorem getSlabFromSize_lt {sz type : ℕ} (hpos : 0 < sz) (hsz : sz < 2 ^ 12)
    (h : getSlabFromSize sz = .ok type) : type < usedClasses := by
  have hceil := ceilToPowerOf2_le hpos hsz
  have hshift : ceilToPowerOf2 sz >>> 4 < 2 ^ 9 := by
    rw [Nat.shiftRight_eq_div_pow]
    omega
  have hclass := sizeClass_le 64 9 (ceilToPowerOf2 sz >>> 4) 0 hshift
  rw [getSlabFromSize] at h
  generalize sizeClass 64 (ceilToPowerOf2 sz >>> 4) 0 = class₀ at h hclass
  obtain ⟨_, hmax, htype⟩ := Except.bind_eq_ok_iff.mp h
  rw [assert_eq_ok, decide_eq_true_eq] at hmax
  cases htype
  unfold usedClasses
  unfold slabMax at hmax
  have hpred : predType class₀ = 2 ^ 32 - 1 ∨ predType class₀ = class₀ - 1 := by
    unfold predType
    split_ifs <;> simp
  by_cases hfit : sz ≤ slabSize (predType class₀)
  · simp only [if_pos hfit] at hmax ⊢
    omega
  · simp only [if_neg hfit] at hmax ⊢
    omega

/-- Up to 48 bytes, the chunks of the class that serves a request are large
enough for it. -/
theorem le_slabSize_of_le_48 {sz type : ℕ} (hsz : sz ≤ 48)
    (h : getSlabFromSize sz = .ok type) : sz ≤ slabSize type := by
  rcases Nat.eq_zero_or_pos sz with rfl | hpos
  · exact Nat.zero_le _
  have hall : ∀ n < 49, ∀ t < usedClasses, getSlabFromSize n = .ok t → n ≤ slabSize t := by
    decide
  exact hall sz (by omega) type (getSlabFromSize_lt hpos (by omega) h) h

/-- The chunk sizes in use. -/
theorem slabSize_bounds {type : ℕ} (ht : type < usedClasses) :
    0 < slabSize type ∧ slabSize type ≤ 384 := by
  have hall : ∀ t < usedClasses, 0 < slabSize t ∧ slabSize t ≤ 384 := by decide
  exact hall type ht

/-- The regions of the slabs do not wrap around. -/
theorem slabBase_of_lt_max {type : ℕ} (ht : type < slabMax) :
    slabBase type = layoutHeapStart + type * 2 ^ 36 := by
  unfold slabMax at ht
  rw [slabBase, wrap64, Nat.shiftLeft_eq, layoutHeapStart]
  omega

theorem slabBase_eq {type : ℕ} (ht : type < usedClasses) :
    slabBase type = layoutHeapStart + type * 2 ^ 36 :=
  slabBase_of_lt_max (lt_trans ht (by decide))

/-- Regions start at a page boundary. -/
theorem slabBase_mod {type : ℕ} (ht : type < usedClasses) : slabBase type % pageSize = 0 := by
  rw [slabBase_eq ht, layoutHeapStart, pageSize]
  omega

/-! ## A slab in good order -/

/-- The address of the `k`-th chunk of a slab. -/
def chunkAt (type k : ℕ) : ℕ := slabBase type + k * slabSize type

/-- The address of the `j`-th page of a slab. -/
def pageAt (type j : ℕ) : ℕ := slabBase type + j * pageSize

/-- The slab `type` owns its first `pages` pages and has carved its first `chunks`
chunks out of them; its free list holds some of these chunks, each once. -/
structure SlabOk (h : Heap) (type pages chunks : ℕ) : Prop where
  end_eq : (h.slabs type).endAddr = chunkAt type chunks
  mapped_iff : ∀ page, (type, page) ∈ h.mapped ↔ ∃ j < pages, page = pageAt type j
  /-- The next chunk does not fit in the last page. -/
  tight : (pages = 0 ∧ chunks = 0) ∨
    (chunkAt type chunks < pageAt type pages ∧ pageAt type pages ≤ chunkAt type (chunks + 1))
  below_image : pageAt type pages ≤ layoutVaddrStart
  free : ∃ l, (h.slabs type).freelist = some l ∧ l.Nodup ∧
    ∀ c ∈ l, ∃ k < chunks, c = chunkAt type k

/-- Carved chunks lie in mapped pages. -/
theorem SlabOk.carved_le {h : Heap} {type pages chunks : ℕ} (hs : SlabOk h type pages chunks) :
    chunkAt type chunks ≤ pageAt type pages := by
  rcases hs.tight with ⟨rfl, rfl⟩ | ⟨hlt, -⟩
  · simp [chunkAt, pageAt]
  · exact hlt.le

/-- Chunk addresses grow with the chunk number. -/
theorem chunkAt_mono (type : ℕ) {k k' : ℕ} (hk : k ≤ k') : chunkAt type k ≤ chunkAt type k' := by
  unfold chunkAt
  have := Nat.mul_le_mul_right (slabSize type) hk
  omega

/-- The chunk after a chunk starts where that one ends. -/
theorem chunkAt_succ (type k : ℕ) : chunkAt type (k + 1) = chunkAt type k + slabSize type := by
  unfold chunkAt
  rw [Nat.add_mul, Nat.one_mul, Nat.add_assoc]

/-- Distinct chunks of a slab have distinct addresses. -/
theorem chunkAt_injective {type : ℕ} (ht : type < usedClasses) {k k' : ℕ}
    (h : chunkAt type k = chunkAt type k') : k = k' := by
  have hpos := (slabSize_bounds ht).1
  unfold chunkAt at h
  exact Nat.eq_of_mul_eq_mul_right hpos (Nat.add_left_cancel h)

/-- A byte of the first pages of a region lies in one of them. -/
theorem exists_pageAt {type pages b : ℕ} (hlo : slabBase type ≤ b) (hhi : b < pageAt type pages) :
    ∃ j < pages, pageAt type j ≤ b ∧ b < pageAt type j + pageSize := by
  unfold pageAt pageSize at *
  refine ⟨(b - slabBase type) / 4096, ?_, ?_, ?_⟩ <;> omega

/-- Every byte of a carved chunk lies in a page that was mapped for the slab. -/
theorem SlabOk.page_of_byte {h : Heap} {type pages chunks k b : ℕ}
    (hs : SlabOk h type pages chunks) (hk : k < chunks)
    (hlo : chunkAt type k ≤ b) (hhi : b < chunkAt type k + slabSize type) :
    ∃ page, (type, page) ∈ h.mapped ∧ page ≤ b ∧ b < page + pageSize := by
  have hbase : slabBase type ≤ b := le_trans (Nat.le_add_right _ _) hlo
  have hend : b < pageAt type pages := by
    rw [← chunkAt_succ] at hhi
    exact lt_of_lt_of_le hhi (le_trans (chunkAt_mono type hk) hs.carved_le)
  obtain ⟨j, hj, hle, hlt⟩ := exists_pageAt hbase hend
  exact ⟨pageAt type j, (hs.mapped_iff _).mpr ⟨j, hj, rfl⟩, hle, hlt⟩

/-! ## Growing a slab -/

/-- **The carving loop.**  Starting at `e`, it carves the chunks at `e`, `e + c`,
… for as long as the next one ends below `p`, and puts each in front of the free
list. -/
theorem carve_spec {c p : ℕ} (hc : 0 < c) (hp : p + c ≤ 2 ^ 64) :
    ∀ (n : ℕ) (s : Slab) (l : List ℕ), p - s.endAddr ≤ n → s.endAddr + c ≤ 2 ^ 64 - 1 →
      s.freelist = some l →
      ∃ k, (carve c p n (wrap64 (s.endAddr + c)) s).endAddr = s.endAddr + k * c ∧
        (carve c p n (wrap64 (s.endAddr + c)) s).freelist =
          some ((List.range k).reverse.map (fun i => s.endAddr + i * c) ++ l) ∧
        p ≤ s.endAddr + (k + 1) * c ∧ (k ≠ 0 → s.endAddr + k * c < p) := by
  intro n
  induction n with
  | zero =>
    intro s l hn _ hl
    refine ⟨0, by simp [carve], by simpa [carve] using hl, by omega, by simp⟩
  | succ n ih =>
    intro s l hn hwrap hl
    have hnext : wrap64 (s.endAddr + c) = s.endAddr + c := Nat.mod_eq_of_lt (by omega)
    rw [hnext, carve]
    split
    next hlt =>
      obtain ⟨k, hend, hfree, hstop, hgo⟩ :=
        ih { s with freelist := s.freelist.map (s.endAddr :: ·), endAddr := s.endAddr + c }
          (s.endAddr :: l) (by simp only; omega) (by simp only; omega) (by simp [hl])
      simp only at hend hfree hstop hgo
      have hshift : ∀ i, s.endAddr + c + i * c = s.endAddr + (i + 1) * c := by
        intro i
        rw [Nat.add_mul, Nat.one_mul]
        omega
      refine ⟨k + 1, by rw [hend, hshift], ?_, by rw [← hshift]; exact hstop, ?_⟩
      · rw [hfree]
        simp only [hshift, List.range_succ_eq_map, List.reverse_cons, List.map_append,
          List.map_reverse, List.map_map, List.append_assoc, List.map_cons, List.map_nil,
          Nat.zero_mul, Nat.add_zero, List.cons_append, List.nil_append]
        rfl
      · intro _
        rcases Nat.eq_zero_or_pos k with rfl | hk
        · omega
        · rw [← hshift]
          exact hgo (by omega)
    next hge => exact ⟨0, by simp, by simpa using hl, by omega, by simp⟩

/-- What a successful call of `mm_map` tells: the page at the hint, mapped for the
first time. -/
theorem mmMap_spec {env : HeapEnv} {h h' : Heap} {type hint p : ℕ}
    (hmap : mmMap env h type hint = (p, h')) (hp : p ≠ 0) :
    p = hint ∧ env.taken hint = false ∧ (∀ q ∈ h.mapped, q.2 ≠ hint) ∧
      h'.slabs = h.slabs ∧ h'.mapped = (type, hint) :: h.mapped := by
  unfold mmMap at hmap
  split at hmap
  next hcond =>
    simp only [Bool.and_eq_true, Bool.not_eq_true', List.any_eq_false, beq_iff_eq] at hcond
    cases hmap
    exact ⟨rfl, hcond.1.2, hcond.2, rfl, rfl⟩
  next =>
    cases hmap
    exact absurd rfl hp

/-- Rounding an address up reaches the next page boundary. -/
theorem pageAlignUp_eq {a page : ℕ} (hpage : page % pageSize = 0) (hle : a ≤ page)
    (hlt : page < a + pageSize) (htop : page < 2 ^ 64) : pageAlignUp a = page := by
  unfold pageAlignUp wrap64 pageSize at *
  omega

/-- Pages start at page boundaries. -/
theorem pageAt_mod {type : ℕ} (ht : type < slabMax) (j : ℕ) : pageAt type j % pageSize = 0 := by
  rw [pageAt, slabBase_of_lt_max ht, layoutHeapStart, pageSize]
  omega

/-- A slab asks for the page directly after the ones it has. -/
theorem SlabOk.pageAlignUp_end {h : Heap} {type pages chunks : ℕ} (ht : type < usedClasses)
    (hs : SlabOk h type pages chunks) :
    pageAlignUp (h.slabs type).endAddr = pageAt type pages := by
  have hbound := slabSize_bounds ht
  have himage := hs.below_image
  have hfit : chunkAt type chunks ≤ pageAt type pages ∧
      pageAt type pages < chunkAt type chunks + pageSize := by
    rcases hs.tight with ⟨rfl, rfl⟩ | ⟨hlt, hle⟩
    · simp [chunkAt, pageAt, pageSize]
    · rw [chunkAt_succ] at hle
      unfold pageSize
      omega
  rw [hs.end_eq]
  refine pageAlignUp_eq (pageAt_mod (lt_trans ht (by decide)) pages) hfit.1 hfit.2 ?_
  unfold layoutVaddrStart at himage
  omega

/-! ## The heap in good order -/

/-- Every slab in use is in good order, no page is mapped twice, and the live
allocations are distinct chunks that wait on no free list. -/
structure HeapOk (r : HeapRun) (pages chunks : ℕ → ℕ) : Prop where
  slab : ∀ type < usedClasses, SlabOk r.heap type (pages type) (chunks type)
  pages_nodup : (r.heap.mapped.map Prod.snd).Nodup
  held : ∀ a ∈ r.live, ∃ type < usedClasses, getSlabFromSize a.2 = .ok type ∧
    (∃ k < chunks type, a.1 = chunkAt type k) ∧
    ∀ l, (r.heap.slabs type).freelist = some l → a.1 ∉ l
  distinct : r.live.Pairwise (fun a b => a.1 ≠ b.1)

/-- A fresh heap is in good order. -/
theorem heapOk_init : HeapOk .init (fun _ => 0) (fun _ => 0) where
  slab type ht := by
    refine ⟨?_, ?_, Or.inl ⟨rfl, rfl⟩, ?_, ⟨[], rfl, List.nodup_nil, by simp⟩⟩
    · simp [HeapRun.init, mmInit, chunkAt]
    · simp [HeapRun.init, mmInit]
    · rw [pageAt, slabBase_eq ht]
      unfold usedClasses at ht
      unfold layoutVaddrStart layoutHeapStart
      omega
  pages_nodup := List.nodup_nil
  held := by simp [HeapRun.init]
  distinct := List.Pairwise.nil

/-- **Slabs do not share bytes.**  A byte that lies in carved chunks of two slabs
shows that they are one slab. -/
theorem HeapOk.class_unique {r : HeapRun} {pages chunks : ℕ → ℕ} (hr : HeapOk r pages chunks)
    {type type' k k' b : ℕ} (ht : type < usedClasses) (ht' : type' < usedClasses)
    (hk : k < chunks type) (hk' : k' < chunks type')
    (hlo : chunkAt type k ≤ b) (hhi : b < chunkAt type k + slabSize type)
    (hlo' : chunkAt type' k' ≤ b) (hhi' : b < chunkAt type' k' + slabSize type') :
    type = type' := by
  obtain ⟨page, hmem, hle, hlt⟩ := (hr.slab type ht).page_of_byte hk hlo hhi
  obtain ⟨page', hmem', hle', hlt'⟩ := (hr.slab type' ht').page_of_byte hk' hlo' hhi'
  obtain ⟨j, -, hj⟩ := ((hr.slab type ht).mapped_iff page).mp hmem
  obtain ⟨j', -, hj'⟩ := ((hr.slab type' ht').mapped_iff page').mp hmem'
  have hpage : page = page' := by
    have hmod := slabBase_mod ht
    have hmod' := slabBase_mod ht'
    unfold pageAt pageSize at *
    omega
  have hpair : (type, page) = (type', page') :=
    List.inj_on_of_nodup_map hr.pages_nodup hmem hmem' hpage
  exact congrArg Prod.fst hpair

/-- The calls of `alloc_slab` that return. -/
theorem allocSlab_eq_ok {env : HeapEnv} {h h' : Heap} {type : ℕ}
    (hgrow : allocSlab env h type = .ok h') :
    ∃ p h₁, mmMap env h type (pageAlignUp (h.slabs type).endAddr) = (p, h₁) ∧ p ≠ 0 ∧
      h' = h₁.setSlab type (carve (slabSize type) (wrap64 (p + slabGrowSize))
        (wrap64 (p + slabGrowSize) - (h.slabs type).endAddr)
        (wrap64 ((h.slabs type).endAddr + slabSize type)) (h.slabs type)) := by
  obtain ⟨_, -, hgrow⟩ := Except.bind_eq_ok_iff.mp hgrow
  rcases hmap : mmMap env h type (pageAlignUp (h.slabs type).endAddr) with ⟨p, h₁⟩
  simp only [hmap] at hgrow
  obtain ⟨_, hp, hgrow⟩ := Except.bind_eq_ok_iff.mp hgrow
  refine ⟨p, h₁, rfl, by simpa using hp, ?_⟩
  cases hgrow
  rfl

/-- The page after a page starts where that one ends. -/
theorem pageAt_succ (type j : ℕ) : pageAt type (j + 1) = pageAt type j + pageSize := by
  unfold pageAt
  rw [Nat.add_mul, Nat.one_mul, Nat.add_assoc]

/-- A page of a slab that starts below the kernel image ends below it. -/
theorem pageAt_succ_le {type j : ℕ} (ht : type < usedClasses)
    (h : pageAt type j < layoutVaddrStart) : pageAt type (j + 1) ≤ layoutVaddrStart := by
  have hbase := slabBase_eq ht
  unfold pageAt pageSize layoutVaddrStart layoutHeapStart at *
  omega

/-- **Growing keeps a slab in good order**: it has one page more, and at least one
chunk more, all new chunks being on the free list. -/
theorem SlabOk.grow {env : HeapEnv} {h h' : Heap} {type pages chunks : ℕ}
    (ht : type < usedClasses) (hs : SlabOk h type pages chunks)
    (hempty : (h.slabs type).freelist = some [])
    (hgrow : Mimik.SlabHeap.allocSlab env h type = .ok h') :
    ∃ k, SlabOk h' type (pages + 1) (chunks + (k + 1)) ∧
      h'.mapped = (type, pageAt type pages) :: h.mapped ∧
      (∀ q ∈ h.mapped, q.2 ≠ pageAt type pages) ∧
      (∀ t, t ≠ type → h'.slabs t = h.slabs t) ∧
      ∃ c l, (h'.slabs type).freelist = some (c :: l) ∧
        ∀ x ∈ c :: l, ∃ i, chunks ≤ i ∧ x = chunkAt type i := by
  obtain ⟨hcpos, hcle⟩ := slabSize_bounds ht
  have hbase := slabBase_eq ht
  obtain ⟨p, h₁, hmap, hp, rfl⟩ := allocSlab_eq_ok hgrow
  rw [hs.pageAlignUp_end ht] at hmap
  obtain ⟨rfl, htaken, hnew, hslabs, hmapped⟩ := mmMap_spec hmap hp
  -- the page of the kernel image is taken, so the new page lies below it
  have hbelow : pageAt type (pages + 1) ≤ layoutVaddrStart := by
    have hne : pageAt type pages ≠ layoutVaddrStart := by
      intro heq
      rw [heq, env.image_taken] at htaken
      exact absurd htaken (by simp)
    exact pageAt_succ_le ht (lt_of_le_of_ne hs.below_image hne)
  have hsucc := pageAt_succ type pages
  have hwrap : wrap64 (pageAt type pages + slabGrowSize) = pageAt type (pages + 1) := by
    have hgrow : slabGrowSize = pageSize := rfl
    unfold layoutVaddrStart at hbelow
    rw [wrap64_of_lt] <;> omega
  have hcarved := hs.carved_le
  obtain ⟨n, hend, hfree, hstop, hgo⟩ :=
    carve_spec (c := slabSize type) (p := pageAt type (pages + 1)) hcpos
      (by unfold layoutVaddrStart at hbelow; omega)
      (pageAt type (pages + 1) - (h.slabs type).endAddr) (h.slabs type) [] le_rfl
      (by rw [hs.end_eq]; unfold layoutVaddrStart at hbelow; omega) hempty
  have hshift : ∀ i, chunkAt type chunks + i * slabSize type = chunkAt type (chunks + i) := by
    intro i
    unfold chunkAt
    rw [Nat.add_mul, Nat.add_assoc]
  rw [hwrap]
  generalize carve (slabSize type) (pageAt type (pages + 1)) _ _ (h.slabs type) = s'
    at hend hfree ⊢
  rw [hs.end_eq] at hend hfree hstop hgo
  simp only [hshift, List.append_nil] at hend hfree hstop hgo
  -- at least one chunk fits
  obtain ⟨k, rfl⟩ : ∃ k, n = k + 1 := by
    refine Nat.exists_eq_succ_of_ne_zero (fun hn => ?_)
    rw [hn, Nat.zero_add, chunkAt_succ] at hstop
    unfold pageSize at hsucc
    omega
  have hnodup : ((List.range (k + 1)).reverse.map fun i => chunkAt type (chunks + i)).Nodup := by
    refine List.Nodup.map_on ?_ (List.nodup_reverse.mpr List.nodup_range)
    intro i _ i' _ heq
    have := chunkAt_injective ht heq
    omega
  refine ⟨k, ⟨?_, ?_, Or.inr ⟨hgo (by omega), hstop⟩, hbelow, ?_⟩, ?_, hnew, ?_, ?_⟩
  · rw [Heap.setSlab_same]
    exact hend
  · intro page
    rw [Heap.setSlab_mapped, hmapped, List.mem_cons, Prod.mk.injEq, hs.mapped_iff]
    constructor
    · rintro (⟨-, rfl⟩ | ⟨j, hj, rfl⟩)
      · exact ⟨pages, by omega, rfl⟩
      · exact ⟨j, by omega, rfl⟩
    · rintro ⟨j, hj, rfl⟩
      rcases Nat.lt_succ_iff_lt_or_eq.mp hj with hlt | rfl
      · exact Or.inr ⟨j, hlt, rfl⟩
      · exact Or.inl ⟨rfl, rfl⟩
  · refine ⟨_, (Heap.setSlab_same _ _ _).symm ▸ hfree, hnodup, ?_⟩
    intro c hc
    obtain ⟨i, hi, rfl⟩ := List.mem_map.mp hc
    rw [List.mem_reverse, List.mem_range] at hi
    exact ⟨chunks + i, by omega, rfl⟩
  · rw [Heap.setSlab_mapped, hmapped]
  · intro t ht'
    rw [Heap.setSlab_of_ne _ _ ht', hslabs]
  · rw [Heap.setSlab_same, hfree, List.range_succ, List.reverse_append, List.reverse_singleton,
      List.singleton_append, List.map_cons]
    refine ⟨_, _, rfl, ?_⟩
    intro x hx
    rw [← List.map_cons (f := fun i => chunkAt type (chunks + i))] at hx
    obtain ⟨i, -, rfl⟩ := List.mem_map.mp hx
    exact ⟨chunks + i, by omega, rfl⟩

/-! ## Calls of the heap -/

/-- What happens to other slabs does not matter to a slab. -/
theorem SlabOk.frame {h h' : Heap} {type pages chunks : ℕ} (hs : SlabOk h type pages chunks)
    (hslab : h'.slabs type = h.slabs type)
    (hmapped : ∀ page, (type, page) ∈ h'.mapped ↔ (type, page) ∈ h.mapped) :
    SlabOk h' type pages chunks where
  end_eq := by rw [hslab, hs.end_eq]
  mapped_iff page := by rw [hmapped, hs.mapped_iff]
  tight := hs.tight
  below_image := hs.below_image
  free := by rw [hslab]; exact hs.free

/-- Growing a slab whose free list is empty keeps the heap in good order, and
leaves a chunk to take. -/
theorem HeapOk.grow {env : HeapEnv} {r : HeapRun} {h' : Heap} {type : ℕ}
    {pages chunks : ℕ → ℕ} (ht : type < usedClasses) (hr : HeapOk r pages chunks)
    (hempty : (r.heap.slabs type).freelist = some [])
    (hgrow : Mimik.SlabHeap.allocSlab env r.heap type = .ok h') :
    (∃ pages' chunks', HeapOk { heap := h', live := r.live } pages' chunks') ∧
      ∃ c l, (h'.slabs type).freelist = some (c :: l) := by
  obtain ⟨k, hslab, hmapped, hnew, hother, c, l, hfree, hfresh⟩ :=
    (hr.slab type ht).grow ht hempty hgrow
  refine ⟨⟨Function.update pages type (pages type + 1),
    Function.update chunks type (chunks type + (k + 1)), ?_, ?_, ?_, hr.distinct⟩, c, l, hfree⟩
  · intro t ht'
    rcases eq_or_ne t type with rfl | hne
    · simpa using hslab
    · rw [Function.update_of_ne hne, Function.update_of_ne hne]
      refine (hr.slab t ht').frame (hother t hne) (fun page => ?_)
      simp only [hmapped, List.mem_cons, Prod.mk.injEq, hne, false_and, false_or]
  · simp only [hmapped, List.map_cons, List.nodup_cons]
    refine ⟨fun hmem => ?_, hr.pages_nodup⟩
    obtain ⟨q, hq, heq⟩ := List.mem_map.mp hmem
    exact hnew q hq heq
  · intro a ha
    obtain ⟨t, ht', hsize, ⟨i, hi, hai⟩, hheld⟩ := hr.held a ha
    refine ⟨t, ht', hsize, ?_, ?_⟩
    · refine ⟨i, ?_, hai⟩
      rcases eq_or_ne t type with rfl | hne
      · rw [Function.update_self]
        omega
      · rwa [Function.update_of_ne hne]
    · intro l' hl' hmem
      rcases eq_or_ne t type with rfl | hne
      · -- the chunks on the free list are new, the live one is old
        simp only at hl'
        rw [hfree] at hl'
        cases hl'
        obtain ⟨j, hj, haj⟩ := hfresh a.1 hmem
        have := chunkAt_injective ht (hai.symm.trans haj)
        omega
      · simp only [hother t hne] at hl'
        exact hheld l' hl' hmem

/-- Taking a chunk from a free list keeps the heap in good order. -/
theorem HeapOk.pop {r : HeapRun} {sz type c : ℕ} {l : List ℕ} {pages chunks : ℕ → ℕ}
    (ht : type < usedClasses) (hr : HeapOk r pages chunks)
    (hsize : getSlabFromSize sz = .ok type)
    (hfree : (r.heap.slabs type).freelist = some (c :: l)) :
    HeapOk { heap := r.heap.setSlab type { r.heap.slabs type with freelist := some l },
             live := (c, sz) :: r.live } pages chunks := by
  obtain ⟨_, hl, hnodup, hcarved⟩ := (hr.slab type ht).free
  rw [hfree] at hl
  cases hl
  rw [List.nodup_cons] at hnodup
  obtain ⟨k, hk, hck⟩ := hcarved c List.mem_cons_self
  refine ⟨?_, hr.pages_nodup, ?_, ?_⟩
  · intro t ht'
    rcases eq_or_ne t type with rfl | hne
    · obtain ⟨hend, hmapped, htight, himage, -⟩ := hr.slab t ht
      refine ⟨by simpa using hend, hmapped, htight, himage, l, by simp, hnodup.2, ?_⟩
      exact fun x hx => hcarved x (List.mem_cons_of_mem _ hx)
    · exact (hr.slab t ht').frame (Heap.setSlab_of_ne _ _ hne) (fun _ => Iff.rfl)
  · intro a ha
    rcases List.mem_cons.mp ha with rfl | ha
    · refine ⟨type, ht, hsize, ⟨k, hk, hck⟩, ?_⟩
      intro l' hl'
      rw [Heap.setSlab_same, Option.some.injEq] at hl'
      exact hl' ▸ hnodup.1
    · obtain ⟨t, ht', hsize', hchunk, hheld⟩ := hr.held a ha
      refine ⟨t, ht', hsize', hchunk, ?_⟩
      intro l' hl' hmem
      rcases eq_or_ne t type with rfl | hne
      · rw [Heap.setSlab_same, Option.some.injEq] at hl'
        exact hheld _ hfree (List.mem_cons_of_mem _ (hl' ▸ hmem))
      · rw [Heap.setSlab_of_ne _ _ hne] at hl'
        exact hheld l' hl' hmem
  · refine List.Pairwise.cons ?_ hr.distinct
    intro a ha heq
    obtain ⟨t, ht', -, ⟨i, hi, hai⟩, hheld⟩ := hr.held a ha
    have heq : chunkAt type k = chunkAt t i := hck.symm.trans (heq.trans hai)
    have hpos := (slabSize_bounds ht).1
    have hpos' := (slabSize_bounds ht').1
    obtain rfl : type = t :=
      hr.class_unique ht ht' hk hi le_rfl (by omega) heq.ge (by omega)
    exact hheld _ hfree (by rw [hai, ← heq, ← hck]; exact List.mem_cons_self)

/-- The parts of a call of `mm_alloc` that returns: the class, the free list after
growing it if need be, and the chunk taken. -/
theorem mmAlloc_eq_ok {env : HeapEnv} {h h' : Heap} {sz p : ℕ}
    (halloc : mmAlloc env h sz = .ok (p, h')) :
    sz < 2 ^ 12 ∧ ∃ type h₁, getSlabFromSize sz = .ok type ∧
      ((h.slabs type).freelist ≠ some [] ∧ h₁ = h ∨
        (h.slabs type).freelist = some [] ∧
          Mimik.SlabHeap.allocSlab env h type = .ok h₁) ∧
      popChunk env h₁ type = .ok (p, h') := by
  obtain ⟨_, hsz, halloc⟩ := Except.bind_eq_ok_iff.mp halloc
  obtain ⟨type, hsize, halloc⟩ := Except.bind_eq_ok_iff.mp halloc
  obtain ⟨h₁, hgrow, hpop⟩ := Except.bind_eq_ok_iff.mp halloc
  have hmax : slabSize (slabMax - 1) = 2 ^ 12 := by decide
  rw [assert_eq_ok, decide_eq_true_eq, hmax] at hsz
  refine ⟨hsz, type, h₁, hsize, ?_, hpop⟩
  split at hgrow
  next hempty => exact Or.inr ⟨hempty, hgrow⟩
  next hne => cases hgrow; exact Or.inl ⟨hne, rfl⟩

/-- **`mm_alloc` keeps the heap in good order**, whatever the size requested. -/
theorem HeapOk.mmAlloc {env : HeapEnv} {r : HeapRun} {h' : Heap} {sz p : ℕ}
    {pages chunks : ℕ → ℕ} (hpos : 0 < sz) (hr : HeapOk r pages chunks)
    (halloc : Mimik.SlabHeap.mmAlloc env r.heap sz = .ok (p, h')) :
    ∃ pages' chunks', HeapOk { heap := h', live := (p, sz) :: r.live } pages' chunks' := by
  obtain ⟨hsz, type, h₁, hsize, hgrow, hpop⟩ := mmAlloc_eq_ok halloc
  have ht := getSlabFromSize_lt hpos hsz hsize
  obtain ⟨⟨pages', chunks', hr₁⟩, c, l, hfree⟩ :
      (∃ pages' chunks', HeapOk { heap := h₁, live := r.live } pages' chunks') ∧
        ∃ c l, (h₁.slabs type).freelist = some (c :: l) := by
    rcases hgrow with ⟨hne, rfl⟩ | ⟨hempty, hgrow⟩
    · refine ⟨⟨pages, chunks, hr⟩, ?_⟩
      obtain ⟨l, hl, -⟩ := (hr.slab type ht).free
      cases l with
      | nil => exact absurd hl hne
      | cons c l => exact ⟨c, l, hl⟩
    · exact hr.grow ht hempty hgrow
  simp only [popChunk, hfree, Except.ok.injEq, Prod.mk.injEq] at hpop
  obtain ⟨rfl, rfl⟩ := hpop
  exact ⟨pages', chunks', hr₁.pop ht hsize hfree⟩

/-- A carved chunk lies between the start of the heap and the kernel image. -/
theorem SlabOk.chunk_bounds {h : Heap} {type pages chunks k : ℕ} (ht : type < usedClasses)
    (hs : SlabOk h type pages chunks) (hk : k < chunks) :
    layoutHeapStart ≤ chunkAt type k ∧ chunkAt type k < layoutVaddrStart := by
  have hbase := slabBase_eq ht
  have hpos := (slabSize_bounds ht).1
  have hcarved := hs.carved_le
  have himage := hs.below_image
  have hnext := chunkAt_mono type (Nat.succ_le_of_lt hk)
  rw [Nat.succ_eq_add_one, chunkAt_succ] at hnext
  have hlow : slabBase type ≤ chunkAt type k := Nat.le_add_right _ _
  omega

/-- A live address lies there too. -/
theorem HeapOk.live_bounds {r : HeapRun} {pages chunks : ℕ → ℕ} (hr : HeapOk r pages chunks)
    {a : ℕ × ℕ} (ha : a ∈ r.live) : layoutHeapStart ≤ a.1 ∧ a.1 < layoutVaddrStart := by
  obtain ⟨type, ht, -, ⟨k, hk, hak⟩, -⟩ := hr.held a ha
  rw [hak]
  exact (hr.slab type ht).chunk_bounds ht hk

/-- The mask of `SLABTYPE` keeps bits that no heap address has clear. -/
theorem slabMax_le_slabType {addr : ℕ} (hlo : layoutHeapStart ≤ addr)
    (hhi : addr < layoutVaddrStart) : slabMax ≤ slabType addr := by
  unfold layoutHeapStart at hlo
  unfold layoutVaddrStart at hhi
  have hmask : slabType addr = addr / 2 ^ 36 % 2 ^ 16 := by
    rw [slabType, Nat.shiftRight_eq_div_pow]
    exact Nat.and_two_pow_sub_one_eq_mod _ 16
  rw [hmask, slabMax]
  omega

/-- **`mm_free` of a live allocation never returns**: it does not find the slab. -/
theorem HeapOk.mmFree {r : HeapRun} {pages chunks : ℕ → ℕ} (hr : HeapOk r pages chunks)
    {a : ℕ × ℕ} (ha : a ∈ r.live) :
    Mimik.SlabHeap.mmFree r.heap a.1 = .error (.assertion "type < SLAB_MAX") := by
  obtain ⟨hlo, hhi⟩ := hr.live_bounds ha
  have htype := slabMax_le_slabType hlo hhi
  rw [Mimik.SlabHeap.mmFree, getSlabFromAddress, decide_eq_false (by omega), assert_false]
  rfl

/-- What clients promise: they ask for at least one byte, and free what they hold. -/
def clientOk (r : HeapRun) : HeapEvent → Prop
  | .alloc sz => 0 < sz
  | .free p => ∃ a ∈ r.live, a.1 = p

/-- **One call keeps the heap in good order.** -/
theorem HeapOk.step {env : HeapEnv} {r r' : HeapRun} {e : HeapEvent}
    (hr : ∃ pages chunks, HeapOk r pages chunks) (he : clientOk r e)
    (hstep : r.step env e = .ok r') : ∃ pages chunks, HeapOk r' pages chunks := by
  obtain ⟨pages, chunks, hr⟩ := hr
  cases e with
  | alloc sz =>
    obtain ⟨⟨p, h'⟩, halloc, hret⟩ := Except.bind_eq_ok_iff.mp hstep
    cases hret
    exact hr.mmAlloc he halloc
  | free p =>
    obtain ⟨a, ha, rfl⟩ := he
    obtain ⟨h', hfree, -⟩ := Except.bind_eq_ok_iff.mp hstep
    rw [hr.mmFree ha] at hfree
    cases hfree

/-- **Every reachable heap is in good order.** -/
theorem heapOk_of_run {env : HeapEnv} {r : HeapRun} {es : List HeapEvent}
    (hrun : GuardedRun.Run (HeapRun.step env) clientOk .init es r) :
    ∃ pages chunks, HeapOk r pages chunks :=
  hrun.invariant (I := fun r => ∃ pages chunks, HeapOk r pages chunks)
    (fun _ _ _ hr he hstep => HeapOk.step hr he hstep) ⟨_, _, heapOk_init⟩

end Mimik.SlabHeap
