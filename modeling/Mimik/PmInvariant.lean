/-
# The first bitmap in order

As long as the first bitmap has a free page, the manager is in one shape: the ring
is the first bitmap followed by bitmaps that no lookup finds again, the pointer
`first_free_bitmap` is on the first bitmap, and its `first_free` is the lowest free
page.  This file says what every operation does in that shape.
-/
import Mimik.Pm
import Mathlib.Data.Finset.Card

namespace Mimik.Pm

/-! ## Addresses -/

/-- `TOBITMAP` is the number of the 128 MiB block. -/
theorem toBitmap_eq (a : ℕ) : toBitmap a = a / 2 ^ 27 := Nat.shiftRight_eq_div_pow a 27

/-- `TOINDEX` is the number of the page in its block. -/
theorem toIndex_eq (a : ℕ) : toIndex a = a / 4096 % 32768 := by
  have hmask : a &&& 0x7fff000 = (a / 2 ^ 12 % 2 ^ 15) * 2 ^ 12 := by
    have hsplit : 0x7fff000 = (2 ^ 15 - 1) <<< 12 := by decide
    refine Nat.eq_of_testBit_eq (fun i => ?_)
    rw [hsplit, Nat.testBit_and, Nat.testBit_shiftLeft, ← Nat.shiftLeft_eq,
      Nat.testBit_shiftLeft, ← Nat.shiftRight_eq_div_pow, ← Nat.and_two_pow_sub_one_eq_mod,
      Nat.testBit_and, Nat.testBit_shiftRight]
    by_cases hi : 12 ≤ i
    · rw [Nat.add_sub_cancel' hi]
      grind
    · simp [hi]
  rw [toIndex, hmask, pageSize]
  omega

/-- `BITMAP_SIZE` in figures. -/
theorem bitmapSize_eq : bitmapSize = 32768 := by decide

-- `BITMAP_SIZE` is never to be counted down, nor a machine word
attribute [local irreducible] bitmapSize wrap64 sub64

/-- An index never exceeds the size of a bitmap. -/
theorem toIndex_lt (a : ℕ) : toIndex a < bitmapSize := by
  rw [toIndex_eq, bitmapSize_eq]
  omega

/-- In the first 128 MiB the index is the page. -/
theorem toIndex_eq_pageOf {a : ℕ} (ha : toBitmap a = 0) : toIndex a = pageOf a := by
  rw [toBitmap_eq] at ha
  rw [toIndex_eq, pageOf, pageSize]
  omega

/-- A page lies in the first 128 MiB when the first bitmap has a bit for it. -/
theorem toBitmap_eq_zero_iff {a : ℕ} : toBitmap a = 0 ↔ pageOf a < bitmapSize := by
  rw [toBitmap_eq, pageOf, pageSize, bitmapSize_eq]
  omega

/-- Addresses of pages of the first bitmap. -/
theorem toPaddr_zero {i : ℕ} (hi : i < bitmapSize) : toPaddr 0 i = i * pageSize := by
  rw [bitmapSize_eq] at hi
  rw [toPaddr, Nat.zero_shiftLeft, Nat.zero_add, pageSize]
  exact wrap64_of_lt (by omega)

/-- The page of such an address. -/
theorem pageOf_mul (i : ℕ) : pageOf (i * pageSize) = i :=
  Nat.mul_div_cancel i (by decide)

/-! ## The shape of the manager -/

/-- What a pointer leads to is in the ring. -/
theorem mem_of_deref {s : PmState} {ref : BitmapRef} {b : MemBitmap}
    (hderef : s.deref ref = .ok b) :
    b ∈ s.memBitmaps := by
  cases ref with
  | head => cases hderef
  | node id =>
    rw [PmState.deref] at hderef
    split at hderef
    next hfind =>
      cases hderef
      exact List.mem_of_find?_eq_some hfind
    next => cases hderef

/-- The bit of a page of the first 128 MiB. -/
def PmState.pageBit (s : PmState) (i : ℕ) : Bool := bitAt s.maps .pagesBitmap0 i

/-- The pages that the first bitmap has free. -/
def PmState.freeSet (s : PmState) : Finset ℕ :=
  (Finset.range bitmapSize).filter fun i => s.pageBit i = false

/-- Their number. -/
def PmState.freePages (s : PmState) : ℕ := s.freeSet.card

/-- A page is free when it has a bit and the bit is clear. -/
theorem PmState.mem_freeSet {s : PmState} {i : ℕ} :
    i ∈ s.freeSet ↔ i < bitmapSize ∧ s.pageBit i = false := by
  rw [freeSet, Finset.mem_filter, Finset.mem_range]

/-- The first bitmap, with `first_free` at `c`. -/
structure IsFirst (c : ℕ) (b : MemBitmap) : Prop where
  id : b.id = 0
  index : b.index = 0
  firstFree : b.firstFree = c
  size : b.super.size = bitmapSize
  map : b.super.map = .pagesBitmap0

/-- A bitmap made by one of the first `calls` allocations: its index is 0 too. -/
structure IsLater (calls : ℕ) (b : MemBitmap) : Prop where
  id_pos : 0 < b.id
  id_le : b.id ≤ calls
  index : b.index = 0
  map : b.super.map ≠ .pagesBitmap0

/-- The ring starts with the first bitmap, and the manager works on it. -/
structure Shape (s : PmState) (c : ℕ) : Prop where
  first : s.firstFreeBitmap = .node 0
  bitmaps : ∃ b rest, s.memBitmaps = b :: rest ∧ IsFirst c b ∧
    ∀ b' ∈ rest, IsLater s.allocCalls b'

/-- Moreover `first_free` is the lowest free page. -/
structure Ready (s : PmState) (c : ℕ) : Prop extends Shape s c where
  lt : c < bitmapSize
  free : s.pageBit c = false
  below : ∀ i < c, s.pageBit i = true

/-- The history agrees with the bits of the first bitmap. -/
def Synced (s : PmState) : Prop := ∀ i < bitmapSize, s.isLocked i = s.pageBit i

/-- The ring and its bytes at most are changed. -/
structure SameRest (s s' : PmState) : Prop where
  memInfo : s'.memInfo = s.memInfo
  nextBitmapPage : s'.nextBitmapPage = s.nextBitmapPage
  allocCalls : s'.allocCalls = s.allocCalls
  history : s'.history = s.history
  handed : s'.handed = s.handed

/-- The pointer leads to the first bitmap. -/
theorem Shape.deref {s : PmState} {c : ℕ} (hs : Shape s c) :
    ∃ b, s.deref (.node 0) = .ok b ∧ IsFirst c b := by
  obtain ⟨b, rest, hlist, hb, -⟩ := hs.bitmaps
  refine ⟨b, ?_, hb⟩
  simp [PmState.deref, hlist, hb.id]

/-- A lookup of index 0 finds the first bitmap, other lookups find nothing. -/
theorem Shape.findBitmapByIndex {s : PmState} {c : ℕ} (hs : Shape s c) (index : ℕ) :
    (index = 0 → ∃ b, Mimik.Pm.findBitmapByIndex s index = some b ∧ IsFirst c b) ∧
      (index ≠ 0 → Mimik.Pm.findBitmapByIndex s index = none) := by
  obtain ⟨b, rest, hlist, hb, hrest⟩ := hs.bitmaps
  rw [Mimik.Pm.findBitmapByIndex, hlist]
  constructor
  · rintro rfl
    exact ⟨b, by simp [hb.index], hb⟩
  · intro hne
    rw [List.find?_eq_none]
    intro b' hb'
    have hindex : b'.index = 0 := by
      rcases List.mem_cons.mp hb' with rfl | hmem
      · exact hb.index
      · exact (hrest b' hmem).index
    simp [hindex, Ne.symm hne]

/-- Writing to the first bitmap. -/
theorem Shape.modify_first {s : PmState} {c c' : ℕ} (hs : Shape s c)
    {f : MemBitmap → MemBitmap} (hf : ∀ b, IsFirst c b → IsFirst c' (f b)) :
    Shape (s.modify 0 f) c' where
  first := hs.first
  bitmaps := by
    obtain ⟨b, rest, hlist, hb, hrest⟩ := hs.bitmaps
    refine ⟨f b, rest, ?_, hf b hb, hrest⟩
    have hother : rest.map (fun b => if b.id = 0 then f b else b) = rest :=
      (List.map_congr_left fun b' hb' => if_neg (hrest b' hb').id_pos.ne').trans (List.map_id _)
    simp only [PmState.modify, hlist, List.map_cons, hb.id, if_true, hother]

/-- Writing to another bitmap. -/
theorem Shape.modify_later {s : PmState} {c id : ℕ} (hs : Shape s c) (hid : id ≠ 0)
    {f : MemBitmap → MemBitmap} (hf : ∀ b, IsLater s.allocCalls b → IsLater s.allocCalls (f b)) :
    Shape (s.modify id f) c where
  first := hs.first
  bitmaps := by
    obtain ⟨b, rest, hlist, hb, hrest⟩ := hs.bitmaps
    refine ⟨b, rest.map fun b => if b.id = id then f b else b, ?_, hb, ?_⟩
    · simp only [PmState.modify, hlist, List.map_cons, hb.id, if_neg hid.symm]
    · intro b' hb'
      obtain ⟨b₀, hb₀, rfl⟩ := List.mem_map.mp hb'
      split
      next => exact hf b₀ (hrest b₀ hb₀)
      next => exact hrest b₀ hb₀

/-- Writing to the first bitmap leaves the others alone. -/
theorem Shape.modify_tail {s : PmState} {c : ℕ} (hs : Shape s c) (f : MemBitmap → MemBitmap) :
    (s.modify 0 f).memBitmaps.tail = s.memBitmaps.tail := by
  obtain ⟨b, rest, hlist, hb, hrest⟩ := hs.bitmaps
  simp only [PmState.modify, hlist, List.map_cons, List.tail_cons]
  exact (List.map_congr_left fun b' hb' => if_neg (hrest b' hb').id_pos.ne').trans
    (List.map_id _)

/-- The shape does not depend on the other variables. -/
theorem Shape.congr {s s' : PmState} {c : ℕ} (hs : Shape s c)
    (hfirst : s'.firstFreeBitmap = s.firstFreeBitmap) (hlist : s'.memBitmaps = s.memBitmaps)
    (hcalls : s'.allocCalls = s.allocCalls) : Shape s' c where
  first := hfirst.trans hs.first
  bitmaps := by
    rw [hlist, hcalls]
    exact hs.bitmaps

/-- The last of two writes to `first_free` counts. -/
theorem setFirstFree_setFirstFree (s : PmState) (id v w : ℕ) :
    (s.setFirstFree id v).setFirstFree id w = s.setFirstFree id w := by
  simp only [PmState.setFirstFree, PmState.modify, List.map_map]
  congr 1
  refine List.map_congr_left fun b _ => ?_
  by_cases hb : b.id = id
  · simp [hb]
  · simp [hb]

/-- Writing the value that is there changes nothing. -/
theorem Shape.setFirstFree_self {s : PmState} {c : ℕ} (hs : Shape s c) :
    s.setFirstFree 0 c = s := by
  obtain ⟨b, rest, hlist, hb, hrest⟩ := hs.bitmaps
  have hall : ∀ b' ∈ s.memBitmaps,
      (if b'.id = 0 then { b' with firstFree := c } else b') = b' := by
    intro b' hb'
    rw [hlist] at hb'
    rcases List.mem_cons.mp hb' with rfl | hmem
    · rw [if_pos hb.id, ← hb.firstFree]
    · exact if_neg (hrest b' hmem).id_pos.ne'
  rw [PmState.setFirstFree, PmState.modify, (List.map_congr_left hall).trans (List.map_id _)]

/-- Moving `first_free`. -/
theorem Shape.setFirstFree {s : PmState} {c : ℕ} (hs : Shape s c) (v : ℕ) :
    Shape (s.setFirstFree 0 v) v :=
  hs.modify_first fun _ hb => ⟨hb.id, hb.index, rfl, hb.size, hb.map⟩

/-- Where a page is free, one is the lowest. -/
theorem exists_lowest_free {s : PmState} (hfree : 0 < s.freePages) :
    ∃ j < bitmapSize, s.pageBit j = false ∧ ∀ i < j, s.pageBit i = true := by
  obtain ⟨i, hi⟩ := Finset.card_pos.mp hfree
  have hex : ∃ j, j < bitmapSize ∧ s.pageBit j = false := ⟨i, PmState.mem_freeSet.mp hi⟩
  refine ⟨Nat.find hex, (Nat.find_spec hex).1, (Nat.find_spec hex).2, ?_⟩
  intro k hk
  have hmin := Nat.find_min hex hk
  rw [not_and] at hmin
  simpa using hmin (lt_trans hk (Nat.find_spec hex).1)

/-! ## Searching for a free page -/

/-- A write to `first_free`, read through the pointer. -/
theorem deref_setFirstFree {s : PmState} {id v : ℕ} {b : MemBitmap}
    (hderef : s.deref (.node id) = .ok b) :
    (s.setFirstFree id v).deref (.node id) = .ok { b with firstFree := v } := by
  simp only [PmState.deref] at hderef ⊢
  split at hderef
  next b₀ hfind =>
    cases hderef
    have hid : b.id = id := by simpa using List.find?_some hfind
    have hfind' : (s.setFirstFree id v).memBitmaps.find? (·.id == id) =
        some { b with firstFree := v } := by
      have hsame : ∀ b' : MemBitmap,
          (((fun b : MemBitmap => b.id == id) ∘ fun b : MemBitmap =>
            if b.id = id then { b with firstFree := v } else b) b') = (b'.id == id) := by
        intro b'
        rw [Function.comp_apply]
        split <;> rfl
      simp only [PmState.setFirstFree, PmState.modify, List.find?_map, funext hsame, hfind,
        Option.map_some, hid, if_true]
    rw [hfind']
  next => cases hderef

/-- **The loop of `find_first_free_index`** stops at the next clear bit, or finds none up to
the size of the bitmap. -/
theorem findFirstFreeIndex_scan (env : PmEnv) (req : RequestPage) {j size : ℕ} {map : MapPtr}
    (hsize : size < 2 ^ 64) :
    ∀ (rounds : ℕ) (s : PmState) (b : MemBitmap), s.deref s.firstFreeBitmap = .ok b →
      b.super.size = size → b.super.map = map → b.firstFree < size → b.firstFree ≤ j →
      j ≤ size → (j < size → bitAt s.maps map j = false) →
      (∀ i, b.firstFree ≤ i → i < j → bitAt s.maps map i = true) → j - b.firstFree < rounds →
      findFirstFreeIndex env req rounds s =
        .ok (decide (j < size), if j = b.firstFree then s else s.setFirstFree b.id j) := by
  intro rounds
  induction rounds with
  | zero => intro s b _ _ _ _ _ _ _ _ hlt; omega
  | succ rounds ih =>
    intro s b hderef hbsize hmap hstart hle hj hfree hset hlt
    have hget := bitmapGet_eq (m := s.maps) (b := b.super) (hbsize ▸ hstart)
    rw [hmap] at hget
    rw [findFirstFreeIndex, hderef]
    simp only [bind, Except.bind, hget]
    rcases Nat.eq_or_lt_of_le hle with heq | hbehind
    · subst heq
      simp only [hfree hstart, Bool.false_eq_true, if_false, if_true, hstart, decide_true]
      rfl
    · have hbit := hset b.firstFree le_rfl hbehind
      have hnext : wrap64 (b.firstFree + 1) = b.firstFree + 1 := wrap64_of_lt (by omega)
      have hid : s.firstFreeBitmap = .node b.id := by
        cases hfirst : s.firstFreeBitmap with
        | head => rw [hfirst] at hderef; cases hderef
        | node id =>
          rw [hfirst, PmState.deref] at hderef
          split at hderef
          next b₀ hfind =>
            cases hderef
            have hid : b.id = id := by simpa using List.find?_some hfind
            rw [hid]
          next => cases hderef
      have hmoved : (s.setFirstFree b.id (b.firstFree + 1)).deref
          (s.setFirstFree b.id (b.firstFree + 1)).firstFreeBitmap =
          .ok { b with firstFree := b.firstFree + 1 } := by
        show (s.setFirstFree b.id (b.firstFree + 1)).deref s.firstFreeBitmap = _
        rw [hid]
        exact deref_setFirstFree (hid ▸ hderef)
      simp only [hbit, if_true, if_neg one_ne_zero, isError, Int.reduceLT, decide_false,
        Bool.false_eq_true, if_false, pure, Except.pure, hderef, hnext, hbsize, if_neg hbehind.ne']
      split
      next hgo =>
        rw [ih _ _ hmoved hbsize hmap hgo hbehind hj hfree
          (fun i hi => hset i (Nat.le_of_succ_le hi)) (by simp only; omega)]
        simp only [Except.ok.injEq, Prod.mk.injEq, true_and]
        split
        next heq => rw [heq]
        next => exact setFirstFree_setFirstFree s b.id (b.firstFree + 1) j
      next hstop =>
        obtain rfl : j = b.firstFree + 1 := by omega
        simp only [hstop, decide_false]

/-- In the first bitmap the next free page is found. -/
theorem findFirstFreeIndex_eq (env : PmEnv) (req : RequestPage) {j : ℕ} (hj : j < bitmapSize)
    (rounds : ℕ) (s : PmState) (c : ℕ) (hs : Shape s c) (hle : c ≤ j)
    (hfree : s.pageBit j = false) (hset : ∀ i, c ≤ i → i < j → s.pageBit i = true)
    (hlt : j - c < rounds) :
    findFirstFreeIndex env req rounds s = .ok (true, s.setFirstFree 0 j) := by
  obtain ⟨b, hderef, hb⟩ := hs.deref
  obtain rfl := hb.firstFree
  rw [findFirstFreeIndex_scan env req (by rw [bitmapSize_eq]; decide) rounds s b
    (hs.first ▸ hderef) hb.size hb.map (lt_of_le_of_lt hle hj) hle hj.le (fun _ => hfree) hset hlt]
  simp only [hj, decide_true, hb.id, Except.ok.injEq, Prod.mk.injEq, true_and]
  split
  next heq => rw [heq, hs.setFirstFree_self]
  next => rfl

/-! ## Pages of the first bitmap -/

/-- **`try_set_page` in the first 128 MiB** writes the bit of the page. -/
theorem trySetPage_first (env : PmEnv) (req : RequestPage) {s : PmState} {c paddr : ℕ}
    (hs : Shape s c) (hpaddr : toBitmap paddr = 0) (state : Bool) :
    ∃ s', trySetPage env req s paddr state = .ok (s.pageBit (pageOf paddr) == !state, s') ∧
      Shape s' c ∧ SameRest s s' ∧
      (∀ j, s'.pageBit j = if j = pageOf paddr then state else s.pageBit j) ∧
      (∀ page, s'.maps (.page page) = s.maps (.page page)) ∧
      s'.memBitmaps.tail = s.memBitmaps.tail := by
  obtain ⟨b, hfind, hb⟩ := (hs.findBitmapByIndex (toBitmap paddr)).1 hpaddr
  obtain ⟨b₁, hderef, hb₁⟩ := hs.deref
  obtain ⟨sts, super, maps, hset, hmap, hsize, hsts, hbits, hother⟩ :=
    bitmapSet_spec s.maps b₁.super state (i := toIndex paddr)
      (by rw [hb₁.size]; exact toIndex_lt paddr)
  rw [hb₁.map] at hsts hbits hother hmap
  rw [toIndex_eq_pageOf hpaddr] at hsts hbits hset
  refine ⟨{ s.modify 0 (fun b => { b with super := super }) with maps := maps }, ?_, ?_,
    ⟨rfl, rfl, rfl, rfl, rfl⟩, hbits, fun page => hother _ (by simp), hs.modify_tail _⟩
  · rw [trySetPage, hfind]
    simp only [bind, Except.bind, pure, Except.pure, hb.id, hderef, hset,
      toIndex_eq_pageOf hpaddr, Except.ok.injEq, Prod.mk.injEq, and_true]
    rw [Bool.eq_iff_iff, beq_iff_eq, beq_iff_eq, hsts, PmState.pageBit]
  · have hshape : Shape (s.modify 0 fun b => { b with super := super }) c :=
      hs.modify_first fun b' hb' =>
        ⟨hb'.id, hb'.index, hb'.firstFree, hsize.trans hb₁.size, hmap⟩
    exact hshape.congr rfl rfl rfl

/-! ## Taking pages -/

/-- From `s` to `s'`, pages that were free were taken, `n` in all, and nothing was
released; the manager is in order again. -/
structure Took (s s' : PmState) (n : ℕ) : Prop where
  ready : ∃ c, Ready s' c
  pages : s'.freePages + n = s.freePages
  grow : ∀ i, s.pageBit i = true → s'.pageBit i = true
  synced : Synced s → Synced s'
  far : ∀ i, bitmapSize ≤ i → s'.isLocked i = s.isLocked i
  handed : ∀ a ∈ s'.handed, a ∈ s.handed ∨
    ∃ i < bitmapSize, s.pageBit i = false ∧ a = i * pageSize

/-- No bitmap was made. -/
structure NoNewBitmap (s s' : PmState) : Prop where
  allocCalls : s'.allocCalls = s.allocCalls
  nextBitmapPage : s'.nextBitmapPage = s.nextBitmapPage
  maps : ∀ page, s'.maps (.page page) = s.maps (.page page)
  tail : s'.memBitmaps.tail = s.memBitmaps.tail

/-- Nothing taken. -/
theorem Took.refl {s : PmState} {c : ℕ} (hs : Ready s c) : Took s s 0 :=
  ⟨⟨c, hs⟩, rfl, fun _ h => h, id, fun _ _ => rfl, fun _ h => Or.inl h⟩

/-- One after the other. -/
theorem Took.trans {s₁ s₂ s₃ : PmState} {m n : ℕ} (h : Took s₁ s₂ m) (h' : Took s₂ s₃ n) :
    Took s₁ s₃ (m + n) where
  ready := h'.ready
  pages := by
    have := h.pages
    have := h'.pages
    omega
  grow i hi := h'.grow i (h.grow i hi)
  synced hs := h'.synced (h.synced hs)
  far i hi := (h'.far i hi).trans (h.far i hi)
  handed a ha := by
    rcases h'.handed a ha with ha | ⟨i, hi, hfree, rfl⟩
    · exact h.handed a ha
    · refine Or.inr ⟨i, hi, ?_, rfl⟩
      by_contra hset
      rw [h.grow i (by simpa using hset)] at hfree
      exact absurd hfree (by simp)

theorem NoNewBitmap.trans {s₁ s₂ s₃ : PmState} (h : NoNewBitmap s₁ s₂)
    (h' : NoNewBitmap s₂ s₃) : NoNewBitmap s₁ s₃ :=
  ⟨h'.allocCalls.trans h.allocCalls, h'.nextBitmapPage.trans h.nextBitmapPage,
    fun page => (h'.maps page).trans (h.maps page), h'.tail.trans h.tail⟩

/-- Setting one free bit leaves one free page less. -/
theorem freePages_set {s s' : PmState} {i : ℕ} (hi : i < bitmapSize)
    (hfree : s.pageBit i = false)
    (hbits : ∀ j, s'.pageBit j = if j = i then true else s.pageBit j) :
    s'.freePages + 1 = s.freePages := by
  have hmem : i ∈ s.freeSet := PmState.mem_freeSet.mpr ⟨hi, hfree⟩
  have herase : s'.freeSet = s.freeSet.erase i := by
    ext j
    rw [Finset.mem_erase, PmState.mem_freeSet, PmState.mem_freeSet, hbits]
    by_cases hj : j = i <;> simp [hj]
  rw [PmState.freePages, PmState.freePages, herase, Finset.card_erase_of_mem hmem]
  have := Finset.card_pos.mpr ⟨i, hmem⟩
  omega

/-- A lock of a page extends the history. -/
theorem isLocked_cons {s s' : PmState} {page : ℕ} {state : Bool}
    (hhist : s'.history = (page, state) :: s.history) (i : ℕ) :
    s'.isLocked i = if i = page then state else s.isLocked i := by
  rw [PmState.isLocked, PmState.isLocked, hhist, List.lookup_cons]
  by_cases hi : i = page
  · simp [hi]
  · simp [hi, beq_false_of_ne hi]

/-- The lock of a free page of the first bitmap sets its bit and moves `first_free` to the
lowest page that is left. -/
theorem tryLockPage_first_eq (env : PmEnv) (req : RequestPage) {rounds : ℕ} {s : PmState}
    {c paddr : ℕ} (hs : Shape s c) (hbelow : ∀ i < c, i ≠ pageOf paddr → s.pageBit i = true)
    (hrounds : bitmapSize ≤ rounds) (hpaddr : toBitmap paddr = 0)
    (hfree : s.pageBit (pageOf paddr) = false) (hroom : 1 < s.freePages) :
    ∃ s₁ j, trySetPage env req s paddr true = .ok (true, s₁) ∧ Ready (s₁.setFirstFree 0 j) j ∧
      tryLockPage env req rounds s paddr = .ok (true, (s₁.setFirstFree 0 j).pageLocked paddr) := by
  obtain ⟨s₁, hset, hshape, -, hbits, -⟩ := trySetPage_first env req hs hpaddr true
  have hcount := freePages_set (toBitmap_eq_zero_iff.mp hpaddr) hfree hbits
  obtain ⟨j, hj, hjfree, hjbelow⟩ := exists_lowest_free (s := s₁) (by omega)
  have hcj : c ≤ j := by
    by_contra hlt
    rw [hbits] at hjfree
    split at hjfree
    next => exact absurd hjfree (by simp)
    next hne => exact absurd ((hbelow j (by omega) hne).symm.trans hjfree) (by simp)
  obtain ⟨b, hderef, hb⟩ := hshape.deref
  have hsearch := findFirstFreeIndex_eq env req hj rounds s₁ c hshape hcj hjfree
    (fun i _ hi => hjbelow i hi) (by omega)
  rw [hfree] at hset
  refine ⟨s₁, j, hset, ⟨hshape.setFirstFree j, hj, hjfree, hjbelow⟩, ?_⟩
  rw [tryLockPage, hset]
  simp only [bind, Except.bind, Bool.not_true, beq_self_eq_true, if_true, hshape.first, hderef,
    hb.index, hpaddr, hsearch, pure, Except.pure]

/-- **Locking a page of the first bitmap.**  A free page is locked, as long as
another free page is left. -/
theorem tryLockPage_first (env : PmEnv) (req : RequestPage) {rounds : ℕ} {s : PmState}
    {c paddr : ℕ} (hs : Shape s c) (hbelow : ∀ i < c, i ≠ pageOf paddr → s.pageBit i = true)
    (hrounds : bitmapSize ≤ rounds) (hpaddr : toBitmap paddr = 0)
    (hfree : s.pageBit (pageOf paddr) = false) (hroom : 1 < s.freePages) :
    ∃ s', tryLockPage env req rounds s paddr = .ok (true, s') ∧ Took s s' 1 ∧
      NoNewBitmap s s' ∧ s'.pageBit (pageOf paddr) = true ∧ s'.handed = s.handed ∧
      s'.memInfo.free = sub64 s.memInfo.free pageSize := by
  obtain ⟨s₁, hset, hshape, hsame, hbits, hmaps, htail⟩ :=
    trySetPage_first env req hs hpaddr true
  have hcount := freePages_set (toBitmap_eq_zero_iff.mp hpaddr) hfree hbits
  obtain ⟨s₂, j, hset₂, hready, hlock⟩ :=
    tryLockPage_first_eq env req hs hbelow hrounds hpaddr hfree hroom
  rw [hset, hfree] at hset₂
  cases hset₂
  refine ⟨(s₁.setFirstFree 0 j).pageLocked paddr, hlock, ?_, ?_, ?_, ?_, ?_⟩
  · have hhist : ((s₁.setFirstFree 0 j).pageLocked paddr).history =
        (pageOf paddr, true) :: s.history := congrArg _ hsame.history
    refine ⟨⟨j, ⟨hready.toShape.congr rfl rfl rfl, hready.lt, hready.free, hready.below⟩⟩,
      hcount, ?_, ?_, ?_, ?_⟩
    · intro i hi
      refine (hbits i).trans ?_
      rw [hi, ite_self]
    · intro hsync i hi
      rw [isLocked_cons hhist, hsync i hi]
      exact (hbits i).symm
    · intro i hi
      have hpage := toBitmap_eq_zero_iff.mp hpaddr
      rw [isLocked_cons hhist, if_neg (by omega)]
    · intro a ha
      exact Or.inl (hsame.handed ▸ ha)
  · exact ⟨hsame.allocCalls, hsame.nextBitmapPage, hmaps, (hshape.modify_tail _).trans htail⟩
  · exact (hbits _).trans (if_pos rfl)
  · rw [PmState.pageLocked_handed]
    exact hsame.handed
  · exact congrArg (sub64 ·.free pageSize) hsame.memInfo

/-- What is ready stays ready when neither bits nor cursor move. -/
theorem Ready.of_bits {s s' : PmState} {c : ℕ} (hs : Ready s c) (hshape : Shape s' c)
    (hbits : ∀ j, s'.pageBit j = s.pageBit j) : Ready s' c :=
  ⟨hshape, hs.lt, (hbits c).trans hs.free, fun i hi => (hbits i).trans (hs.below i hi)⟩

/-- Equal bits, equally many free pages. -/
theorem freePages_congr {s s' : PmState} (hbits : ∀ j, s'.pageBit j = s.pageBit j) :
    s'.freePages = s.freePages := by
  simp only [PmState.freePages, PmState.freeSet, hbits]

/-- Equal histories, equal locks. -/
theorem isLocked_congr {s s' : PmState} (hhist : s'.history = s.history) (i : ℕ) :
    s'.isLocked i = s.isLocked i := by
  rw [PmState.isLocked, PmState.isLocked, hhist]

/-- A change that touches no bit of the first bitmap takes nothing. -/
theorem Took.of_bits {s s' : PmState} {c : ℕ} (hs : Ready s c) (hshape : Shape s' c)
    (hbits : ∀ j, s'.pageBit j = s.pageBit j) (hhist : s'.history = s.history)
    (hhanded : s'.handed = s.handed) : Took s s' 0 where
  ready := ⟨c, hs.of_bits hshape hbits⟩
  pages := freePages_congr hbits
  grow i hi := (hbits i).trans hi
  synced hsync i hi := by rw [isLocked_congr hhist, hsync i hi, hbits]
  far i _ := isLocked_congr hhist i
  handed a ha := Or.inl (hhanded ▸ ha)

/-- **Locking a page that is locked** changes nothing. -/
theorem tryLockPage_locked (env : PmEnv) (req : RequestPage) (rounds : ℕ) {s : PmState}
    {c paddr : ℕ} (hs : Ready s c) (hpaddr : toBitmap paddr = 0)
    (hlocked : s.pageBit (pageOf paddr) = true) :
    ∃ s', tryLockPage env req rounds s paddr = .ok (false, s') ∧ Took s s' 0 ∧
      NoNewBitmap s s' ∧ s'.history = s.history ∧ s'.handed = s.handed := by
  obtain ⟨s₁, hset, hshape, hsame, hbits, hmaps, htail⟩ :=
    trySetPage_first env req hs.toShape hpaddr true
  have hall : ∀ j, s₁.pageBit j = s.pageBit j := by
    intro j
    rw [hbits]
    split
    next hj => rw [hj, hlocked]
    next => rfl
  refine ⟨s₁, ?_, Took.of_bits hs hshape hall hsame.history hsame.handed,
    ⟨hsame.allocCalls, hsame.nextBitmapPage, hmaps, htail⟩, hsame.history, hsame.handed⟩
  rw [tryLockPage, hset, hlocked]
  rfl

/-! ## Requests -/

/-- What `create_bitmap` and `mm_alloc` rely on in a call of `pm_request_page`. -/
structure RequestOk (req : RequestPage) : Prop where
  returns : ∀ {s c}, Ready s c → 1 < s.freePages → pageSize ≤ s.memInfo.free →
    ∃ a s', req s = .ok (a, s')
  took : ∀ {s c a s'}, Ready s c → 1 < s.freePages → req s = .ok (a, s') →
    Took s s' 1 ∧ NoNewBitmap s s' ∧ s.memInfo.free = s'.memInfo.free + pageSize

/-- **`pm_request_page`** takes the lowest free page, as long as another one is left
and the memory counter allows it. -/
theorem pmRequestPage_eq (env : PmEnv) {fuel : ℕ} (hfuel : bitmapSize ≤ fuel) {s : PmState}
    {c : ℕ} (hs : Ready s c) (hroom : 1 < s.freePages) :
    if pageSize ≤ s.memInfo.free then
      ∃ s', pmRequestPage env (fuel + 1) s = .ok (c * pageSize, s') ∧ Took s s' 1 ∧
        NoNewBitmap s s' ∧ s.memInfo.free = s'.memInfo.free + pageSize
    else ∀ r, pmRequestPage env (fuel + 1) s ≠ .ok r := by
  split
  next hmem =>
    obtain ⟨b, hderef, hb⟩ := hs.deref
    have hpaddr := toPaddr_zero hs.lt
    have hpage : pageOf (c * pageSize) = c := pageOf_mul c
    have hnear : toBitmap (c * pageSize) = 0 := by
      rw [toBitmap_eq_zero_iff, hpage]
      exact hs.lt
    have hnext : wrap64 (c + 1) = c + 1 := by
      have := hs.lt
      rw [bitmapSize_eq] at this
      exact wrap64_of_lt (by omega)
    have hshape := hs.toShape.setFirstFree (c + 1)
    obtain ⟨s', hlock, htook, hquiet, -, hhanded, hfree⟩ :=
      tryLockPage_first env (pmRequestPage env fuel) hshape
        (by
          intro i hi hne
          rw [hpage] at hne
          exact hs.below i (by omega))
        hfuel hnear (by rw [hpage]; exact hs.free) hroom
    refine ⟨{ s' with handed := c * pageSize :: s'.handed }, ?_, ?_,
      ⟨hquiet.allocCalls, hquiet.nextBitmapPage, hquiet.maps,
        hquiet.tail.trans (hs.toShape.modify_tail _)⟩, ?_⟩
    · rw [pmRequestPage, hs.first]
      simp only [hmem, decide_true, assert_true, bind, Except.bind, hderef, hb.index,
        hb.firstFree, hpaddr, hnext, hb.id, hlock, pure, Except.pure]
    · obtain ⟨c', hready⟩ := htook.ready
      refine ⟨⟨c', ⟨hready.toShape.congr rfl rfl rfl, hready.lt, hready.free, hready.below⟩⟩,
        htook.pages, htook.grow, htook.synced, htook.far, ?_⟩
      intro a ha
      rcases List.mem_cons.mp ha with rfl | ha
      · exact Or.inr ⟨c, hs.lt, hs.free, rfl⟩
      · exact htook.handed a ha
    · have hsub : sub64 s.memInfo.free pageSize = s.memInfo.free - pageSize := by
        rw [sub64, if_neg (by omega)]
      have heq : s'.memInfo.free = s.memInfo.free - pageSize := hfree.trans hsub
      simp only [heq]
      omega
  next hmem =>
    intro r hok
    obtain ⟨_, hassert, -⟩ := Except.bind_eq_ok_iff.mp hok
    rw [assert_eq_ok, decide_eq_true_eq] at hassert
    exact hmem hassert

/-- `pm_request_page` is what its callers rely on. -/
theorem requestOk {env : PmEnv} {fuel : ℕ} (hfuel : bitmapSize < fuel) :
    RequestOk (pmRequestPage env fuel) := by
  obtain ⟨fuel, rfl⟩ := Nat.exists_eq_add_of_le' (Nat.one_le_of_lt hfuel)
  refine ⟨fun hs hroom hmem => ?_, fun {s c a s'} hs hroom hok => ?_⟩
  · have heq := pmRequestPage_eq env (Nat.le_of_lt_succ hfuel) hs hroom
    rw [if_pos hmem] at heq
    obtain ⟨s', hok, -⟩ := heq
    exact ⟨_, s', hok⟩
  · have heq := pmRequestPage_eq env (Nat.le_of_lt_succ hfuel) hs hroom
    split at heq
    next =>
      obtain ⟨s₁, hok₁, htook, hquiet, hfree⟩ := heq
      rw [hok] at hok₁
      cases hok₁
      exact ⟨htook, hquiet, hfree⟩
    next => exact absurd hok (heq _)

/-- **The requests of `mm_alloc`.** -/
theorem heapRequests_spec {req : RequestPage} (hreq : RequestOk req) :
    ∀ (n : ℕ) (s : PmState) (c : ℕ), Ready s c → n < s.freePages →
      (n * pageSize ≤ s.memInfo.free → ∃ s', heapRequests req n s = .ok s') ∧
      ∀ s', heapRequests req n s = .ok s' →
        Took s s' n ∧ NoNewBitmap s s' ∧ s.memInfo.free = s'.memInfo.free + n * pageSize := by
  intro n
  induction n with
  | zero =>
    intro s c hs _
    refine ⟨fun _ => ⟨s, rfl⟩, fun s' hok => ?_⟩
    cases hok
    exact ⟨.refl hs, ⟨rfl, rfl, fun _ => rfl, rfl⟩, by omega⟩
  | succ n ih =>
    intro s c hs hroom
    have hmul : (n + 1) * pageSize = n * pageSize + pageSize := by rw [Nat.add_mul, Nat.one_mul]
    have hstep : ∀ {a s₁}, req s = .ok (a, s₁) → Took s s₁ 1 ∧ NoNewBitmap s s₁ ∧
        s.memInfo.free = s₁.memInfo.free + pageSize := hreq.took hs (by omega)
    constructor
    · intro hmem
      obtain ⟨a, s₁, hok⟩ := hreq.returns hs (by omega) (by omega)
      obtain ⟨htook, -, hfree⟩ := hstep hok
      obtain ⟨c₁, hs₁⟩ := htook.ready
      have hpages := htook.pages
      obtain ⟨s', hrest⟩ := (ih s₁ c₁ hs₁ (by omega)).1 (by omega)
      exact ⟨s', by simp only [heapRequests, hok, bind, Except.bind, hrest]⟩
    · intro s' hok
      obtain ⟨⟨a, s₁⟩, hfst, hrest⟩ := Except.bind_eq_ok_iff.mp hok
      obtain ⟨htook, hquiet, hfree⟩ := hstep hfst
      obtain ⟨c₁, hs₁⟩ := htook.ready
      have hpages := htook.pages
      obtain ⟨htook', hquiet', hfree'⟩ := (ih s₁ c₁ hs₁ (by omega)).2 s' hrest
      refine ⟨Nat.add_comm 1 n ▸ htook.trans htook', hquiet.trans hquiet', by omega⟩

/-! ## Making a bitmap -/

/-- Inserting in front of the head of the ring appends. -/
theorem insertBefore_head (elem : MemBitmap) (bs : List MemBitmap) :
    insertBefore elem .head bs = bs ++ [elem] := by
  induction bs with
  | nil => rfl
  | cons b bs ih => rw [insertBefore, ih, List.cons_append]

/-- A bitmap other than the first is looked up behind it. -/
theorem Shape.deref_later {s : PmState} {c id : ℕ} (hs : Shape s c) (hid : id ≠ 0)
    {b : MemBitmap} (hfind : s.memBitmaps.tail.find? (·.id == id) = some b) :
    s.deref (.node id) = .ok b := by
  obtain ⟨b₀, rest, hlist, hb₀, -⟩ := hs.bitmaps
  rw [hlist, List.tail_cons] at hfind
  have hne : (b₀.id == id) = false := by
    rw [hb₀.id]
    exact beq_false_of_ne hid.symm
  simp only [PmState.deref, hlist, List.find?_cons, hne, hfind]

/-- The bitmap `id` is fresh: it lies behind the first one in the ring, its bytes are
in a page, and nothing is locked in it. -/
def Fresh (s : PmState) (id : ℕ) : Prop :=
  ∃ b page, s.memBitmaps.tail.find? (·.id == id) = some b ∧ b.super.size = bitmapSize ∧
    b.super.unset = bitmapSize ∧ b.super.map = .page page ∧
    ∀ i < bitmapSize, bitAt s.maps (.page page) i = false

/-- A fresh bitmap stays fresh while no other is made. -/
theorem Fresh.of_noNewBitmap {s s' : PmState} {id : ℕ} (hfresh : Fresh s id)
    (h : NoNewBitmap s s') : Fresh s' id := by
  obtain ⟨b, page, hfind, hsize, hunset, hmap, hclear⟩ := hfresh
  refine ⟨b, page, by rw [h.tail, hfind], hsize, hunset, hmap, fun i hi => ?_⟩
  rw [bitAt, h.maps, ← bitAt, hclear i hi]

/-- No bitmap has an index above another. -/
theorem Shape.find_above {s : PmState} {c : ℕ} (hs : Shape s c) (index : ℕ) :
    s.memBitmaps.find? (fun b => decide (index < b.index)) = none := by
  obtain ⟨b, rest, hlist, hb, hrest⟩ := hs.bitmaps
  rw [List.find?_eq_none, hlist]
  intro b' hb'
  rcases List.mem_cons.mp hb' with rfl | hmem
  · simp [hb.index]
  · simp [(hrest b' hmem).index]

/-- A call of `mm_alloc` is counted. -/
theorem Shape.called {s : PmState} {c : ℕ} (hs : Shape s c) :
    Shape { s with allocCalls := s.allocCalls + 1 } c := by
  obtain ⟨b, rest, hlist, hb, hrest⟩ := hs.bitmaps
  exact ⟨hs.first, b, rest, hlist, hb, fun b' hb' => ⟨(hrest b' hb').id_pos,
    Nat.le_succ_of_le (hrest b' hb').id_le, (hrest b' hb').index, (hrest b' hb').map⟩⟩

/-- The numbers of the bitmaps so far are not used again. -/
theorem Shape.id_ne {s : PmState} {c : ℕ} (hs : Shape s c) :
    ∀ b ∈ s.memBitmaps.tail, b.id ≠ s.allocCalls + 1 := by
  intro b' hb'
  obtain ⟨b, rest, hlist, -, hrest⟩ := hs.bitmaps
  rw [hlist, List.tail_cons] at hb'
  have := (hrest b' hb').id_le
  omega

/-- **The object of a new bitmap.** -/
theorem mmAllocBitmap_spec {env : PmEnv} {req : RequestPage} (hreq : RequestOk req)
    {s : PmState} {c : ℕ} (hs : Ready s c) (hroom : env.heapPages s.allocCalls < s.freePages) :
    (env.heapPages s.allocCalls * pageSize ≤ s.memInfo.free →
      ∃ r, mmAllocBitmap env req s = .ok r) ∧
    ∀ id s', mmAllocBitmap env req s = .ok (id, s') →
      id = s.allocCalls + 1 ∧ Took s s' (env.heapPages s.allocCalls) ∧
        s'.allocCalls = s.allocCalls + 1 ∧ s'.nextBitmapPage = s.nextBitmapPage ∧
        s'.memBitmaps.tail = s.memBitmaps.tail ∧
        s.memInfo.free = s'.memInfo.free + env.heapPages s.allocCalls * pageSize := by
  have hready : Ready { s with allocCalls := s.allocCalls + 1 } c :=
    ⟨hs.toShape.called, hs.lt, hs.free, hs.below⟩
  obtain ⟨hreturns, hpost⟩ := heapRequests_spec hreq (env.heapPages s.allocCalls) _ c hready hroom
  constructor
  · intro hmem
    obtain ⟨s', hok⟩ := hreturns hmem
    exact ⟨(s.allocCalls + 1, s'), by rw [mmAllocBitmap, hok]; rfl⟩
  · intro id s' hok
    obtain ⟨s₁, hheap, hret⟩ := Except.bind_eq_ok_iff.mp hok
    cases hret
    obtain ⟨htook, hquiet, hfree⟩ := hpost _ hheap
    exact ⟨rfl, ⟨htook.ready, htook.pages, htook.grow, htook.synced, htook.far, htook.handed⟩,
      hquiet.allocCalls, hquiet.nextBitmapPage, hquiet.tail, hfree⟩

/-- The bitmap that `create_bitmap` fills in. -/
def newBitmap (s : PmState) (id : ℕ) : MemBitmap :=
  .mk id 0 0 (bitmapFrom s.maps bitmapSize (MapPtr.page s.nextBitmapPage)).1

/-- **The new bitmap in the ring** lies behind all others. -/
theorem linkBitmap_shape {s : PmState} {c : ℕ} (id : ℕ) (hs : Shape s c) (hpos : 0 < id)
    (hle : id ≤ s.allocCalls) :
    Shape (linkBitmap s .head id) c ∧
      (linkBitmap s .head id).memBitmaps.tail = s.memBitmaps.tail ++ [newBitmap s id] ∧
      (∀ j, (linkBitmap s .head id).pageBit j = s.pageBit j) ∧
      (∀ j < bitmapSize,
        bitAt (linkBitmap s .head id).maps (.page s.nextBitmapPage) j = false) ∧
      ∀ ptr ≠ .page s.nextBitmapPage, (linkBitmap s .head id).maps ptr = s.maps ptr := by
  obtain ⟨hmap, -, hclear, hother⟩ := bitmapFrom_spec s.maps bitmapSize
    (MapPtr.page s.nextBitmapPage) (by rw [bitmapSize_eq]; omega)
  obtain ⟨b, rest, hlist, hb, hrest⟩ := hs.bitmaps
  have hlink : (linkBitmap s .head id).memBitmaps = b :: (rest ++ [newBitmap s id]) := by
    refine (insertBefore_head _ _).trans ?_
    rw [hlist]
    rfl
  refine ⟨⟨hs.first, b, _, hlink, hb, fun b' hb' => ?_⟩, ?_, fun j => ?_, hclear, hother⟩
  · rcases List.mem_append.mp hb' with hmem | hmem
    · exact hrest b' hmem
    · obtain rfl := List.mem_singleton.mp hmem
      refine ⟨hpos, hle, rfl, ?_⟩
      show (bitmapFrom s.maps bitmapSize (MapPtr.page s.nextBitmapPage)).1.map ≠ _
      rw [hmap]
      simp
  · rw [hlink, hlist, List.tail_cons, List.tail_cons]
  · exact congrArg (fun bytes => (bytes (j / 8)).getLsbD (j % 8)) (hother .pagesBitmap0 (by simp))

/-- Nothing is taken for it, and it is fresh. -/
theorem linkBitmap_spec {s : PmState} {c : ℕ} (id : ℕ) (hs : Ready s c) (hpos : 0 < id)
    (hle : id ≤ s.allocCalls) (hnew : ∀ b ∈ s.memBitmaps.tail, b.id ≠ id) :
    Ready (linkBitmap s .head id) c ∧ Took s (linkBitmap s .head id) 0 ∧
      Fresh (linkBitmap s .head id) id := by
  obtain ⟨hshape, htail, hbits, hclear, -⟩ := linkBitmap_shape id hs.toShape hpos hle
  refine ⟨hs.of_bits hshape hbits, .of_bits hs hshape hbits rfl rfl, ?_⟩
  refine ⟨newBitmap s id, _, ?_, rfl, rfl, rfl, hclear⟩
  have hnone : s.memBitmaps.tail.find? (·.id == id) = none := by
    rw [List.find?_eq_none]
    intro b' hb'
    simpa using hnew b' hb'
  rw [htail, List.find?_append, hnone]
  simp [newBitmap]

/-- The pages that making a bitmap takes from the first one, when `mm_alloc` has been
called `calls` times. -/
def PmEnv.bitmapCost (env : PmEnv) (calls : ℕ) : ℕ := env.heapPages calls + 1

/-- **`create_bitmap`**, whatever the index: it returns when there are pages enough,
and then it has taken those pages and made a fresh bitmap. -/
theorem createBitmap_spec {env : PmEnv} {req : RequestPage} (hreq : RequestOk req)
    {s : PmState} {c : ℕ} (hs : Ready s c) (index : ℕ)
    (hroom : env.bitmapCost s.allocCalls < s.freePages) :
    (s.nextBitmapPage ≠ 0 → env.bitmapCost s.allocCalls * pageSize ≤ s.memInfo.free →
      ∃ r, createBitmap env req s index = .ok r) ∧
    ∀ id s', createBitmap env req s index = .ok (id, s') →
      id ≠ 0 ∧ Took s s' (env.bitmapCost s.allocCalls) ∧ s'.allocCalls = s.allocCalls + 1 ∧
        Fresh s' id := by
  have hcost : env.bitmapCost s.allocCalls = env.heapPages s.allocCalls + 1 := rfl
  have hfind := hs.find_above index
  have hheap : env.heapPages s.allocCalls < s.freePages := by omega
  obtain ⟨hreturns, hpost⟩ := mmAllocBitmap_spec hreq hs hheap
  -- the state in which the page for the next bitmap is requested
  have hlinked : ∀ id s₁, mmAllocBitmap env req s = .ok (id, s₁) →
      ∃ c₁, id ≠ 0 ∧ Ready (linkBitmap s₁ .head id) c₁ ∧
        Took s (linkBitmap s₁ .head id) (env.heapPages s.allocCalls) ∧
        Fresh (linkBitmap s₁ .head id) id ∧ s₁.allocCalls = s.allocCalls + 1 ∧
        s₁.nextBitmapPage = s.nextBitmapPage ∧
        s.memInfo.free = s₁.memInfo.free + env.heapPages s.allocCalls * pageSize := by
    intro id s₁ halloc
    obtain ⟨rfl, htook, hcalls, hnext, htail, hfree⟩ := hpost id s₁ halloc
    obtain ⟨c₁, hs₁⟩ := htook.ready
    obtain ⟨hready, htook', hfresh⟩ := linkBitmap_spec (s.allocCalls + 1) hs₁
      (Nat.succ_pos _) hcalls.ge (htail ▸ hs.id_ne)
    exact ⟨c₁, Nat.succ_ne_zero _, hready, htook.trans htook', hfresh, hcalls, hnext, hfree⟩
  constructor
  · intro hnext hmem
    rw [hcost, Nat.add_mul, Nat.one_mul] at hmem
    obtain ⟨⟨id, s₁⟩, halloc⟩ := hreturns (by omega)
    obtain ⟨c₁, -, hready, htook, -, -, hnext', hfree⟩ := hlinked id s₁ halloc
    have hpages := htook.pages
    obtain ⟨a, s', hok⟩ := hreq.returns hready (by omega)
      (show pageSize ≤ s₁.memInfo.free by omega)
    refine ⟨(id, { s' with nextBitmapPage := a }), ?_⟩
    rw [createBitmap, hfind]
    have hpage : (s₁.nextBitmapPage != 0) = true := by
      rw [hnext']
      simpa using hnext
    simp only [bind, Except.bind, halloc, hpage, assert_true, hok, pure, Except.pure]
  · intro id s' hok
    rw [createBitmap, hfind] at hok
    obtain ⟨⟨id', s₁⟩, halloc, hok⟩ := Except.bind_eq_ok_iff.mp hok
    obtain ⟨_, -, hok⟩ := Except.bind_eq_ok_iff.mp hok
    obtain ⟨⟨a, s₃⟩, hreqok, hret⟩ := Except.bind_eq_ok_iff.mp hok
    cases hret
    obtain ⟨c₁, hid, hready, htook, hfresh, hcalls, -, -⟩ := hlinked _ s₁ halloc
    have hpages := htook.pages
    obtain ⟨htook', hquiet, -⟩ := hreq.took hready (by omega) hreqok
    have hall := htook.trans htook'
    obtain ⟨c₃, hs₃⟩ := hall.ready
    refine ⟨hid, ⟨⟨c₃, ⟨hs₃.toShape.congr rfl rfl rfl, hs₃.lt, hs₃.free, hs₃.below⟩⟩, hall.pages,
      hall.grow, hall.synced, hall.far, hall.handed⟩, hquiet.allocCalls.trans hcalls, ?_⟩
    obtain ⟨b', page, hfind', hrest'⟩ := hfresh.of_noNewBitmap hquiet
    exact ⟨b', page, hfind', hrest'⟩

/-! ## Pages beyond the first bitmap -/

/-- **`try_set_page` beyond the first 128 MiB** makes a new bitmap, whatever was done
to the page before, and succeeds exactly when it is to be locked. -/
theorem trySetPage_later {env : PmEnv} {req : RequestPage} (hreq : RequestOk req)
    {s : PmState} {c paddr : ℕ} (hs : Ready s c) (hpaddr : toBitmap paddr ≠ 0) (state : Bool)
    (hroom : env.bitmapCost s.allocCalls < s.freePages) :
    (s.nextBitmapPage ≠ 0 → env.bitmapCost s.allocCalls * pageSize ≤ s.memInfo.free →
      ∃ r, trySetPage env req s paddr state = .ok r) ∧
    ∀ r s', trySetPage env req s paddr state = .ok (r, s') →
      r = state ∧ Took s s' (env.bitmapCost s.allocCalls) ∧
        s'.allocCalls = s.allocCalls + 1 := by
  have hfind := (hs.findBitmapByIndex (toBitmap paddr)).2 hpaddr
  obtain ⟨hreturns, hpost⟩ := createBitmap_spec hreq hs (toBitmap paddr) hroom
  have hset : ∀ id s₁, createBitmap env req s (toBitmap paddr) = .ok (id, s₁) →
      ∃ s', trySetPage env req s paddr state = .ok (state, s') ∧
        Took s s' (env.bitmapCost s.allocCalls) ∧ s'.allocCalls = s.allocCalls + 1 := by
    intro id s₁ hcreate
    obtain ⟨hid, htook, hcalls, b, page, hlookup, hsize, -, hmap, hclear⟩ := hpost id s₁ hcreate
    obtain ⟨c₁, hs₁⟩ := htook.ready
    have hindex := toIndex_lt paddr
    obtain ⟨sts, super, maps, hbitmap, hmap', -, hsts, -, hother⟩ :=
      bitmapSet_spec s₁.maps b.super state (hsize.symm ▸ hindex)
    rw [hmap] at hmap' hsts hother
    rw [hclear _ hindex] at hsts
    have hshape : Shape (s₁.modify id fun b => { b with super := super }) c₁ :=
      hs₁.toShape.modify_later hid fun b' hb' =>
        ⟨hb'.id_pos, hb'.id_le, hb'.index, by rw [hmap']; simp⟩
    have hbits : ∀ j, bitAt maps .pagesBitmap0 j = s₁.pageBit j := by
      intro j
      have hbytes := hother .pagesBitmap0 (by simp)
      exact congrArg (fun bytes => (bytes (j / 8)).getLsbD (j % 8)) hbytes
    have htook' : Took s₁ { s₁.modify id (fun b => { b with super := super }) with
      maps := maps } 0 :=
      .of_bits hs₁ (hshape.congr rfl rfl rfl) hbits rfl rfl
    refine ⟨_, ?_, htook.trans htook', hcalls⟩
    rw [trySetPage, hfind]
    simp only [bind, Except.bind, hcreate, hs₁.deref_later hid hlookup, hbitmap, pure,
      Except.pure, Except.ok.injEq, Prod.mk.injEq, and_true]
    rw [Bool.eq_iff_iff, beq_iff_eq, hsts]
    cases state <;> simp
  constructor
  · intro hnext hmem
    obtain ⟨⟨id, s₁⟩, hcreate⟩ := hreturns hnext hmem
    obtain ⟨s', hok, -⟩ := hset id s₁ hcreate
    exact ⟨_, hok⟩
  · intro r s' hok
    have hsplit := hok
    rw [trySetPage, hfind] at hsplit
    obtain ⟨⟨id, s₁⟩, hcreate, -⟩ := Except.bind_eq_ok_iff.mp hsplit
    obtain ⟨s'', hok', htook, hcalls⟩ := hset id s₁ hcreate
    rw [hok] at hok'
    cases hok'
    exact ⟨rfl, htook, hcalls⟩

/-- A lock beyond the first 128 MiB leaves `first_free` alone. -/
theorem tryLockPage_later_eq {env : PmEnv} {req : RequestPage} {rounds : ℕ} {s s₁ : PmState}
    {c paddr : ℕ} (hpaddr : toBitmap paddr ≠ 0)
    (hset : trySetPage env req s paddr true = .ok (true, s₁)) (hs₁ : Shape s₁ c) :
    tryLockPage env req rounds s paddr = .ok (true, s₁.pageLocked paddr) := by
  obtain ⟨b, hderef, hb⟩ := hs₁.deref
  rw [tryLockPage, hset]
  simp only [bind, Except.bind, if_true, hs₁.first, hderef, hb.index, if_neg (Ne.symm hpaddr),
    pure, Except.pure]

/-- **`pm_try_lock_page` beyond the first 128 MiB** always succeeds. -/
theorem tryLockPage_later {env : PmEnv} {req : RequestPage} (hreq : RequestOk req)
    (rounds : ℕ) {s : PmState} {c paddr : ℕ} (hs : Ready s c) (hpaddr : toBitmap paddr ≠ 0)
    (hroom : env.bitmapCost s.allocCalls < s.freePages) :
    (s.nextBitmapPage ≠ 0 → env.bitmapCost s.allocCalls * pageSize ≤ s.memInfo.free →
      ∃ r, tryLockPage env req rounds s paddr = .ok r) ∧
    ∀ r s', tryLockPage env req rounds s paddr = .ok (r, s') →
      r = true ∧ ∃ s₁, Took s s₁ (env.bitmapCost s.allocCalls) ∧
        s₁.allocCalls = s.allocCalls + 1 ∧ s' = s₁.pageLocked paddr := by
  obtain ⟨hreturns, hpost⟩ := trySetPage_later hreq hs hpaddr true hroom
  have hlock : ∀ r s₁, trySetPage env req s paddr true = .ok (r, s₁) →
      tryLockPage env req rounds s paddr = .ok (true, s₁.pageLocked paddr) := by
    intro r s₁ hset
    obtain ⟨rfl, htook, -⟩ := hpost r s₁ hset
    obtain ⟨c₁, hs₁⟩ := htook.ready
    exact tryLockPage_later_eq hpaddr hset hs₁.toShape
  constructor
  · intro hnext hmem
    obtain ⟨⟨r, s₁⟩, hset⟩ := hreturns hnext hmem
    exact ⟨_, hlock r s₁ hset⟩
  · intro r s' hok
    obtain ⟨⟨r₁, s₁⟩, hset, -⟩ := Except.bind_eq_ok_iff.mp hok
    obtain ⟨-, htook, hcalls⟩ := hpost r₁ s₁ hset
    rw [hlock r₁ s₁ hset, Except.ok.injEq, Prod.mk.injEq] at hok
    exact ⟨hok.1.symm, s₁, htook, hcalls, hok.2.symm⟩

/-- **`pm_try_release_page` beyond the first 128 MiB** always fails. -/
theorem tryReleasePage_later {env : PmEnv} {req : RequestPage} (hreq : RequestOk req)
    {s : PmState} {c paddr : ℕ} (hs : Ready s c) (hpaddr : toBitmap paddr ≠ 0)
    (hroom : env.bitmapCost s.allocCalls < s.freePages) :
    (s.nextBitmapPage ≠ 0 → env.bitmapCost s.allocCalls * pageSize ≤ s.memInfo.free →
      ∃ r, tryReleasePage env req s paddr = .ok r) ∧
    ∀ r s', tryReleasePage env req s paddr = .ok (r, s') →
      r = false ∧ Took s s' (env.bitmapCost s.allocCalls) ∧
        s'.allocCalls = s.allocCalls + 1 := by
  obtain ⟨hreturns, hpost⟩ := trySetPage_later hreq hs hpaddr false hroom
  have hrelease : ∀ r s₁, trySetPage env req s paddr false = .ok (r, s₁) →
      tryReleasePage env req s paddr = .ok (false, s₁) := by
    intro r s₁ hset
    obtain ⟨rfl, -⟩ := hpost r s₁ hset
    rw [tryReleasePage, hset]
    rfl
  constructor
  · intro hnext hmem
    obtain ⟨⟨r, s₁⟩, hset⟩ := hreturns hnext hmem
    exact ⟨_, hrelease r s₁ hset⟩
  · intro r s' hok
    obtain ⟨⟨r₁, s₁⟩, hset, -⟩ := Except.bind_eq_ok_iff.mp hok
    obtain ⟨-, htook, hcalls⟩ := hpost r₁ s₁ hset
    rw [hrelease r₁ s₁ hset, Except.ok.injEq, Prod.mk.injEq] at hok
    exact ⟨hok.1.symm, hok.2 ▸ htook, hok.2 ▸ hcalls⟩

/-! ## Releasing a page of the first bitmap -/

/-- **Releasing a page that is free** changes nothing. -/
theorem tryReleasePage_free (env : PmEnv) (req : RequestPage) {s : PmState} {c paddr : ℕ}
    (hs : Ready s c) (hpaddr : toBitmap paddr = 0) (hfree : s.pageBit (pageOf paddr) = false) :
    ∃ s', tryReleasePage env req s paddr = .ok (false, s') ∧ Took s s' 0 ∧
      NoNewBitmap s s' ∧ s'.history = s.history ∧ s'.handed = s.handed := by
  obtain ⟨s₁, hset, hshape, hsame, hbits, hmaps, htail⟩ :=
    trySetPage_first env req hs.toShape hpaddr false
  have hall : ∀ j, s₁.pageBit j = s.pageBit j := by
    intro j
    rw [hbits]
    split
    next hj => rw [hj, hfree]
    next => rfl
  refine ⟨s₁, ?_, Took.of_bits hs hshape hall hsame.history hsame.handed,
    ⟨hsame.allocCalls, hsame.nextBitmapPage, hmaps, htail⟩, hsame.history, hsame.handed⟩
  rw [tryReleasePage, hset, hfree]
  rfl

/-- The release of a locked page of the first bitmap clears its bit, and leaves
`first_free` at the lowest free page. -/
theorem tryReleasePage_first_eq (env : PmEnv) (req : RequestPage) {s : PmState} {c paddr : ℕ}
    (hs : Ready s c) (hpaddr : toBitmap paddr = 0) (hlocked : s.pageBit (pageOf paddr) = true) :
    ∃ s₁ j, trySetPage env req s paddr false = .ok (true, s₁) ∧ Ready (s₁.setFirstFree 0 j) j ∧
      tryReleasePage env req s paddr = .ok (true, (s₁.setFirstFree 0 j).pageReleased paddr) := by
  obtain ⟨s₁, hset, hshape, -, hbits, -⟩ := trySetPage_first env req hs.toShape hpaddr false
  obtain ⟨b, hderef, hb⟩ := hshape.deref
  have hpage := toBitmap_eq_zero_iff.mp hpaddr
  rw [hlocked] at hset
  by_cases hlt : pageOf paddr < c
  · refine ⟨s₁, pageOf paddr, hset, ⟨hshape.setFirstFree _, hpage, ?_, ?_⟩, ?_⟩
    · exact (hbits _).trans (if_pos rfl)
    · intro i hi
      refine (hbits i).trans ?_
      rw [if_neg (by omega)]
      exact hs.below i (by omega)
    · rw [tryReleasePage, hset]
      simp only [bind, Except.bind, Bool.not_false, beq_self_eq_true, if_true, hshape.first,
        hderef, hb.index, hpaddr, lt_irrefl, if_false, pure, Except.pure, hb.firstFree,
        toIndex_eq_pageOf hpaddr, hlt, and_self, hb.id]
  · refine ⟨s₁, c, hset, ⟨hshape.setFirstFree _, hs.lt, ?_, ?_⟩, ?_⟩
    · refine (hbits c).trans ?_
      rw [hs.free, ite_self]
    · intro i hi
      refine (hbits i).trans ?_
      rw [if_neg (by omega)]
      exact hs.below i hi
    · rw [hshape.setFirstFree_self, tryReleasePage, hset]
      simp only [bind, Except.bind, Bool.not_false, beq_self_eq_true, if_true, hshape.first,
        hderef, hb.index, hpaddr, lt_irrefl, if_false, pure, Except.pure, hb.firstFree,
        toIndex_eq_pageOf hpaddr, hlt, and_false]

/-- **Releasing a page that is locked**: its bit is cleared, and the manager is in
order with `first_free` moved down to it if need be. -/
theorem tryReleasePage_first (env : PmEnv) (req : RequestPage) {s : PmState} {c paddr : ℕ}
    (hs : Ready s c) (hpaddr : toBitmap paddr = 0) (hlocked : s.pageBit (pageOf paddr) = true) :
    ∃ s', tryReleasePage env req s paddr = .ok (true, s') ∧ (∃ c', Ready s' c') ∧
      (∀ j, s'.pageBit j = if j = pageOf paddr then false else s.pageBit j) ∧
      s'.history = (pageOf paddr, false) :: s.history ∧ s'.handed = s.handed ∧
      NoNewBitmap s s' := by
  obtain ⟨s₁, hset, hshape, hsame, hbits, hmaps, htail⟩ :=
    trySetPage_first env req hs.toShape hpaddr false
  obtain ⟨s₂, j, hset₂, hready, hrelease⟩ := tryReleasePage_first_eq env req hs hpaddr hlocked
  rw [hset, hlocked] at hset₂
  cases hset₂
  refine ⟨(s₁.setFirstFree 0 j).pageReleased paddr, hrelease, ⟨j, ?_⟩, hbits, ?_, ?_,
    hsame.allocCalls, hsame.nextBitmapPage, hmaps, (hshape.modify_tail _).trans htail⟩
  · exact ⟨hready.toShape.congr rfl rfl rfl, hready.lt, hready.free, hready.below⟩
  · exact congrArg _ hsame.history
  · rw [PmState.pageReleased_handed]
    exact hsame.handed

end Mimik.Pm
