/-
# Ranges of pages in tracked bitmaps

This file is about states of the manager in general, reached from `pm_init` or not: all
that is asked of the ring is that a bitmap which a lookup finds has an object and bytes of
its own.  A page is tracked when a lookup finds a bitmap for it, and locked when its bit
there is set.

The loops of `pm_try_lock_pages` and `pm_try_release_pages` are then what one expects of
them, as long as the bitmap that is searched for a free page keeps one.  What is wrong is
around the loops: the number of pages is made of the length alone, without the offset of
the first byte in its page; and the results of the releases are joined with `|=`, from
`TRUE` on.
-/
import Mimik.PmSafety

namespace Mimik.Pm

-- `BITMAP_SIZE` is never to be counted down, nor a machine word
attribute [local irreducible] bitmapSize wrap64 sub64

/-! ## Bitmaps and their pages -/

/-- What no operation on a page changes of a bitmap. -/
def MemBitmap.key (b : MemBitmap) : ℕ × ℕ × ℕ × MapPtr := (b.id, b.index, b.super.size, b.super.map)

/-- The bitmap is reached through its address, and bitmaps of other indices have other
bytes. -/
structure Owns (s : PmState) (b : MemBitmap) : Prop where
  deref : s.deref (.node b.id) = .ok b
  id : ∀ b' ∈ s.memBitmaps, b'.id = b.id → b'.key = b.key
  map : ∀ b' ∈ s.memBitmaps, b'.super.map = b.super.map → b'.index = b.index
  size : b.super.size = bitmapSize

/-- A lookup finds a bitmap for the page. -/
def PmState.Tracks (s : PmState) (page : ℕ) : Prop :=
  ∃ b, findBitmapByIndex s (page / bitmapSize) = some b

/-- The bit of a page, in the bitmap that a lookup finds for it. -/
def PmState.locked (s : PmState) (page : ℕ) : Bool :=
  match findBitmapByIndex s (page / bitmapSize) with
  | some b => bitAt s.maps b.super.map (page % bitmapSize)
  | none => false

/-- Bitmaps that a lookup finds are on their own, and `first_free_bitmap` is a bitmap. -/
structure Tracking (s : PmState) (first : MemBitmap) : Prop where
  owns : ∀ index b, findBitmapByIndex s index = some b → Owns s b
  deref : s.deref s.firstFreeBitmap = .ok first

/-- Moreover `first_free_bitmap` is the bitmap that a lookup of its index finds, and its pages
below `first_free` are locked. -/
structure Searching (s : PmState) (first : MemBitmap) : Prop extends Tracking s first where
  found : findBitmapByIndex s first.index = some first
  le : first.firstFree ≤ bitmapSize
  below : ∀ i < first.firstFree, s.locked (first.index * bitmapSize + i) = true

/-- The page of an address, from its bitmap and its index there. -/
theorem pageOf_eq (a : ℕ) : pageOf a = toBitmap a * bitmapSize + toIndex a := by
  rw [toBitmap_eq, toIndex_eq, pageOf, pageSize, bitmapSize_eq]
  omega

/-- The bitmap of a page, and its index there. -/
theorem div_mod_page (index : ℕ) {i : ℕ} (hi : i < bitmapSize) :
    (index * bitmapSize + i) / bitmapSize = index ∧
      (index * bitmapSize + i) % bitmapSize = i := by
  rw [bitmapSize_eq] at hi ⊢
  omega

/-- The bit of a page of a bitmap that a lookup finds. -/
theorem locked_eq {s : PmState} {index i : ℕ} {b : MemBitmap}
    (hfind : findBitmapByIndex s index = some b) (hi : i < bitmapSize) :
    s.locked (index * bitmapSize + i) = bitAt s.maps b.super.map i := by
  obtain ⟨hdiv, hmod⟩ := div_mod_page index hi
  rw [PmState.locked, hdiv, hmod, hfind]

/-- A lookup finds a bitmap of the ring with the index. -/
theorem findBitmapByIndex_some {s : PmState} {index : ℕ} {b : MemBitmap}
    (hfind : findBitmapByIndex s index = some b) : b ∈ s.memBitmaps ∧ b.index = index :=
  ⟨List.mem_of_find?_eq_some hfind, by simpa using List.find?_some hfind⟩

/-! ## Rewriting the ring -/

section Rewrite

variable {s s' : PmState} {b first : MemBitmap} {g : MemBitmap → MemBitmap}

/-- The bitmaps of the ring are rewritten, but for their keys. -/
structure Rewrites (g : MemBitmap → MemBitmap) (s s' : PmState) : Prop where
  key : ∀ b, (g b).key = b.key
  list : s'.memBitmaps = s.memBitmaps.map g
  first : s'.firstFreeBitmap = s.firstFreeBitmap

theorem Rewrites.id (h : Rewrites g s s') (b : MemBitmap) : (g b).id = b.id :=
  congrArg (·.1) (h.key b)

theorem Rewrites.index (h : Rewrites g s s') (b : MemBitmap) : (g b).index = b.index :=
  congrArg (·.2.1) (h.key b)

theorem Rewrites.size (h : Rewrites g s s') (b : MemBitmap) :
    (g b).super.size = b.super.size := congrArg (·.2.2.1) (h.key b)

theorem Rewrites.map (h : Rewrites g s s') (b : MemBitmap) :
    (g b).super.map = b.super.map := congrArg (·.2.2.2) (h.key b)

/-- A lookup finds the bitmap that is there now. -/
theorem Rewrites.find (h : Rewrites g s s') (index : ℕ) :
    findBitmapByIndex s' index = (findBitmapByIndex s index).map g := by
  have hsame : ((fun b : MemBitmap => b.index == index) ∘ g) = fun b => b.index == index :=
    funext fun b => by rw [Function.comp_apply, h.index]
  rw [findBitmapByIndex, findBitmapByIndex, h.list, List.find?_map, hsame]

/-- So does a pointer. -/
theorem Rewrites.deref (h : Rewrites g s s') {ref : BitmapRef} (hderef : s.deref ref = .ok b) :
    s'.deref ref = .ok (g b) := by
  cases ref with
  | head => cases hderef
  | node id =>
    have hsame : ((fun b : MemBitmap => b.id == id) ∘ g) = fun b => b.id == id :=
      funext fun b => by rw [Function.comp_apply, h.id]
    rw [PmState.deref] at hderef ⊢
    rw [h.list, List.find?_map, hsame]
    split at hderef
    next b₀ hfind =>
      cases hderef
      rw [hfind]
      rfl
    next => cases hderef

theorem Rewrites.owns (h : Rewrites g s s') (hb : Owns s b) : Owns s' (g b) where
  deref := by
    rw [h.id]
    exact h.deref hb.deref
  id b' hb' hid := by
    rw [h.list] at hb'
    obtain ⟨b₀, hb₀, rfl⟩ := List.mem_map.mp hb'
    rw [h.id, h.id] at hid
    rw [h.key, h.key]
    exact hb.id b₀ hb₀ hid
  map b' hb' hmap := by
    rw [h.list] at hb'
    obtain ⟨b₀, hb₀, rfl⟩ := List.mem_map.mp hb'
    rw [h.map, h.map] at hmap
    rw [h.index, h.index]
    exact hb.map b₀ hb₀ hmap
  size := (h.size b).trans hb.size

theorem Rewrites.tracking (h : Rewrites g s s') (hs : Tracking s first) :
    Tracking s' (g first) where
  owns index b hfind := by
    rw [h.find] at hfind
    obtain ⟨b₀, hb₀, rfl⟩ := Option.map_eq_some_iff.mp hfind
    exact h.owns (hs.owns index b₀ hb₀)
  deref := by
    rw [h.first]
    exact h.deref hs.deref

theorem Rewrites.tracks (h : Rewrites g s s') (page : ℕ) : s'.Tracks page ↔ s.Tracks page := by
  rw [PmState.Tracks, PmState.Tracks, h.find]
  simp

/-- The bits of a page are where they were. -/
theorem Rewrites.locked (h : Rewrites g s s') (page : ℕ) : s'.locked page =
    match findBitmapByIndex s (page / bitmapSize) with
    | some b => bitAt s'.maps b.super.map (page % bitmapSize)
    | none => false := by
  rw [PmState.locked, h.find]
  cases findBitmapByIndex s (page / bitmapSize) with
  | none => rfl
  | some b => exact congrArg (bitAt s'.maps · _) (h.map b)

/-- Rewriting a bitmap through its address. -/
theorem rewrites_modify (hb : Owns s b) {f : MemBitmap → MemBitmap}
    (hf : ∀ b', b'.key = b.key → (f b').key = b'.key) (maps : Bytes MapPtr) :
    Rewrites (fun b' => if b'.key = b.key then f b' else b') s
      { s.modify b.id f with maps := maps } where
  key b' := by
    split
    next h => exact hf b' h
    next => rfl
  list := by
    refine List.map_congr_left fun b' hb' => if_congr ⟨hb.id b' hb', fun h => ?_⟩ rfl rfl
    exact congrArg (·.1) h
  first := rfl

end Rewrite

/-! ## Operations on a tracked page -/

section Operations

variable {env : PmEnv} {req : RequestPage} {s s' : PmState} {b first : MemBitmap} {a : ℕ}

/-- The lock state of one page is written, and no page gets or loses its bitmap. -/
structure SetsPage (s s' : PmState) (page : ℕ) (state : Bool) : Prop where
  locked : ∀ q, s'.locked q = if q = page then state else s.locked q
  tracks : ∀ q, s'.Tracks q ↔ s.Tracks q

/-- Pointers and lookups depend on the ring alone. -/
theorem deref_congr (hlist : s'.memBitmaps = s.memBitmaps) (ref : BitmapRef) :
    s'.deref ref = s.deref ref := by
  cases ref with
  | head => rfl
  | node id => rw [PmState.deref, PmState.deref, hlist]

/-- So does the condition on the bitmaps that are found. -/
theorem owns_congr (hlist : s'.memBitmaps = s.memBitmaps)
    (howns : ∀ index b, findBitmapByIndex s index = some b → Owns s b) (index : ℕ)
    (b : MemBitmap) (hb : findBitmapByIndex s' index = some b) : Owns s' b := by
  rw [findBitmapByIndex, hlist] at hb
  obtain ⟨hderef, hid, hmap, hsize⟩ := howns index b hb
  exact ⟨(deref_congr hlist _).trans hderef, hlist ▸ hid, hlist ▸ hmap, hsize⟩

/-- What does not concern the ring. -/
theorem Tracking.congr (hs : Tracking s first) (hlist : s'.memBitmaps = s.memBitmaps)
    (hfirst : s'.firstFreeBitmap = s.firstFreeBitmap) : Tracking s' first where
  owns := owns_congr hlist hs.owns
  deref := by
    rw [hfirst, deref_congr hlist]
    exact hs.deref

/-- What a rewriting does to the counters of unset bits: that of `b` follows its bit, the others
are as they were. -/
structure WritesUnset (g : MemBitmap → MemBitmap) (b : MemBitmap) (old new : Bool) : Prop where
  own : (g b).super.unset = if old = new then b.super.unset
    else if new then pred64 b.super.unset else wrap64 (b.super.unset + 1)
  other : ∀ b', b'.key ≠ b.key → g b' = b'

/-- **`try_set_page` on a tracked page** writes its bit. -/
theorem trySetPage_tracked (env : PmEnv) (req : RequestPage)
    (hfind : findBitmapByIndex s (toBitmap a) = some b)
    (howns : ∀ index b, findBitmapByIndex s index = some b → Owns s b) (state : Bool) :
    ∃ g s₁, trySetPage env req s a state = .ok (s.locked (pageOf a) == !state, s₁) ∧
      Rewrites g s s₁ ∧ (∀ b, (g b).firstFree = b.firstFree) ∧
      SetsPage s s₁ (pageOf a) state ∧ WritesUnset g b (s.locked (pageOf a)) state := by
  have hb := howns _ _ hfind
  have hbit : s.locked (pageOf a) = bitAt s.maps b.super.map (toIndex a) := by
    rw [pageOf_eq, locked_eq hfind (toIndex_lt a)]
  obtain ⟨sts, super, maps, hset, hmap, hsize, hsts, hbits, hother⟩ :=
    bitmapSet_spec s.maps b.super state (i := toIndex a) (by rw [hb.size]; exact toIndex_lt a)
  have hunset := bitmapSet_unset s.maps b.super (toIndex a) state
  rw [hset] at hunset
  have hrewrite := rewrites_modify hb (f := fun b => { b with super := super })
    (fun b' hkey => by
      have hsize' : b'.super.size = b.super.size := congrArg (·.2.2.1) hkey
      have hmap' : b'.super.map = b.super.map := congrArg (·.2.2.2) hkey
      simp only [MemBitmap.key, hsize, hmap, hsize', hmap']) maps
  refine ⟨_, _, ?_, hrewrite, fun b' => ?_, ⟨fun q => ?_, hrewrite.tracks⟩, ?_,
    fun b' hkey => if_neg hkey⟩
  · rw [trySetPage, hfind]
    simp only [bind, Except.bind, pure, Except.pure, hb.deref, hset, hbit, Except.ok.injEq,
      Prod.mk.injEq, and_true]
    rw [Bool.eq_iff_iff, beq_iff_eq, beq_iff_eq, hsts]
  · split <;> rfl
  · rw [hrewrite.locked, PmState.locked]
    have hpage : q = pageOf a ↔ q / bitmapSize = toBitmap a ∧ q % bitmapSize = toIndex a := by
      rw [pageOf_eq]
      have hdiv := div_mod_page (toBitmap a) (toIndex_lt a)
      constructor
      · rintro rfl
        exact hdiv
      · rintro ⟨h, h'⟩
        rw [← h, ← h', Nat.div_add_mod']
    by_cases hbitmap : q / bitmapSize = toBitmap a
    · have hindex : q = pageOf a ↔ q % bitmapSize = toIndex a := by
        rw [hpage, and_iff_right hbitmap]
      rw [hbitmap, hfind]
      simp only [hbits, hindex]
    · rw [if_neg fun h => hbitmap (hpage.mp h).1]
      cases hfind' : findBitmapByIndex s (q / bitmapSize) with
      | none => rfl
      | some b' =>
        obtain ⟨hmem, hindex⟩ := findBitmapByIndex_some hfind'
        have hne : b'.super.map ≠ b.super.map := fun h => hbitmap <| by
          rw [← hindex, hb.map b' hmem h, (findBitmapByIndex_some hfind).2]
        simp only [bitAt, hother _ hne]
  · rw [if_pos rfl]
    refine hunset.trans ?_
    simp only [hsts, hbit]
    cases bitAt s.maps b.super.map (toIndex a) <;> cases state <;> rfl

/-- Moving `first_free` of a bitmap. -/
theorem rewrites_setFirstFree (s : PmState) (id v : ℕ) :
    Rewrites (fun b => if b.id = id then { b with firstFree := v } else b) s
      (s.setFirstFree id v) where
  key b := by
    split <;> rfl
  list := rfl
  first := rfl

/-- Where the bytes are the same, so are the locks. -/
theorem Rewrites.setsNothing {g : MemBitmap → MemBitmap} (h : Rewrites g s s')
    (hmaps : s'.maps = s.maps) (page : ℕ) : s'.locked page = s.locked page := by
  rw [h.locked, PmState.locked, hmaps]

/-- **The release of a tracked page** says whether it was locked. -/
theorem tryReleasePage_tracked (env : PmEnv) (req : RequestPage) (hs : Tracking s first)
    (htracks : s.Tracks (pageOf a)) :
    ∃ s' first', tryReleasePage env req s a = .ok (s.locked (pageOf a), s') ∧
      Tracking s' first' ∧ SetsPage s s' (pageOf a) false := by
  obtain ⟨b, hfind⟩ := htracks
  rw [pageOf_eq, (div_mod_page _ (toIndex_lt a)).1] at hfind
  obtain ⟨g, s₁, hset, hg, -, hsets, -⟩ := trySetPage_tracked env req hfind hs.owns false
  rw [Bool.not_false, beq_true] at hset
  have hs₁ := hg.tracking hs
  cases hlocked : s.locked (pageOf a) with
  | false =>
    rw [hlocked] at hset
    exact ⟨s₁, g first, by rw [tryReleasePage, hset]; rfl, hs₁, hsets⟩
  | true =>
    rw [hlocked] at hset
    have hfind₁ : findBitmapByIndex s₁ (toBitmap a) = some (g b) := by
      rw [hg.find, hfind]
      rfl
    -- the bitmap that is searched from now on
    obtain ⟨s₂, second, hrun, hs₂, hsets₂⟩ : ∃ s₂ second, tryReleasePage env req s a =
        .ok (true, (if toBitmap a = second.index ∧ toIndex a < second.firstFree then
          s₂.setFirstFree second.id (toIndex a) else s₂).pageReleased a) ∧
        Tracking s₂ second ∧ SetsPage s s₂ (pageOf a) false := by
      by_cases hlt : toBitmap a < (g first).index
      · have hs₂ : Tracking { s₁ with firstFreeBitmap := .node (g b).id } (g b) :=
          ⟨owns_congr (s := s₁) rfl hs₁.owns, (hs₁.owns _ _ hfind₁).deref⟩
        refine ⟨_, _, ?_, hs₂, hsets.locked, hsets.tracks⟩
        rw [tryReleasePage, hset]
        simp only [bind, Except.bind, hs₁.deref, if_true, pure, Except.pure, if_pos hlt, hfind₁,
          hs₂.deref]
      · refine ⟨_, _, ?_, hs₁, hsets⟩
        rw [tryReleasePage, hset]
        simp only [bind, Except.bind, hs₁.deref, if_true, pure, Except.pure, if_neg hlt]
    by_cases hlow : toBitmap a = second.index ∧ toIndex a < second.firstFree
    · rw [if_pos hlow] at hrun
      have hmoved := rewrites_setFirstFree s₂ second.id (toIndex a)
      exact ⟨_, _, hrun, (hmoved.tracking hs₂).congr rfl rfl,
        fun q => (hmoved.setsNothing rfl q).trans (hsets₂.locked q),
        fun q => (hmoved.tracks q).trans (hsets₂.tracks q)⟩
    · rw [if_neg hlow] at hrun
      exact ⟨_, second, hrun, hs₂.congr rfl rfl, hsets₂.locked, hsets₂.tracks⟩

/-- What does not concern the ring or its bytes. -/
theorem Searching.congr (hs : Searching s first) (hlist : s'.memBitmaps = s.memBitmaps)
    (hfirst : s'.firstFreeBitmap = s.firstFreeBitmap) (hmaps : s'.maps = s.maps) :
    Searching s' first where
  toTracking := hs.toTracking.congr hlist hfirst
  found := by
    rw [findBitmapByIndex, hlist]
    exact hs.found
  le := hs.le
  below i hi := by
    rw [PmState.locked, findBitmapByIndex, hlist, hmaps]
    exact hs.below i hi

/-- The search for the next free page is in order again when `first_free` is moved to `v`, below
which all pages are locked. -/
theorem Searching.move (hs : Searching s first) {v : ℕ} (hv : v ≤ bitmapSize)
    (hbelow : ∀ i < v, s.locked (first.index * bitmapSize + i) = true) :
    Searching (s.setFirstFree first.id v) { first with firstFree := v } := by
  have hmoved := rewrites_setFirstFree s first.id v
  have htracking := hmoved.tracking hs.toTracking
  have hfound := hmoved.find first.index
  rw [if_pos rfl] at htracking
  rw [hs.found, Option.map_some, if_pos rfl] at hfound
  exact ⟨htracking, hfound, hv, fun i hi => (hmoved.setsNothing rfl _).trans (hbelow i hi)⟩

/-- **The lock of a tracked page** says whether it was free, as long as another page of the bitmap
that is searched is. -/
theorem tryLockPage_tracked (env : PmEnv) (req : RequestPage) {rounds : ℕ}
    (hrounds : bitmapSize ≤ rounds) (hs : Searching s first) (htracks : s.Tracks (pageOf a))
    (hroom : toBitmap a = first.index → ∃ j < bitmapSize,
      s.locked (first.index * bitmapSize + j) = false ∧
        first.index * bitmapSize + j ≠ pageOf a) :
    ∃ s' first', tryLockPage env req rounds s a = .ok (!s.locked (pageOf a), s') ∧
      Searching s' first' ∧ first'.index = first.index ∧ SetsPage s s' (pageOf a) true := by
  obtain ⟨b, hfind⟩ := htracks
  rw [pageOf_eq, (div_mod_page _ (toIndex_lt a)).1] at hfind
  obtain ⟨g, s₁, hset, hg, hcursor, hsets, -⟩ := trySetPage_tracked env req hfind hs.owns true
  rw [Bool.not_true, beq_false] at hset
  have hindex := hg.index first
  have hs₁ : Searching s₁ (g first) := by
    refine ⟨hg.tracking hs.toTracking, ?_, (hcursor first).trans_le hs.le, fun i hi => ?_⟩
    · rw [hindex, hg.find, hs.found]
      rfl
    · rw [hcursor] at hi
      rw [hindex, hsets.locked, hs.below i hi, ite_self]
  cases hlocked : s.locked (pageOf a) with
  | true =>
    rw [hlocked] at hset
    exact ⟨s₁, g first, by rw [tryLockPage, hset]; rfl, hs₁, hindex, hsets⟩
  | false =>
    rw [hlocked] at hset
    by_cases hsame : (g first).index = toBitmap a
    · -- the lowest page that is left free
      have hex : ∃ j, j < bitmapSize ∧ s₁.locked ((g first).index * bitmapSize + j) = false := by
        obtain ⟨j, hj, hfree, hne⟩ := hroom (hsame.symm.trans hindex)
        exact ⟨j, hj, by rw [hindex, hsets.locked, if_neg hne, hfree]⟩
      obtain ⟨hj, hfree⟩ := Nat.find_spec hex
      have hbelow : ∀ i < Nat.find hex, s₁.locked ((g first).index * bitmapSize + i) = true := by
        intro i hi
        have hmin := Nat.find_min hex hi
        rw [not_and, Bool.not_eq_false] at hmin
        exact hmin (lt_trans hi hj)
      have hle : (g first).firstFree ≤ Nat.find hex := by
        by_contra hlt
        rw [hs₁.below _ (by omega)] at hfree
        cases hfree
      have hscan : findFirstFreeIndex env req rounds s₁ = .ok (decide (Nat.find hex < bitmapSize),
          if Nat.find hex = (g first).firstFree then s₁
          else s₁.setFirstFree (g first).id (Nat.find hex)) :=
        findFirstFreeIndex_scan env req (by rw [bitmapSize_eq]; decide) rounds s₁ (g first)
          hs₁.deref (hs₁.owns _ _ hs₁.found).size rfl (lt_of_le_of_lt hle hj) hle hj.le
          (fun _ => (locked_eq hs₁.found hj).symm.trans hfree)
          (fun i _ hi => (locked_eq hs₁.found (lt_trans hi hj)).symm.trans (hbelow i hi)) (by omega)
      rw [decide_eq_true hj] at hscan
      have hrun : tryLockPage env req rounds s a = .ok (true,
          (if Nat.find hex = (g first).firstFree then s₁
            else s₁.setFirstFree (g first).id (Nat.find hex)).pageLocked a) := by
        rw [tryLockPage, hset]
        simp only [bind, Except.bind, hs₁.deref, if_true, if_pos hsame, hscan, pure, Except.pure,
          Bool.not_false]
      by_cases hstay : Nat.find hex = (g first).firstFree
      · rw [if_pos hstay] at hrun
        exact ⟨_, g first, hrun, hs₁.congr rfl rfl rfl, hindex, hsets.locked, hsets.tracks⟩
      · rw [if_neg hstay] at hrun
        have hmoved := rewrites_setFirstFree s₁ (g first).id (Nat.find hex)
        exact ⟨_, _, hrun, (hs₁.move hj.le hbelow).congr rfl rfl rfl, hindex,
          fun q => (hmoved.setsNothing rfl q).trans (hsets.locked q),
          fun q => (hmoved.tracks q).trans (hsets.tracks q)⟩
    · refine ⟨s₁.pageLocked a, g first, ?_, hs₁.congr rfl rfl rfl, hindex,
        hsets.locked, hsets.tracks⟩
      rw [tryLockPage, hset]
      simp only [bind, Except.bind, hs₁.deref, if_true, if_neg hsame, pure, Except.pure,
        Bool.not_false]

end Operations

/-! ## Loops over tracked pages -/

section Loops

variable {env : PmEnv} {fuel n : ℕ} {s s' : PmState} {first : MemBitmap} {a : ℕ}

/-- The page is one of the `n` from `p` on. -/
def InRow (p n q : ℕ) : Prop := p ≤ q ∧ q < p + n

/-- The lock states of pages in a row are written, and no page gets or loses its bitmap. -/
structure SetsRow (s s' : PmState) (p n : ℕ) (state : Bool) : Prop where
  inside : ∀ q, InRow p n q → s'.locked q = state
  outside : ∀ q, ¬ InRow p n q → s'.locked q = s.locked q
  tracks : ∀ q, s'.Tracks q ↔ s.Tracks q

/-- No pages. -/
theorem SetsRow.zero (s : PmState) (p : ℕ) (state : Bool) : SetsRow s s p 0 state :=
  ⟨fun q hq => absurd hq.2 (by have := hq.1; omega), fun _ _ => rfl, fun _ => Iff.rfl⟩

/-- A page, and those behind it. -/
theorem SetsRow.cons {s₁ : PmState} {p : ℕ} {state : Bool} (h : SetsPage s s₁ p state)
    (h' : SetsRow s₁ s' (p + 1) n state) : SetsRow s s' p (n + 1) state where
  inside q hq := by
    by_cases hrest : InRow (p + 1) n q
    · exact h'.inside q hrest
    · have hq' : q = p := by
        have := hq.1
        have := hq.2
        rw [InRow] at hrest
        omega
      rw [h'.outside q hrest, h.locked, if_pos hq']
  outside q hq := by
    have hne : q ≠ p := by
      rintro rfl
      exact hq ⟨le_rfl, by omega⟩
    have hrest : ¬ InRow (p + 1) n q := fun hrest => hq ⟨by have := hrest.1; omega, by
      have := hrest.2
      omega⟩
    rw [h'.outside q hrest, h.locked, if_neg hne]
  tracks q := (h'.tracks q).trans (h.tracks q)

/-- The next page. -/
theorem pageOf_next (a : ℕ) (hfit : a + pageSize < 2 ^ 64) :
    pageOf (wrap64 (a + pageSize)) = pageOf a + 1 := by
  rw [wrap64_of_lt hfit, pageOf, pageOf, Nat.add_div_right _ (by decide)]

/-- **The loop of `pm_try_release_pages`** releases the pages in a row. -/
theorem releaseLoop_tracked (env : PmEnv) (fuel n : ℕ) (hs : Tracking s first)
    (hfit : a + n * pageSize ≤ 2 ^ 64) (htracks : ∀ q, InRow (pageOf a) n q → s.Tracks q) :
    ∃ s' first', pageLoop (pmTryReleasePage env fuel) (· || ·) n s a true = .ok (true, s') ∧
      Tracking s' first' ∧ SetsRow s s' (pageOf a) n false := by
  induction n generalizing s first a with
  | zero => exact ⟨s, first, rfl, hs, .zero s _ false⟩
  | succ n ih =>
    obtain ⟨s₁, first₁, hop, hs₁, hsets⟩ := tryReleasePage_tracked env (pmRequestPage env fuel) hs
      (htracks _ ⟨le_rfl, by omega⟩)
    rcases Nat.eq_zero_or_pos n with rfl | hpos
    · refine ⟨s₁, first₁, ?_, hs₁, .cons hsets (.zero s₁ _ false)⟩
      rw [pageLoop, pmTryReleasePage, hop]
      rfl
    · have hnext : a + pageSize < 2 ^ 64 := by
        rw [pageSize] at hfit ⊢
        omega
      have hpage := pageOf_next a hnext
      obtain ⟨s', first', hloop, hs', hsets'⟩ := ih (a := wrap64 (a + pageSize)) hs₁
        (by
          rw [wrap64_of_lt hnext]
          rw [Nat.add_mul, Nat.one_mul] at hfit
          omega)
        (fun q hq => (hsets.tracks q).mpr (htracks q (by
          rw [hpage] at hq
          exact ⟨by have := hq.1; omega, by have := hq.2; omega⟩)))
      rw [hpage] at hsets'
      refine ⟨s', first', ?_, hs', .cons hsets hsets'⟩
      rw [pageLoop, pmTryReleasePage, hop]
      exact hloop

/-- **The loop of `pm_try_lock_pages`** locks the pages in a row, and says whether they were all
free.  The condition `I` on a state and the pages that are left has to see to it that a lock
returns, and has to hold again after it. -/
theorem lockLoop_rule {I : PmState → ℕ → ℕ → Prop}
    (hstep : ∀ s a n, I s (pageOf a) (n + 1) → s.Tracks (pageOf a) →
      ∃ s', pmTryLockPage env fuel s a = .ok (!s.locked (pageOf a), s') ∧ I s' (pageOf a + 1) n ∧
        SetsPage s s' (pageOf a) true)
    (hs : I s (pageOf a) n) (hfit : a + n * pageSize ≤ 2 ^ 64)
    (htracks : ∀ q, InRow (pageOf a) n q → s.Tracks q) (acc : Bool) :
    ∃ r s', pageLoop (pmTryLockPage env fuel) (· && ·) n s a acc = .ok (r, s') ∧
      (r = true ↔ acc = true ∧ ∀ q, InRow (pageOf a) n q → s.locked q = false) ∧
      SetsRow s s' (pageOf a) n true := by
  induction n generalizing s a acc with
  | zero =>
    refine ⟨acc, s, rfl, ?_, .zero s _ true⟩
    exact (and_iff_left fun q hq => absurd hq.2 (by have := hq.1; omega)).symm
  | succ n ih =>
    have hhead : InRow (pageOf a) (n + 1) (pageOf a) := ⟨le_rfl, by omega⟩
    obtain ⟨s₁, hop, hs₁, hsets⟩ := hstep s a n hs (htracks _ hhead)
    have hrow : ∀ q, InRow (pageOf a + 1) n q → InRow (pageOf a) (n + 1) q ∧ q ≠ pageOf a :=
      fun q hq => ⟨⟨by have := hq.1; omega, by have := hq.2; omega⟩, by have := hq.1; omega⟩
    have hfree : (acc && !s.locked (pageOf a)) = true ∧
        (∀ q, InRow (pageOf a + 1) n q → s₁.locked q = false) ↔
        acc = true ∧ ∀ q, InRow (pageOf a) (n + 1) q → s.locked q = false := by
      rw [Bool.and_eq_true, Bool.not_eq_true', and_assoc]
      refine and_congr_right fun _ => ⟨fun ⟨hfirst, hrest⟩ q hq => ?_, fun h => ⟨h _ hhead, ?_⟩⟩
      · by_cases hq' : q = pageOf a
        · exact hq' ▸ hfirst
        · have hin := hrest q ⟨by have := hq.1; omega, by have := hq.2; omega⟩
          rwa [hsets.locked, if_neg hq'] at hin
      · intro q hq
        obtain ⟨hin, hne⟩ := hrow q hq
        rw [hsets.locked, if_neg hne]
        exact h q hin
    rcases Nat.eq_zero_or_pos n with rfl | hpos
    · refine ⟨acc && !s.locked (pageOf a), s₁, ?_, ?_, .cons hsets (.zero s₁ _ true)⟩
      · rw [pageLoop, hop]
        rfl
      · rw [← hfree]
        exact (and_iff_left fun q hq => absurd hq.2 (by have := hq.1; omega)).symm
    · have hnext : a + pageSize < 2 ^ 64 := by
        rw [pageSize] at hfit ⊢
        omega
      have hpage := pageOf_next a hnext
      rw [← hpage] at hrow hfree hs₁
      obtain ⟨r, s', hloop, hr, hsets'⟩ := ih (a := wrap64 (a + pageSize)) hs₁
        (by
          rw [wrap64_of_lt hnext]
          rw [Nat.add_mul, Nat.one_mul] at hfit
          omega)
        (fun q hq => (hsets.tracks q).mpr (htracks q (hrow q hq).1))
        (acc && !s.locked (pageOf a))
      rw [hpage] at hsets'
      refine ⟨r, s', ?_, hr.trans hfree, .cons hsets hsets'⟩
      rw [pageLoop, hop]
      exact hloop

/-- When the row is locked, the bitmap that is searched keeps a free page, or it has none of the
pages of the row. -/
def RoomBeside (s : PmState) (first : MemBitmap) (p n : ℕ) : Prop :=
  (∃ j < bitmapSize, s.locked (first.index * bitmapSize + j) = false ∧
    ¬ InRow p n (first.index * bitmapSize + j)) ∨
  ∀ q, InRow p n q → q / bitmapSize ≠ first.index

/-- The row is locked, and the bitmap that is searched stays the same. -/
theorem lockLoop_tracked (env : PmEnv) {fuel n : ℕ} (hfuel : bitmapSize ≤ fuel)
    (hs : Searching s first) (hfit : a + n * pageSize ≤ 2 ^ 64)
    (htracks : ∀ q, InRow (pageOf a) n q → s.Tracks q)
    (hroom : RoomBeside s first (pageOf a) n) (acc : Bool) :
    ∃ r s', pageLoop (pmTryLockPage env fuel) (· && ·) n s a acc = .ok (r, s') ∧
      (r = true ↔ acc = true ∧ ∀ q, InRow (pageOf a) n q → s.locked q = false) ∧
      SetsRow s s' (pageOf a) n true := by
  refine lockLoop_rule (I := fun s p n => ∃ first, Searching s first ∧ RoomBeside s first p n)
    ?_ ⟨first, hs, hroom⟩ hfit htracks acc
  rintro s a n ⟨first, hs, hroom⟩ htrack
  have hhead : InRow (pageOf a) (n + 1) (pageOf a) := ⟨le_rfl, by omega⟩
  have hrow : ∀ q, InRow (pageOf a + 1) n q → InRow (pageOf a) (n + 1) q :=
    fun q hq => ⟨by have := hq.1; omega, by have := hq.2; omega⟩
  obtain ⟨s₁, first₁, hop, hs₁, hindex, hsets⟩ := tryLockPage_tracked env (pmRequestPage env fuel)
    hfuel hs htrack (fun hsame => by
      rcases hroom with ⟨j, hj, hfree, hout⟩ | hother
      · exact ⟨j, hj, hfree, fun h => hout (h ▸ hhead)⟩
      · refine absurd ?_ (hother _ hhead)
        rw [pageOf_eq, (div_mod_page _ (toIndex_lt a)).1, hsame])
  refine ⟨s₁, hop, ⟨first₁, hs₁, ?_⟩, hsets⟩
  rw [RoomBeside, hindex]
  rcases hroom with ⟨j, hj, hfree, hout⟩ | hother
  · refine .inl ⟨j, hj, ?_, fun h => hout (hrow _ h)⟩
    have hne : first.index * bitmapSize + j ≠ pageOf a := fun h => hout (h ▸ hhead)
    rw [hsets.locked, if_neg hne, hfree]
  · exact .inr fun q hq => hother q (hrow q hq)

end Loops

/-! ## Ranges of bytes in the first 128 MiB -/

section Ranges

variable {env : PmEnv} {fuel : ℕ} {s : PmState} {first : MemBitmap} {paddr bytes : ℕ}

/-- The page has bytes of the range. -/
def Intersects (paddr bytes q : ℕ) : Prop :=
  q * pageSize < paddr + bytes ∧ paddr < (q + 1) * pageSize

/-- Every page below 128 MiB is tracked when a lookup finds the first bitmap. -/
theorem tracks_of_lt {b : MemBitmap} (hzero : findBitmapByIndex s 0 = some b) {q : ℕ}
    (hq : q < bitmapSize) : s.Tracks q :=
  ⟨b, by rw [Nat.div_eq_of_lt hq, hzero]⟩

/-- The number of pages of a length that does not wrap. -/
theorem pagesOf_eq (hbytes : bytes ≤ 2 ^ 27) : pagesOf bytes = (bytes + 4095) / 4096 := by
  rw [pagesOf, pageSize, wrap64_of_lt (by omega)]
  rfl

/-- The pages that the loops pass lie below 128 MiB, as the range does. -/
theorem inRow_lt (hrange : paddr + bytes ≤ 2 ^ 27) :
    paddr + pagesOf bytes * pageSize ≤ 2 ^ 64 ∧
      ∀ q, InRow (pageOf paddr) (pagesOf bytes) q → q < bitmapSize := by
  rw [pagesOf_eq (by omega), bitmapSize_eq, pageOf, pageSize]
  refine ⟨by omega, fun q hq => ?_⟩
  have := hq.2
  omega

/-- `pm_try_release_pages` releases the pages of a range and no others, and its result says
whether they were all locked. -/
def ReleasesRange (env : PmEnv) (fuel : ℕ) (s : PmState) (paddr bytes : ℕ) : Prop :=
  ∃ r s', pmTryReleasePages env fuel s paddr bytes = .ok (r, s') ∧
    (∀ q, Intersects paddr bytes q → s'.locked q = false) ∧
    (∀ q, ¬ Intersects paddr bytes q → s'.locked q = s.locked q) ∧
    (r = true ↔ ∀ q, Intersects paddr bytes q → s.locked q = true)

/-- The pages of a range that starts at a page are those that the loops pass. -/
theorem intersects_iff_of_aligned (halign : paddr % pageSize = 0)
    (hrange : paddr + bytes ≤ 2 ^ 27) (q : ℕ) :
    Intersects paddr bytes q ↔ InRow (pageOf paddr) (pagesOf bytes) q := by
  rw [Intersects, InRow, pagesOf_eq (by omega), pageOf]
  rw [pageSize] at halign ⊢
  omega

/-- **A range is released, and the result is `TRUE`**: so it tells the truth exactly when every
page of the range was locked. -/
theorem releasesRange_iff (env : PmEnv) (fuel : ℕ) (hs : Tracking s first)
    (hzero : ∃ b, findBitmapByIndex s 0 = some b) (halign : paddr % pageSize = 0)
    (hpos : 0 < bytes) (hrange : paddr + bytes ≤ 2 ^ 27) :
    ReleasesRange env fuel s paddr bytes ↔ ∀ q, Intersects paddr bytes q → s.locked q = true := by
  obtain ⟨b, hb⟩ := hzero
  obtain ⟨hfit, hlt⟩ := inRow_lt hrange
  obtain ⟨s', first', hloop, -, hsets⟩ := releaseLoop_tracked env fuel (pagesOf bytes) hs hfit
    fun q hq => tracks_of_lt hb (hlt q hq)
  have hrun : pmTryReleasePages env fuel s paddr bytes = .ok (true, s') := by
    rw [pmTryReleasePages, pageRange, if_neg hpos.ne']
    exact hloop
  have hrow := intersects_iff_of_aligned halign hrange
  constructor
  · rintro ⟨r, s₁, hok, -, -, hr⟩
    rw [hrun] at hok
    cases hok
    exact hr.mp rfl
  · intro hlocked
    exact ⟨true, s', hrun, fun q hq => hsets.inside q ((hrow q).mp hq),
      fun q hq => hsets.outside q fun h => hq ((hrow q).mpr h), iff_of_true rfl hlocked⟩

/-- `pm_try_lock_pages` locks the pages of a range and no others, and its result says whether they
were all free. -/
def LocksRange (env : PmEnv) (fuel : ℕ) (s : PmState) (paddr bytes : ℕ) : Prop :=
  ∃ r s', pmTryLockPages env fuel s paddr bytes = .ok (r, s') ∧
    (∀ q, Intersects paddr bytes q → s'.locked q = true) ∧
    (∀ q, ¬ Intersects paddr bytes q → s'.locked q = s.locked q) ∧
    (r = true ↔ ∀ q, Intersects paddr bytes q → s.locked q = false)

/-- The offset of the first byte in its page and the length together fit in the pages of the
length. -/
def Fits (paddr bytes : ℕ) : Prop := paddr % pageSize + bytes ≤ pagesOf bytes * pageSize

/-- The pages of a range: those that the loop passes, and one more where the range does not
fit. -/
theorem intersects_iff (hpos : 0 < bytes) (hrange : paddr + bytes ≤ 2 ^ 27) (q : ℕ) :
    Intersects paddr bytes q ↔ InRow (pageOf paddr) (pagesOf bytes) q ∨
      (¬ Fits paddr bytes ∧ q = pageOf paddr + pagesOf bytes) := by
  rw [Intersects, InRow, Fits, pagesOf_eq (by omega), pageOf]
  rw [pageSize]
  omega

/-- **A range is locked as it should be** when its offset and length fit, or else when its last
page was locked before, and another one of it too. -/
theorem locksRange_iff (env : PmEnv) (hfuel : bitmapSize ≤ fuel) (hs : Searching s first)
    (hzero : ∃ b, findBitmapByIndex s 0 = some b) (hpos : 0 < bytes)
    (hrange : paddr + bytes ≤ 2 ^ 27)
    (hroom : ∃ q < bitmapSize, s.locked q = false ∧ ¬ Intersects paddr bytes q) :
    LocksRange env fuel s paddr bytes ↔ Fits paddr bytes ∨
      (s.locked (pageOf paddr + pagesOf bytes) = true ∧
        ∃ q, InRow (pageOf paddr) (pagesOf bytes) q ∧ s.locked q = true) := by
  obtain ⟨b, hb⟩ := hzero
  obtain ⟨hfit, hlt⟩ := inRow_lt hrange
  have hrow := intersects_iff hpos hrange
  have hbeside : RoomBeside s first (pageOf paddr) (pagesOf bytes) := by
    by_cases hfirst : first.index = 0
    · obtain ⟨q, hq, hfree, hout⟩ := hroom
      refine .inl ⟨q, hq, ?_, fun h => hout ((hrow q).mpr (.inl ?_))⟩
      · rwa [hfirst, Nat.zero_mul, Nat.zero_add]
      · rwa [hfirst, Nat.zero_mul, Nat.zero_add] at h
    · exact .inr fun q hq h => hfirst (by rw [← h, Nat.div_eq_of_lt (hlt q hq)])
  obtain ⟨r, s', hloop, hr, hsets⟩ := lockLoop_tracked env hfuel hs hfit
    (fun q hq => tracks_of_lt hb (hlt q hq)) hbeside true
  have hrun : pmTryLockPages env fuel s paddr bytes = .ok (r, s') := by
    rw [pmTryLockPages, pageRange, if_neg hpos.ne']
    exact hloop
  rw [eq_self, true_and] at hr
  by_cases hfits : Fits paddr bytes
  · -- the loop passes all pages of the range
    have hsame : ∀ q, Intersects paddr bytes q ↔ InRow (pageOf paddr) (pagesOf bytes) q :=
      fun q => (hrow q).trans (or_iff_left fun h => h.1 hfits)
    refine iff_of_true ⟨r, s', hrun, fun q hq => hsets.inside q ((hsame q).mp hq),
      fun q hq => hsets.outside q fun h => hq ((hsame q).mpr h), ?_⟩ (.inl hfits)
    simp only [hsame]
    exact hr
  · have hlast : ¬ InRow (pageOf paddr) (pagesOf bytes) (pageOf paddr + pagesOf bytes) :=
      fun h => absurd h.2 (by omega)
    rw [or_iff_right hfits]
    constructor
    · rintro ⟨r₁, s₁, hok, hin, -, hr₁⟩
      rw [hrun] at hok
      cases hok
      have hlocked : s.locked (pageOf paddr + pagesOf bytes) = true := by
        rw [← hsets.outside _ hlast]
        exact hin _ ((hrow _).mpr (.inr ⟨hfits, rfl⟩))
      refine ⟨hlocked, ?_⟩
      by_contra hnone
      have hall : ∀ q, InRow (pageOf paddr) (pagesOf bytes) q → s.locked q = false := by
        intro q hq
        by_contra h
        exact hnone ⟨q, hq, Bool.not_eq_false _ ▸ h⟩
      have hfree := hr₁.mp (hr.mpr hall) _ ((hrow _).mpr (.inr ⟨hfits, rfl⟩))
      rw [hlocked] at hfree
      cases hfree
    · rintro ⟨hlocked, q₀, hq₀, hlocked₀⟩
      refine ⟨r, s', hrun, fun q hq => ?_, fun q hq => hsets.outside q fun h =>
        hq ((hrow q).mpr (.inl h)), ?_⟩
      · rcases (hrow q).mp hq with hin | ⟨-, rfl⟩
        · exact hsets.inside q hin
        · rw [hsets.outside _ hlast, hlocked]
      · refine iff_of_false (fun h => ?_) fun h => ?_
        · rw [hr.mp h q₀ hq₀] at hlocked₀
          cases hlocked₀
        · rw [h _ ((hrow _).mpr (.inr ⟨hfits, rfl⟩))] at hlocked
          cases hlocked

end Ranges

/-! ## States -/

/-- While the manager works on the first bitmap, it is in such a state, and the pages below
128 MiB are locked as their bits say. -/
theorem Shape.searching {s : PmState} {c : ℕ} (hs : Shape s c) (hc : c ≤ bitmapSize)
    (hbelow : ∀ i < c, s.pageBit i = true) :
    ∃ first, Searching s first ∧ Mimik.Pm.findBitmapByIndex s 0 = some first ∧
      ∀ i < bitmapSize, s.locked i = s.pageBit i := by
  obtain ⟨b, rest, hlist, hb, hrest⟩ := hs.bitmaps
  obtain ⟨first, hfind, -⟩ := (hs.findBitmapByIndex 0).1 rfl
  have hother := fun index => (hs.findBitmapByIndex index).2
  have hfirst : first = b := by
    rw [Mimik.Pm.findBitmapByIndex, hlist, List.find?_cons_of_pos (by simp [hb.index])] at hfind
    cases hfind
    rfl
  subst hfirst
  have hderef : s.deref (.node first.id) = .ok first := by
    rw [PmState.deref, hlist, List.find?_cons_of_pos (by simp)]
  have howns : Owns s first := by
    refine ⟨hderef, fun b' hb' hid => ?_, fun b' hb' hmap => ?_, hb.size⟩
    · rw [hlist, List.mem_cons] at hb'
      rcases hb' with rfl | hb'
      · rfl
      · exact absurd (hid.trans hb.id) (hrest b' hb').id_pos.ne'
    · rw [hlist, List.mem_cons] at hb'
      rcases hb' with rfl | hb'
      · rfl
      · exact absurd (hmap.trans hb.map) (hrest b' hb').map
  have hbits : ∀ i < bitmapSize, s.locked i = s.pageBit i := by
    intro i hi
    have hbit := locked_eq hfind hi
    rw [Nat.zero_mul, Nat.zero_add, hb.map] at hbit
    exact hbit
  refine ⟨first, ⟨⟨fun index b hfound => ?_, ?_⟩, ?_, ?_, fun i hi => ?_⟩, hfind, hbits⟩
  · by_cases hindex : index = 0
    · rw [hindex, hfind] at hfound
      cases hfound
      exact howns
    · rw [hother index hindex] at hfound
      cases hfound
  · rw [hs.first, ← hb.id]
    exact hderef
  · rw [hb.index]
    exact hfind
  · rw [hb.firstFree]
    exact hc
  · rw [hb.firstFree] at hi
    rw [hb.index, Nat.zero_mul, Nat.zero_add, hbits i (lt_of_lt_of_le hi hc)]
    exact hbelow i hi

/-- So it is in every state that is reached while the first bitmap suffices. -/
theorem Ready.searching {s : PmState} {c : ℕ} (hs : Ready s c) :
    ∃ first, Searching s first ∧ findBitmapByIndex s 0 = some first ∧
      ∀ i < bitmapSize, s.locked i = s.pageBit i :=
  hs.toShape.searching hs.lt.le hs.below

/-- The first bitmap alone, with the given bytes. -/
def oneBitmap (bytes : ℕ → BitVec 8) (firstFree : ℕ) : PmState where
  memInfo := { used := 0, free := 2 ^ 27 }
  memBitmaps := [{
    id := 0, index := 0, firstFree := firstFree
    super := { bytes := pageSize, size := bitmapSize, unset := bitmapSize, map := .pagesBitmap0 } }]
  firstFreeBitmap := .node 0
  nextBitmapPage := 0x1000
  maps _ := bytes
  allocCalls := 0
  history := []
  handed := []

/-- The manager works on it. -/
theorem shape_oneBitmap (bytes : ℕ → BitVec 8) (c : ℕ) : Shape (oneBitmap bytes c) c :=
  ⟨rfl, _, [], rfl, ⟨rfl, rfl, rfl, rfl, rfl⟩, fun _ h => absurd h List.not_mem_nil⟩

/-- The pages 0 and 1 are locked. -/
def twoLocked : PmState := oneBitmap (fun i => if i = 0 then 3 else 0) 2

/-- That is a state to lock and release pages in. -/
theorem twoLocked_searching : ∃ first, Searching twoLocked first ∧
    findBitmapByIndex twoLocked 0 = some first := by
  have hbelow : ∀ i < 2, twoLocked.pageBit i = true := by decide
  obtain ⟨first, hs, hfind, -⟩ := (shape_oneBitmap _ 2).searching
    (by rw [bitmapSize_eq]; decide) hbelow
  exact ⟨first, hs, hfind⟩

/-- Two pages behind them are locked as they should be. -/
theorem locksRange_two : LocksRange flatEnv 40000 twoLocked 0x2000 0x2000 := by
  obtain ⟨first, hs, hfind⟩ := twoLocked_searching
  have hsize : 5 < bitmapSize := by rw [bitmapSize_eq]; decide
  refine (locksRange_iff flatEnv (by rw [bitmapSize_eq]; decide) hs ⟨first, hfind⟩ (by decide)
    (by decide) ⟨5, hsize, by decide +kernel, by rw [Intersects]; decide⟩).mpr (.inl ?_)
  rw [Fits, pagesOf_eq (by decide)]
  decide

/-- **A range of the bytes of two pages is locked but for its last page.** -/
theorem not_locksRange : ¬ LocksRange flatEnv 40000 twoLocked 0x2800 0x1000 := by
  rintro ⟨r, s', hok, hin, -⟩
  have htest : (pmTryLockPages flatEnv 40000 twoLocked 0x2800 0x1000).toOption.any
      (fun p => !p.2.locked 3) = true := by
    decide +kernel
  rw [hok] at htest
  have hlocked := hin 3 ⟨by decide, by decide⟩
  simp [Except.toOption, hlocked] at htest

/-- A page that is locked is released as it should be. -/
theorem releasesRange_one : ReleasesRange flatEnv 40000 twoLocked 0x1000 0x1000 := by
  obtain ⟨first, hs, hfind⟩ := twoLocked_searching
  refine (releasesRange_iff flatEnv 40000 hs.toTracking ⟨first, hfind⟩ (by decide) (by decide)
    (by decide)).mpr fun q hq => ?_
  obtain rfl : q = 1 := by
    have h := hq.1
    have h' := hq.2
    rw [pageSize] at h h'
    omega
  decide +kernel

/-- **The release of a page that is not locked succeeds.** -/
theorem not_releasesRange : ¬ ReleasesRange flatEnv 40000 twoLocked 0x2000 0x1000 := by
  rintro ⟨r, s', hok, -, -, hr⟩
  have htest : (pmTryReleasePages flatEnv 40000 twoLocked 0x2000 0x1000).toOption.any
      (fun p => p.1) = true := by
    decide +kernel
  rw [hok] at htest
  have htrue : r = true := by simpa [Except.toOption] using htest
  have hlocked := hr.mp htrue 2 ⟨by decide, by decide⟩
  exact absurd hlocked (by decide +kernel)

end Mimik.Pm
