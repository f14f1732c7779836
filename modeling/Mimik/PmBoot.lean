/-
# The state that `pm_init` leaves

While `pm_init` runs, `next_bitmap_page` is still 0, so that no bitmap can be made:
`create_bitmap` would clear the bytes at a null pointer.  Every step of `pm_init`
therefore only sets bits of the first bitmap, and if a free page is left in the end,
the manager was in order all the time.
-/
import Mimik.PmInvariant

namespace Mimik.Pm

attribute [local irreducible] bitmapSize wrap64 sub64

/-! ## Before there is a page for a bitmap -/

/-- `pm_request_page` does not provide a page for the next bitmap. -/
def KeepsNoPage (req : RequestPage) : Prop :=
  ∀ s a s', s.nextBitmapPage = 0 → req s = .ok (a, s') → s'.nextBitmapPage = 0

/-- From `s` to `s'`, bits of the first bitmap were set and none was cleared, and
there is still no page for a bitmap. -/
structure Early (s s' : PmState) : Prop where
  noPage : s'.nextBitmapPage = 0
  grow : ∀ i, s.pageBit i = true → s'.pageBit i = true
  handed : s'.handed = s.handed

theorem Early.trans {s₁ s₂ s₃ : PmState} (h : Early s₁ s₂) (h' : Early s₂ s₃) : Early s₁ s₃ :=
  ⟨h'.noPage, fun i hi => h'.grow i (h.grow i hi), h'.handed.trans h.handed⟩

/-- Setting bits leaves no more pages free. -/
theorem freePages_le {s s' : PmState} (hgrow : ∀ i, s.pageBit i = true → s'.pageBit i = true) :
    s'.freePages ≤ s.freePages := by
  refine Finset.card_le_card (fun i hi => ?_)
  rw [PmState.mem_freeSet] at hi ⊢
  refine ⟨hi.1, ?_⟩
  by_contra hset
  rw [hgrow i (by simpa using hset)] at hi
  exact absurd hi.2 (by simp)

/-- Without a page, no bitmap is made. -/
theorem createBitmap_noPage {env : PmEnv} {req : RequestPage} (hreq : KeepsNoPage req)
    {s : PmState} (hs : s.nextBitmapPage = 0) (index : ℕ) (r : ℕ × PmState) :
    createBitmap env req s index ≠ .ok r := by
  have hheap : ∀ (n : ℕ) (s s' : PmState), s.nextBitmapPage = 0 →
      heapRequests req n s = .ok s' → s'.nextBitmapPage = 0 := by
    intro n
    induction n with
    | zero =>
      intro s s' hs hok
      cases hok
      exact hs
    | succ n ih =>
      intro s s' hs hok
      obtain ⟨⟨a, s₁⟩, hfst, hrest⟩ := Except.bind_eq_ok_iff.mp hok
      exact ih s₁ s' (hreq s a s₁ hs hfst) hrest
  intro hok
  obtain ⟨⟨id, s₁⟩, halloc, hok⟩ := Except.bind_eq_ok_iff.mp hok
  obtain ⟨s₂, hreqs, hret⟩ := Except.bind_eq_ok_iff.mp halloc
  cases hret
  obtain ⟨_, hassert, -⟩ := Except.bind_eq_ok_iff.mp hok
  have hpage := hheap _ { s with allocCalls := s.allocCalls + 1 } s₁ hs hreqs
  simp [hpage] at hassert

/-- Then `find_first_free_bitmap` moves the pointer at most. -/
theorem findFirstFreeBitmap_noPage {env : PmEnv} {req : RequestPage} (hreq : KeepsNoPage req)
    {s s' : PmState} (hs : s.nextBitmapPage = 0)
    (hok : findFirstFreeBitmap env req s = .ok s') :
    ∃ ref, s' = { s with firstFreeBitmap := ref } := by
  rw [findFirstFreeBitmap] at hok
  split at hok
  next ref _ =>
    cases hok
    exact ⟨ref, rfl⟩
  next => cases hok
  next =>
    obtain ⟨r, hcreate, -⟩ := Except.bind_eq_ok_iff.mp hok
    exact absurd hcreate (createBitmap_noPage hreq hs _ r)

/-- And `find_first_free_index` moves the pointer and `first_free`. -/
theorem findFirstFreeIndex_noPage {env : PmEnv} {req : RequestPage} (hreq : KeepsNoPage req) :
    ∀ (rounds : ℕ) (s s' : PmState) (r : Bool), s.nextBitmapPage = 0 →
      findFirstFreeIndex env req rounds s = .ok (r, s') →
      s'.nextBitmapPage = 0 ∧ s'.maps = s.maps ∧ s'.handed = s.handed := by
  intro rounds
  induction rounds with
  | zero => intro s s' r _ hok; cases hok
  | succ rounds ih =>
    intro s s' r hs hok
    obtain ⟨b, -, hok⟩ := Except.bind_eq_ok_iff.mp hok
    simp only at hok
    split at hok
    next =>
      cases hok
      exact ⟨hs, rfl, rfl⟩
    next =>
      obtain ⟨s₁, hmove, hok⟩ := Except.bind_eq_ok_iff.mp hok
      have hs₁ : s₁.nextBitmapPage = 0 ∧ s₁.maps = s.maps ∧ s₁.handed = s.handed := by
        split at hmove
        next =>
          obtain ⟨_, -, hmove⟩ := Except.bind_eq_ok_iff.mp hmove
          obtain ⟨ref, rfl⟩ := findFirstFreeBitmap_noPage hreq hs hmove
          exact ⟨hs, rfl, rfl⟩
        next =>
          cases hmove
          exact ⟨hs, rfl, rfl⟩
      obtain ⟨b₁, -, hok⟩ := Except.bind_eq_ok_iff.mp hok
      split at hok
      next =>
        obtain ⟨hnext, hmaps, hhanded⟩ :=
          ih (s₁.setFirstFree b₁.id (wrap64 (b₁.firstFree + 1))) _ _ hs₁.1 hok
        exact ⟨hnext, hmaps.trans hs₁.2.1, hhanded.trans hs₁.2.2⟩
      next =>
        cases hok
        exact hs₁

/-- Locking sets a bit. -/
theorem trySetPage_noPage {env : PmEnv} {req : RequestPage} (hreq : KeepsNoPage req)
    {s s' : PmState} (hs : s.nextBitmapPage = 0) {paddr : ℕ} {r : Bool}
    (hok : trySetPage env req s paddr true = .ok (r, s')) : Early s s' := by
  obtain ⟨⟨id, s₁⟩, hfind, hok⟩ := Except.bind_eq_ok_iff.mp hok
  split at hfind
  next =>
    cases hfind
    obtain ⟨b, -, hok⟩ := Except.bind_eq_ok_iff.mp hok
    rcases hset : bitmapSet s.maps b.super (toIndex paddr) true with ⟨sts, super, maps⟩
    simp only [hset] at hok
    cases hok
    refine ⟨hs, ?_, rfl⟩
    intro i hi
    rcases Nat.lt_or_ge (toIndex paddr) b.super.size with hlt | hle
    · obtain ⟨_, _, _, heq, -, -, -, hbits, hother⟩ := bitmapSet_spec s.maps b.super true hlt
      rw [hset] at heq
      cases heq
      by_cases hmap : b.super.map = .pagesBitmap0
      · rw [hmap] at hbits
        refine (hbits i).trans ?_
        rw [show bitAt s.maps .pagesBitmap0 i = true from hi, ite_self]
      · have hbytes := hother .pagesBitmap0 (Ne.symm hmap)
        exact (congrArg (fun bytes => (bytes (i / 8)).getLsbD (i % 8)) hbytes).trans hi
    · rw [bitmapSet, if_pos hle] at hset
      cases hset
      exact hi
  next => exact absurd hfind (createBitmap_noPage hreq hs _ _)

/-- What follows `try_set_page` in `pm_try_lock_page` touches no bit. -/
theorem tryLockPage_noPage {env : PmEnv} {req : RequestPage} (hreq : KeepsNoPage req)
    {rounds : ℕ} {s s' : PmState} (hs : s.nextBitmapPage = 0) {paddr : ℕ} {r : Bool}
    (hok : tryLockPage env req rounds s paddr = .ok (r, s')) :
    ∃ s₁, trySetPage env req s paddr true = .ok (r, s₁) ∧ Early s s₁ ∧ Early s₁ s' := by
  obtain ⟨⟨set, s₁⟩, hset, hok⟩ := Except.bind_eq_ok_iff.mp hok
  have hearly := trySetPage_noPage hreq hs hset
  cases set with
  | false =>
    cases hok
    exact ⟨_, hset, hearly, hearly.noPage, fun _ h => h, rfl⟩
  | true =>
    simp only [if_true] at hok
    obtain ⟨b, -, hok⟩ := Except.bind_eq_ok_iff.mp hok
    obtain ⟨s₂, hsearch, hret⟩ := Except.bind_eq_ok_iff.mp hok
    cases hret
    have hs₂ : s₂.nextBitmapPage = 0 ∧ s₂.maps = s₁.maps ∧ s₂.handed = s₁.handed := by
      split at hsearch
      next =>
        obtain ⟨⟨found, s₃⟩, hindex, hsearch⟩ := Except.bind_eq_ok_iff.mp hsearch
        have hs₃ := findFirstFreeIndex_noPage hreq _ _ _ _ hearly.noPage hindex
        cases found with
        | true =>
          cases hsearch
          exact hs₃
        | false =>
          obtain ⟨ref, rfl⟩ := findFirstFreeBitmap_noPage hreq hs₃.1 hsearch
          exact hs₃
      next =>
        cases hsearch
        exact ⟨hearly.noPage, rfl, rfl⟩
    refine ⟨s₁, hset, hearly, hs₂.1, ?_, hs₂.2.2⟩
    intro i hi
    exact (congrArg (fun maps => bitAt maps MapPtr.pagesBitmap0 i) hs₂.2.1).trans hi

/-- A request, too, only sets bits. -/
theorem pmRequestPage_noPage (env : PmEnv) :
    ∀ (fuel : ℕ) (s s' : PmState) (a : ℕ), s.nextBitmapPage = 0 →
      pmRequestPage env fuel s = .ok (a, s') →
      s'.nextBitmapPage = 0 ∧ ∀ i, s.pageBit i = true → s'.pageBit i = true := by
  intro fuel
  induction fuel with
  | zero => intro s s' a _ hok; cases hok
  | succ fuel ih =>
    intro s s' a hs hok
    obtain ⟨_, -, hok⟩ := Except.bind_eq_ok_iff.mp hok
    obtain ⟨b, -, hok⟩ := Except.bind_eq_ok_iff.mp hok
    obtain ⟨⟨locked, s₁⟩, hlock, hok⟩ := Except.bind_eq_ok_iff.mp hok
    obtain ⟨_, -, hret⟩ := Except.bind_eq_ok_iff.mp hok
    cases hret
    have hkeeps : KeepsNoPage (pmRequestPage env fuel) :=
      fun s a s' hs hok => (ih s s' a hs hok).1
    obtain ⟨s₂, -, h, h'⟩ :=
      tryLockPage_noPage hkeeps (s := s.setFirstFree b.id (wrap64 (b.firstFree + 1))) hs hlock
    exact ⟨h'.noPage, (h.trans h').grow⟩

/-- `pm_request_page` never provides a page for a bitmap by itself. -/
theorem keepsNoPage (env : PmEnv) (fuel : ℕ) : KeepsNoPage (pmRequestPage env fuel) :=
  fun s a s' hs hok => (pmRequestPage_noPage env fuel s s' a hs hok).1

/-! ## Addresses of a range -/

/-- The addresses that a loop over `pages` pages passes. -/
def addrs : ℕ → ℕ → List ℕ
  | 0, _ => []
  | pages + 1, paddr => paddr :: addrs pages (wrap64 (paddr + pageSize))

/-- The addresses of `pm_try_lock_pages(paddr, bytes)`. -/
def rangeAddrs (paddr bytes : ℕ) : List ℕ :=
  addrs (if bytes = 0 then 1 else pagesOf bytes) paddr

/-- The addresses that `compute_mem_size` locks. -/
def segmentAddrs (memMap : List MemSegment) : List ℕ :=
  memMap.flatMap fun segment =>
    if segment.type = .reserved ∧ toBitmap segment.addr = 0 then
      rangeAddrs segment.addr segment.length
    else []

/-- The addresses that `pm_init` locks. -/
def bootAddrs (env : PmEnv) (memMap : List MemSegment) : List ℕ :=
  segmentAddrs memMap ++
    rangeAddrs env.layoutPaddrStart (sub64 env.layoutPaddrEnd env.layoutPaddrStart)

/-! ## Loops of `pm_init` -/

/-- A loop over pages only sets bits. -/
theorem pageLoop_noPage {env : PmEnv} {fuel : ℕ} {join : Bool → Bool → Bool} :
    ∀ (pages : ℕ) (s s' : PmState) (paddr : ℕ) (acc r : Bool), s.nextBitmapPage = 0 →
      pageLoop (pmTryLockPage env fuel) join pages s paddr acc = .ok (r, s') → Early s s' := by
  intro pages
  induction pages with
  | zero =>
    intro s s' paddr acc r hs hok
    cases hok
    exact ⟨hs, fun _ h => h, rfl⟩
  | succ pages ih =>
    intro s s' paddr acc r hs hok
    obtain ⟨⟨locked, s₁⟩, hlock, hrest⟩ := Except.bind_eq_ok_iff.mp hok
    obtain ⟨s₂, -, h, h'⟩ := tryLockPage_noPage (keepsNoPage env fuel) hs hlock
    exact (h.trans h').trans (ih _ _ _ _ _ h'.noPage hrest)

/-- A range is a loop over at least one page. -/
theorem pageRange_eq_loop {op : PmState → ℕ → Except Fault (Bool × PmState)}
    {join : Bool → Bool → Bool} {s s' : PmState} {paddr bytes : ℕ} {r : Bool}
    (hok : pageRange op join s paddr bytes = .ok (r, s')) :
    ∃ r', pageLoop op join (if bytes = 0 then 1 else pagesOf bytes) s paddr true =
      .ok (r', s') := by
  rw [pageRange] at hok
  split at hok
  next hzero =>
    refine ⟨join true r, ?_⟩
    rw [if_pos hzero, pageLoop, hok]
    rfl
  next hne => exact ⟨r, by rwa [if_neg hne]⟩

/-- **The loop rule**: what one operation preserves of the addresses that are left, the
loop preserves. -/
theorem pageLoop_rule {op : PmState → ℕ → Except Fault (Bool × PmState)}
    {join : Bool → Bool → Bool} (inv : List ℕ → PmState → Prop)
    (hop : ∀ a as s s' r, inv (a :: as) s → op s a = .ok (r, s') → inv as s')
    (pages : ℕ) {s s' : PmState} {paddr : ℕ} {acc r : Bool} (hs : inv (addrs pages paddr) s)
    (hok : pageLoop op join pages s paddr acc = .ok (r, s')) : inv [] s' := by
  induction pages generalizing s paddr acc with
  | zero =>
    cases hok
    exact hs
  | succ pages ih =>
    obtain ⟨⟨done, s₁⟩, hfst, hrest⟩ := Except.bind_eq_ok_iff.mp hok
    exact ih (hop _ _ _ _ _ hs hfst) hrest

/-- `compute_mem_size` only sets bits. -/
theorem computeMemSize_noPage {env : PmEnv} {fuel : ℕ} :
    ∀ (memMap : List MemSegment) (s s' : PmState), s.nextBitmapPage = 0 →
      computeMemSize env fuel memMap s = .ok s' → Early s s' := by
  intro memMap
  induction memMap with
  | nil =>
    intro s s' hs hok
    cases hok
    exact ⟨hs, fun _ h => h, rfl⟩
  | cons segment memMap ih =>
    intro s s' hs hok
    obtain ⟨s₁, hseg, hrest⟩ := Except.bind_eq_ok_iff.mp hok
    have hfst : Early s s₁ := by
      split at hseg
      next =>
        obtain ⟨⟨r, s₂⟩, hlock, hret⟩ := Except.bind_eq_ok_iff.mp hseg
        cases hret
        obtain ⟨_, hloop⟩ := pageRange_eq_loop hlock
        have h := pageLoop_noPage _ (s.addFree segment.length) _ _ _ _ hs hloop
        exact ⟨h.noPage, h.grow, h.handed⟩
      next =>
        cases hseg
        exact ⟨hs, fun _ h => h, rfl⟩
    exact hfst.trans (ih _ _ hfst.noPage hrest)

/-! ## In order all the time -/

/-- The manager during `pm_init`. -/
structure Booting (s : PmState) : Prop where
  ready : ∃ c, Ready s c
  synced : Synced s
  noPage : s.nextBitmapPage = 0
  handed : s.handed = []

/-- A new first bitmap is in order. -/
theorem booting_initFirstBitmap : Booting initFirstBitmap := by
  obtain ⟨hmap, hsize, hclear, -⟩ := bitmapFrom_spec (fun _ _ => 0) bitmapSize
    MapPtr.pagesBitmap0 (by rw [bitmapSize_eq]; omega)
  have hpos : 0 < bitmapSize := by rw [bitmapSize_eq]; omega
  refine ⟨⟨0, ⟨⟨rfl, _, [], rfl, ⟨rfl, rfl, rfl, hsize, hmap⟩, by simp⟩, hpos, hclear 0 hpos,
    fun i hi => absurd hi (Nat.not_lt_zero i)⟩⟩, fun i hi => ?_, rfl, rfl⟩
  exact (hclear i hi).symm

/-- Locking the last free page leaves none. -/
theorem freePages_of_last {env : PmEnv} {req : RequestPage} (hreq : KeepsNoPage req)
    {rounds : ℕ} {s s' : PmState} {c paddr : ℕ} {r : Bool} (hs : Shape s c)
    (hpage : s.nextBitmapPage = 0) (hpaddr : toBitmap paddr = 0)
    (hfree : s.pageBit (pageOf paddr) = false) (hlast : s.freePages ≤ 1)
    (hok : tryLockPage env req rounds s paddr = .ok (r, s')) : s'.freePages = 0 := by
  obtain ⟨s₁, hset, -, hearly⟩ := tryLockPage_noPage hreq hpage hok
  obtain ⟨s₂, hset₂, -, -, hbits, -⟩ := trySetPage_first env req hs hpaddr true
  rw [hset] at hset₂
  cases hset₂
  have hcount := freePages_set (toBitmap_eq_zero_iff.mp hpaddr) hfree hbits
  have hle := freePages_le hearly.grow
  omega

/-- **A lock during `pm_init`.**  It concerns a page of the first bitmap, and leaves it
locked. -/
theorem Booting.tryLockPage {env : PmEnv} {req : RequestPage} (hreq : KeepsNoPage req)
    {rounds : ℕ} (hrounds : bitmapSize ≤ rounds) {s s' : PmState} {paddr : ℕ} {r : Bool}
    (hs : Booting s) (hok : Mimik.Pm.tryLockPage env req rounds s paddr = .ok (r, s'))
    (hfree : 0 < s'.freePages) :
    Booting s' ∧ toBitmap paddr = 0 ∧ s'.pageBit (pageOf paddr) = true := by
  obtain ⟨c, hready⟩ := hs.ready
  have hnear : toBitmap paddr = 0 := by
    by_contra hne
    obtain ⟨s₁, hset, -⟩ := tryLockPage_noPage hreq hs.noPage hok
    obtain ⟨⟨id, s₂⟩, hfind, -⟩ := Except.bind_eq_ok_iff.mp hset
    rw [(hready.findBitmapByIndex _).2 hne] at hfind
    exact createBitmap_noPage hreq hs.noPage _ _ hfind
  cases hbit : s.pageBit (pageOf paddr) with
  | true =>
    obtain ⟨s₁, hok₁, htook, hquiet, -, hhanded⟩ :=
      tryLockPage_locked env req rounds hready hnear hbit
    rw [hok] at hok₁
    cases hok₁
    exact ⟨⟨htook.ready, htook.synced hs.synced, hquiet.nextBitmapPage.trans hs.noPage,
      hhanded.trans hs.handed⟩, hnear, htook.grow _ hbit⟩
  | false =>
    rcases Nat.lt_or_ge 1 s.freePages with hroom | hlast
    · obtain ⟨s₁, hok₁, htook, hquiet, hset, hhanded, -⟩ :=
        tryLockPage_first env req hready.toShape
          (fun i hi _ => hready.below i hi) hrounds hnear hbit hroom
      rw [hok] at hok₁
      cases hok₁
      exact ⟨⟨htook.ready, htook.synced hs.synced, hquiet.nextBitmapPage.trans hs.noPage,
        hhanded.trans hs.handed⟩, hnear, hset⟩
    · have := freePages_of_last hreq hready.toShape hs.noPage hnear hbit hlast hok
      omega

/-- **A range during `pm_init`.** -/
theorem Booting.pageLoop {env : PmEnv} {fuel : ℕ} {join : Bool → Bool → Bool}
    (hfuel : bitmapSize ≤ fuel) :
    ∀ (pages : ℕ) (s s' : PmState) (paddr : ℕ) (acc r : Bool), Booting s →
      Mimik.Pm.pageLoop (pmTryLockPage env fuel) join pages s paddr acc = .ok (r, s') →
      0 < s'.freePages →
      Booting s' ∧ ∀ a ∈ addrs pages paddr, s'.pageBit (pageOf a) = true := by
  intro pages
  induction pages with
  | zero =>
    intro s s' paddr acc r hs hok _
    cases hok
    exact ⟨hs, by simp [addrs]⟩
  | succ pages ih =>
    intro s s' paddr acc r hs hok hfree
    obtain ⟨⟨locked, s₁⟩, hlock, hrest⟩ := Except.bind_eq_ok_iff.mp hok
    obtain ⟨_, -, -, hfst⟩ := tryLockPage_noPage (keepsNoPage env fuel) hs.noPage hlock
    have hearly := pageLoop_noPage _ _ _ _ _ _ hfst.noPage hrest
    obtain ⟨hs₁, -, hset⟩ := hs.tryLockPage (keepsNoPage env fuel) hfuel hlock
      (lt_of_lt_of_le hfree (freePages_le hearly.grow))
    obtain ⟨hs', hall⟩ := ih _ _ _ _ _ hs₁ hrest hfree
    refine ⟨hs', fun a ha => ?_⟩
    rcases List.mem_cons.mp ha with rfl | ha
    · exact hearly.grow _ hset
    · exact hall a ha

/-- **`compute_mem_size`** locks the pages of its addresses. -/
theorem Booting.computeMemSize {env : PmEnv} {fuel : ℕ} (hfuel : bitmapSize ≤ fuel) :
    ∀ (memMap : List MemSegment) (s s' : PmState), Booting s →
      Mimik.Pm.computeMemSize env fuel memMap s = .ok s' → 0 < s'.freePages →
      Booting s' ∧ ∀ a ∈ segmentAddrs memMap, s'.pageBit (pageOf a) = true := by
  intro memMap
  induction memMap with
  | nil =>
    intro s s' hs hok _
    cases hok
    exact ⟨hs, by simp [segmentAddrs]⟩
  | cons segment memMap ih =>
    intro s s' hs hok hfree
    obtain ⟨s₁, hseg, hrest⟩ := Except.bind_eq_ok_iff.mp hok
    have hstart : Booting (s.addFree segment.length) := by
      obtain ⟨⟨c, hready⟩, hsync, hpage, hhanded⟩ := hs
      exact ⟨⟨c, ⟨hready.toShape.congr rfl rfl rfl, hready.lt, hready.free, hready.below⟩⟩,
        hsync, hpage, hhanded⟩
    have hfst : s₁.nextBitmapPage = 0 ∧ (0 < s₁.freePages → Booting s₁ ∧
        ∀ a ∈ (if segment.type = .reserved ∧ toBitmap segment.addr = 0 then
          rangeAddrs segment.addr segment.length else []), s₁.pageBit (pageOf a) = true) := by
      split at hseg
      next hcond =>
        obtain ⟨⟨r, s₂⟩, hlock, hret⟩ := Except.bind_eq_ok_iff.mp hseg
        cases hret
        obtain ⟨_, hloop⟩ := pageRange_eq_loop hlock
        refine ⟨(pageLoop_noPage _ _ _ _ _ _ hstart.noPage hloop).noPage, fun hpos => ?_⟩
        rw [if_pos hcond]
        exact hstart.pageLoop hfuel _ _ _ _ _ _ hloop hpos
      next hcond =>
        cases hseg
        refine ⟨hstart.noPage, fun _ => ⟨hstart, ?_⟩⟩
        rw [if_neg hcond]
        simp
    have hearly := computeMemSize_noPage _ _ _ hfst.1 hrest
    obtain ⟨hs₁, hset⟩ := hfst.2 (lt_of_lt_of_le hfree (freePages_le hearly.grow))
    obtain ⟨hs', hall⟩ := ih _ _ hs₁ hrest hfree
    refine ⟨hs', fun a ha => ?_⟩
    rw [segmentAddrs, List.flatMap_cons, List.mem_append] at ha
    rcases ha with ha | ha
    · exact hearly.grow _ (hset a ha)
    · exact hall a ha

/-- A request during `pm_init` that leaves a free page found another one. -/
theorem freePages_of_request {env : PmEnv} {fuel : ℕ} {s s' : PmState} {c a : ℕ}
    (hs : Ready s c) (hpage : s.nextBitmapPage = 0)
    (hok : pmRequestPage env (fuel + 1) s = .ok (a, s')) (hfree : 0 < s'.freePages) :
    1 < s.freePages := by
  obtain ⟨_, -, hok⟩ := Except.bind_eq_ok_iff.mp hok
  obtain ⟨b, hderef, hok⟩ := Except.bind_eq_ok_iff.mp hok
  obtain ⟨⟨locked, s₁⟩, hlock, hok⟩ := Except.bind_eq_ok_iff.mp hok
  obtain ⟨_, -, hret⟩ := Except.bind_eq_ok_iff.mp hok
  cases hret
  obtain ⟨b₀, hderef₀, hb₀⟩ := hs.deref
  rw [hs.first, hderef₀] at hderef
  cases hderef
  simp only [hb₀.id, hb₀.index, hb₀.firstFree, toPaddr_zero hs.lt] at hlock
  by_contra hlast
  have hzero := freePages_of_last (keepsNoPage env fuel)
    (s := s.setFirstFree 0 (wrap64 (c + 1))) (hs.toShape.setFirstFree _) hpage
    (by rw [toBitmap_eq_zero_iff, pageOf_mul]; exact hs.lt)
    (by rw [pageOf_mul]; exact hs.free) (Nat.le_of_not_lt hlast) hlock
  exact absurd hzero hfree.ne'

/-- The manager after `pm_init`: in order, with the pages of `boot` locked, and no page
of these handed out. -/
structure Booted (s : PmState) (boot : List ℕ) : Prop where
  ready : ∃ c, Ready s c
  synced : Synced s
  locked : ∀ a ∈ boot, s.pageBit (pageOf a) = true
  handed : ∀ a ∈ s.handed, ∃ i < bitmapSize, a = i * pageSize ∧ ∀ b ∈ boot, pageOf b ≠ i

/-- **`pm_init`**, when it returns with a free page left below 128 MiB. -/
theorem pmInit_spec {env : PmEnv} {fuel : ℕ} (hfuel : bitmapSize < fuel)
    {memMap : List MemSegment} {s : PmState} (hinit : pmInit env fuel memMap = .ok s)
    (hfree : 0 < s.freePages) : Booted s (bootAddrs env memMap) := by
  obtain ⟨s₁, hmem, hok⟩ := Except.bind_eq_ok_iff.mp hinit
  obtain ⟨⟨r, s₂⟩, hkernel, hok⟩ := Except.bind_eq_ok_iff.mp hok
  obtain ⟨⟨page, s₃⟩, hreq, hret⟩ := Except.bind_eq_ok_iff.mp hok
  cases hret
  obtain ⟨_, hloop⟩ := pageRange_eq_loop hkernel
  have hearly₁ := computeMemSize_noPage _ _ _ booting_initFirstBitmap.noPage hmem
  have hearly₂ := pageLoop_noPage _ _ _ _ _ _ hearly₁.noPage hloop
  -- the request of the page for the next bitmap
  have hgrow₃ : s₃.freePages ≤ s₂.freePages := 
    freePages_le (pmRequestPage_noPage env fuel _ _ _ hearly₂.noPage hreq).2
  have hfree₂ : 0 < s₂.freePages := lt_of_lt_of_le hfree hgrow₃
  have hfree₁ : 0 < s₁.freePages := lt_of_lt_of_le hfree₂ (freePages_le hearly₂.grow)
  obtain ⟨hs₁, hset₁⟩ :=
    booting_initFirstBitmap.computeMemSize hfuel.le memMap _ _ hmem hfree₁
  obtain ⟨hs₂, hset₂⟩ := hs₁.pageLoop hfuel.le _ _ _ _ _ _ hloop hfree₂
  have hboot : ∀ a ∈ bootAddrs env memMap, s₂.pageBit (pageOf a) = true := by
    intro a ha
    rcases List.mem_append.mp ha with ha | ha
    · exact hearly₂.grow _ (hset₁ a ha)
    · exact hset₂ a ha
  obtain ⟨c, hready⟩ := hs₂.ready
  obtain ⟨fuel, rfl⟩ := Nat.exists_eq_add_of_le' (Nat.one_le_of_lt hfuel)
  have hroom := freePages_of_request hready hs₂.noPage hreq hfree
  obtain ⟨htook, -, -⟩ := (requestOk hfuel).took hready hroom hreq
  obtain ⟨c', hready'⟩ := htook.ready
  refine ⟨⟨c', ⟨hready'.toShape.congr rfl rfl rfl, hready'.lt, hready'.free, hready'.below⟩⟩,
    htook.synced hs₂.synced, fun a ha => htook.grow _ (hboot a ha), fun a ha => ?_⟩
  rcases htook.handed a ha with hmem | ⟨i, hi, hbit, rfl⟩
  · rw [hs₂.handed] at hmem
    exact absurd hmem List.not_mem_nil
  · refine ⟨i, hi, rfl, fun b hb hpage => ?_⟩
    have := hboot b hb
    rw [hpage, hbit] at this
    exact absurd this (by simp)

end Mimik.Pm
