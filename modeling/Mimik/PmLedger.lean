/-
# The ledger of free memory

`mem_info.free` starts with the lengths of all segments of the memory map, reserved ones
among them, and follows every lock and release by a page.  It counts the pages that lie
in available segments and are not locked as long as every page that is locked or
released is one of them (`free_of_run`): a page of a reserved segment or of no segment
at all puts it off, and so does a page beyond 128 MiB that is locked a second time.
-/
import Mimik.PmCursor

namespace Mimik.Pm

attribute [local irreducible] bitmapSize wrap64 sub64

/-! ## Available pages -/

/-- The page lies wholly in available segments. -/
def InAvailable (memMap : List MemSegment) (page : ℕ) : Prop :=
  ∀ k < pageSize, ∃ segment ∈ memMap, segment.type = .available ∧
    segment.addr ≤ page * pageSize + k ∧ page * pageSize + k < segment.addr + segment.length

instance (memMap : List MemSegment) : DecidablePred (InAvailable memMap) := fun page =>
  inferInstanceAs (Decidable (∀ k < pageSize, ∃ segment ∈ memMap, segment.type = .available ∧
    segment.addr ≤ page * pageSize + k ∧ page * pageSize + k < segment.addr + segment.length))

/-- The pages that lie wholly in available segments. -/
def availablePages (memMap : List MemSegment) : Finset ℕ :=
  (Finset.range (2 ^ 52)).filter (InAvailable memMap)

/-- Those of them that are not locked. -/
def unlockedPages (memMap : List MemSegment) (s : PmState) : Finset ℕ :=
  (availablePages memMap).filter fun page => s.isLocked page = false

/-- **The ledger is balanced**: `mem_info.free` is the size of the available pages that are
not locked. -/
def Balanced (memMap : List MemSegment) (s : PmState) : Prop :=
  s.memInfo.free = (unlockedPages memMap s).card * pageSize

variable {memMap : List MemSegment} {env : PmEnv} {req : RequestPage} {fuel rounds : ℕ}
  {s s' s₁ : PmState} {c paddr page n k : ℕ}

theorem mem_unlockedPages : page ∈ unlockedPages memMap s ↔
    page ∈ availablePages memMap ∧ s.isLocked page = false := Finset.mem_filter

/-- The ledger looks at the counter and at the locks. -/
theorem Balanced.congr (hb : Balanced memMap s) (hfree : s'.memInfo.free = s.memInfo.free)
    (hhist : s'.history = s.history) : Balanced memMap s' := by
  have hsame : unlockedPages memMap s' = unlockedPages memMap s := by
    ext page
    rw [mem_unlockedPages, mem_unlockedPages, isLocked_congr hhist]
  rw [Balanced, hfree, hb, hsame]

/-- An available page is locked. -/
theorem Balanced.lock (hb : Balanced memMap s) (hpage : pageOf paddr ∈ availablePages memMap)
    (hunlocked : s.isLocked (pageOf paddr) = false) : Balanced memMap (s.pageLocked paddr) := by
  have hmem : pageOf paddr ∈ unlockedPages memMap s := mem_unlockedPages.mpr ⟨hpage, hunlocked⟩
  have herase : unlockedPages memMap (s.pageLocked paddr) =
      (unlockedPages memMap s).erase (pageOf paddr) := by
    ext page
    rw [Finset.mem_erase, mem_unlockedPages, mem_unlockedPages,
      isLocked_cons (PmState.pageLocked_history s paddr)]
    by_cases hp : page = pageOf paddr
    · simp [hp]
    · simp [hp]
  have hpos := Finset.card_pos.mpr ⟨_, hmem⟩
  show sub64 s.memInfo.free pageSize = _
  rw [herase, Finset.card_erase_of_mem hmem, hb, Nat.sub_mul, Nat.one_mul, sub64, if_neg]
  rw [Nat.not_lt]
  exact Nat.le_mul_of_pos_left pageSize hpos

/-- An available page is released. -/
theorem Balanced.release (hb : Balanced memMap s) (hcard : (availablePages memMap).card < 2 ^ 52)
    (hpage : pageOf paddr ∈ availablePages memMap) (hlocked : s.isLocked (pageOf paddr) = true) :
    Balanced memMap (s.pageReleased paddr) := by
  have hnot : pageOf paddr ∉ unlockedPages memMap s := by
    intro hmem
    rw [(mem_unlockedPages.mp hmem).2] at hlocked
    cases hlocked
  have hinsert : unlockedPages memMap (s.pageReleased paddr) =
      insert (pageOf paddr) (unlockedPages memMap s) := by
    ext page
    rw [Finset.mem_insert, mem_unlockedPages, mem_unlockedPages,
      isLocked_cons (PmState.pageReleased_history s paddr)]
    by_cases hp : page = pageOf paddr
    · simp [hp, hpage]
    · simp [hp]
  have hle : (unlockedPages memMap (s.pageReleased paddr)).card ≤ (availablePages memMap).card :=
    Finset.card_le_card (Finset.filter_subset _ _)
  rw [hinsert, Finset.card_insert_of_notMem hnot] at hle
  show wrap64 (s.memInfo.free + pageSize) = _
  rw [hinsert, Finset.card_insert_of_notMem hnot, hb, Nat.add_mul, Nat.one_mul]
  apply wrap64_of_lt
  rw [pageSize]
  omega

/-! ## The lowest free pages -/

/-- The `n` lowest free pages of the first bitmap are available: those below which fewer
than `n` are free. -/
def LowestAvailable (memMap : List MemSegment) (s : PmState) (n : ℕ) : Prop :=
  ∀ page ∈ s.freeSet, (s.freeSet.filter (· < page)).card < n → page ∈ availablePages memMap

/-- The page that is requested next is the lowest of them. -/
theorem LowestAvailable.cursor (h : LowestAvailable memMap s n) (hn : 0 < n) (hready : Ready s c) :
    c ∈ availablePages memMap := by
  apply h c (PmState.mem_freeSet.mpr ⟨hready.lt, hready.free⟩)
  have hnone : s.freeSet.filter (· < c) = ∅ := by
    rw [Finset.filter_eq_empty_iff]
    intro i hi hlt
    rw [PmState.mem_freeSet, hready.below i hlt] at hi
    exact Bool.noConfusion hi.2
  rw [hnone, Finset.card_empty]
  exact hn

/-- When `k` pages are taken, the lowest ones that are left were low enough before. -/
theorem LowestAvailable.took (h : LowestAvailable memMap s (n + k)) (htook : Took s s' k) :
    LowestAvailable memMap s' n := by
  have hsub : s'.freeSet ⊆ s.freeSet := by
    intro i hi
    rw [PmState.mem_freeSet] at hi ⊢
    refine ⟨hi.1, ?_⟩
    by_contra hset
    rw [htook.grow i (by simpa using hset)] at hi
    exact Bool.noConfusion hi.2
  intro page hpage hlow
  apply h page (hsub hpage)
  have hsplit : s.freeSet.filter (· < page) ⊆
      s'.freeSet.filter (· < page) ∪ (s.freeSet \ s'.freeSet) := by
    intro i hi
    rw [Finset.mem_filter] at hi
    rw [Finset.mem_union, Finset.mem_filter, Finset.mem_sdiff]
    by_cases hi' : i ∈ s'.freeSet
    · exact .inl ⟨hi', hi.2⟩
    · exact .inr ⟨hi.1, hi'⟩
  have hcard := Finset.card_le_card hsplit
  have hunion := Finset.card_union_le (s'.freeSet.filter (· < page)) (s.freeSet \ s'.freeSet)
  have hdiff : (s.freeSet \ s'.freeSet).card = k := by
    rw [Finset.card_sdiff_of_subset hsub]
    have hpages := htook.pages
    rw [PmState.freePages, PmState.freePages] at hpages
    omega
  omega

theorem LowestAvailable.mono (h : LowestAvailable memMap s n) (hk : k ≤ n) :
    LowestAvailable memMap s k :=
  fun page hpage hlow => h page hpage (by omega)

/-! ## Requests -/

/-- A free page of the first bitmap is not locked. -/
theorem isLocked_of_free (hsync : Synced s) (hlt : page < bitmapSize)
    (hfree : s.pageBit page = false) : s.isLocked page = false := (hsync page hlt).trans hfree

/-- From `s` to `s'` the ledger was kept, and the pages of the first bitmap that were taken
are available ones. -/
structure Entered (memMap : List MemSegment) (s s' : PmState) : Prop where
  balanced : Balanced memMap s → Balanced memMap s'
  taken : ∀ page, s.pageBit page = false → s'.pageBit page = true →
    page ∈ availablePages memMap

theorem Entered.trans {s₂ : PmState} (h : Entered memMap s s₁) (h' : Entered memMap s₁ s₂) :
    Entered memMap s s₂ where
  balanced hb := h'.balanced (h.balanced hb)
  taken page hfree hset := by
    cases hbit : s₁.pageBit page with
    | true => exact h.taken page hfree hbit
    | false => exact h'.taken page hbit hset

/-- A change of other variables is no entry. -/
theorem Entered.of_same (hfree : s'.memInfo.free = s.memInfo.free)
    (hhist : s'.history = s.history) (hbits : ∀ page, s'.pageBit page = s.pageBit page) :
    Entered memMap s s' where
  balanced hb := hb.congr hfree hhist
  taken page hclear hset := by
    rw [hbits, hclear] at hset
    cases hset

/-- A lock of a free page of the first bitmap is entered in the ledger. -/
theorem tryLockPage_entered (env : PmEnv) (req : RequestPage) (hsync : Synced s) (hs : Shape s c)
    (hbelow : ∀ i < c, i ≠ pageOf paddr → s.pageBit i = true) (hrounds : bitmapSize ≤ rounds)
    (hpaddr : toBitmap paddr = 0) (hfree : s.pageBit (pageOf paddr) = false)
    (hroom : 1 < s.freePages) (hpage : pageOf paddr ∈ availablePages memMap) :
    ∃ s', Mimik.Pm.tryLockPage env req rounds s paddr = .ok (true, s') ∧ Entered memMap s s' := by
  obtain ⟨s₁, hset, -, hsame, hbits, -⟩ := trySetPage_first env req hs hpaddr true
  obtain ⟨s₂, j, hset₂, -, hlock⟩ :=
    tryLockPage_first_eq env req hs hbelow hrounds hpaddr hfree hroom
  rw [hset, hfree] at hset₂
  cases hset₂
  refine ⟨_, hlock, fun hb => ?_, fun page hclear hset => ?_⟩
  · have hb₁ : Balanced memMap (s₁.setFirstFree 0 j) :=
      hb.congr (congrArg MemInfo.free hsame.memInfo) hsame.history
    apply hb₁.lock hpage
    have hlocked := isLocked_of_free hsync (toBitmap_eq_zero_iff.mp hpaddr) hfree
    exact (isLocked_congr hsame.history _).trans hlocked
  · replace hset : s₁.pageBit page = true := hset
    rw [hbits] at hset
    split at hset
    next heq => rw [heq]; exact hpage
    next => rw [hclear] at hset; cases hset

/-- What `create_bitmap` and `mm_alloc` rely on. -/
def RequestEntered (memMap : List MemSegment) (req : RequestPage) : Prop :=
  ∀ s c a s', Ready s c → Synced s → 1 < s.freePages → c ∈ availablePages memMap →
    req s = .ok (a, s') → Entered memMap s s'

/-- **A request** of an available page is entered in the ledger. -/
theorem requestEntered (env : PmEnv) (hfuel : bitmapSize < fuel) :
    RequestEntered memMap (pmRequestPage env fuel) := by
  obtain ⟨fuel, rfl⟩ := Nat.exists_eq_add_of_le' (Nat.one_le_of_lt hfuel)
  intro s c a s' hready hsync hroom hc hok
  obtain ⟨b, hderef, hbm⟩ := hready.deref
  have hpage : pageOf (c * pageSize) = c := pageOf_mul c
  have hnear : toBitmap (c * pageSize) = 0 := by
    rw [toBitmap_eq_zero_iff, hpage]
    exact hready.lt
  have hbelow : ∀ i < wrap64 (c + 1), i ≠ pageOf (c * pageSize) → s.pageBit i = true := by
    intro i hi hne
    have hlt := hready.lt
    rw [bitmapSize_eq] at hlt
    rw [wrap64_of_lt (by omega)] at hi
    rw [hpage] at hne
    exact hready.below i (by omega)
  have hmoved : Entered memMap s (s.setFirstFree 0 (wrap64 (c + 1))) :=
    Entered.of_same rfl rfl fun _ => rfl
  obtain ⟨s₁, hlock, hentered⟩ := tryLockPage_entered (s := s.setFirstFree 0 (wrap64 (c + 1))) env
    (pmRequestPage env fuel) hsync (hready.toShape.setFirstFree _) hbelow
    (Nat.le_of_lt_succ hfuel) hnear (by rw [hpage]; exact hready.free) hroom
    (by rw [hpage]; exact hc)
  obtain ⟨_, -, hok⟩ := Except.bind_eq_ok_iff.mp hok
  obtain ⟨b₁, hderef₁, hok⟩ := Except.bind_eq_ok_iff.mp hok
  rw [hready.first, hderef] at hderef₁
  cases hderef₁
  obtain ⟨⟨locked, s₂⟩, hlock₂, hok⟩ := Except.bind_eq_ok_iff.mp hok
  obtain ⟨_, -, hret⟩ := Except.bind_eq_ok_iff.mp hok
  cases hret
  simp only [hbm.id, hbm.index, hbm.firstFree, toPaddr_zero hready.lt] at hlock₂
  rw [hlock] at hlock₂
  cases hlock₂
  exact (hmoved.trans hentered).trans (Entered.of_same rfl rfl fun _ => rfl)

theorem heapRequests_entered (hreq : RequestOk req) (hent : RequestEntered memMap req) (n : ℕ)
    (hready : Ready s c) (hsync : Synced s) (hroom : n < s.freePages)
    (hlow : LowestAvailable memMap s n) (hok : Mimik.Pm.heapRequests req n s = .ok s') :
    Entered memMap s s' := by
  induction n generalizing s c with
  | zero =>
    cases hok
    exact Entered.of_same rfl rfl fun _ => rfl
  | succ n ih =>
    obtain ⟨⟨a, s₁⟩, hfst, hrest⟩ := Except.bind_eq_ok_iff.mp hok
    obtain ⟨htook, -, -⟩ := hreq.took hready (by omega) hfst
    obtain ⟨c₁, hready₁⟩ := htook.ready
    have hpages := htook.pages
    have hentered := hent s c a s₁ hready hsync (by omega) (hlow.cursor (by omega) hready) hfst
    exact hentered.trans
      (ih hready₁ (htook.synced hsync) (by omega) (hlow.took htook) hrest)

/-- **`create_bitmap`** takes the lowest free pages. -/
theorem createBitmap_entered (hreq : RequestOk req) (hent : RequestEntered memMap req)
    (hready : Ready s c) (hsync : Synced s) {index id : ℕ}
    (hroom : env.bitmapCost s.allocCalls < s.freePages)
    (hlow : LowestAvailable memMap s (env.bitmapCost s.allocCalls))
    (hok : Mimik.Pm.createBitmap env req s index = .ok (id, s')) : Entered memMap s s' := by
  have hcost : env.bitmapCost s.allocCalls = env.heapPages s.allocCalls + 1 := rfl
  obtain ⟨⟨_, s₁⟩, halloc, hok⟩ := Except.bind_eq_ok_iff.mp hok
  obtain ⟨_, -, hok⟩ := Except.bind_eq_ok_iff.mp hok
  obtain ⟨⟨a, s₃⟩, hreqok, hret⟩ := Except.bind_eq_ok_iff.mp hok
  cases hret
  rw [hready.find_above index] at hreqok
  -- the pages of the heap
  obtain ⟨hid, htook, hcalls, -, htail, -⟩ :=
    (mmAllocBitmap_spec hreq hready (by omega)).2 _ s₁ halloc
  obtain ⟨s₂, hheap, hret⟩ := Except.bind_eq_ok_iff.mp halloc
  cases hret
  have hready₀ : Ready { s with allocCalls := s.allocCalls + 1 } c :=
    ⟨hready.toShape.called, hready.lt, hready.free, hready.below⟩
  have hcalled : Entered memMap s { s with allocCalls := s.allocCalls + 1 } :=
    Entered.of_same rfl rfl fun _ => rfl
  have hentered : Entered memMap { s with allocCalls := s.allocCalls + 1 } s₁ :=
    heapRequests_entered hreq hent _ hready₀ hsync (show _ < s.freePages by omega)
      (hlow.mono (by omega)) hheap
  -- the page for the next bitmap
  obtain ⟨c₂, hready₂⟩ := htook.ready
  obtain ⟨hlink, htook', -⟩ := linkBitmap_spec (s.allocCalls + 1) hready₂ (Nat.succ_pos _)
    hcalls.ge (htail ▸ hready.id_ne)
  obtain ⟨-, -, hbits, -⟩ := linkBitmap_shape (s.allocCalls + 1) hready₂.toShape (Nat.succ_pos _)
    hcalls.ge
  have hlinked : Entered memMap s₁ (linkBitmap s₁ .head (s.allocCalls + 1)) :=
    Entered.of_same (by rfl) (by rfl) hbits
  have hall := htook.trans htook'
  have hpages := hall.pages
  have hlow' : LowestAvailable memMap (linkBitmap s₁ .head (s.allocCalls + 1)) 1 :=
    LowestAvailable.took (k := env.heapPages s.allocCalls) (hlow.mono (by omega)) hall
  have hlast := hent _ c₂ a s₃ hlink (hall.synced hsync) (by omega)
    (hlow'.cursor (by omega) hlink) hreqok
  exact (((hcalled.trans hentered).trans hlinked).trans hlast).trans
    (Entered.of_same rfl rfl fun _ => rfl)

/-! ## One page -/

/-- The manager is in order, agrees with its history, and its ledger is balanced. -/
structure Accounted (memMap : List MemSegment) (s : PmState) : Prop where
  ready : ∃ c, Ready s c
  synced : Synced s
  balanced : Balanced memMap s

/-- The page is one that may be locked: an available page that is not locked, or a page of
the first bitmap that is locked already. -/
def Lockable (memMap : List MemSegment) (s : PmState) (paddr : ℕ) : Prop :=
  if toBitmap paddr = 0 then
    s.isLocked (pageOf paddr) = true ∨ pageOf paddr ∈ availablePages memMap
  else s.isLocked (pageOf paddr) = false ∧ pageOf paddr ∈ availablePages memMap

/-- The page is one that may be released: available, or of the first bitmap and not locked,
or beyond, where nothing is released. -/
def Releasable (memMap : List MemSegment) (s : PmState) (paddr : ℕ) : Prop :=
  toBitmap paddr = 0 → s.isLocked (pageOf paddr) = false ∨ pageOf paddr ∈ availablePages memMap

/-- What one operation on a page leaves for the next: fewer of the lowest pages are asked
for, and what was allowed on other pages still is. -/
structure PageEntered (env : PmEnv) (memMap : List MemSegment) (own : ℕ)
    (may : PmState → ℕ → Prop) (s s' : PmState) (paddr : ℕ) : Prop where
  accounted : Accounted memMap s'
  room : s.freePages ≤ s'.freePages + env.cost own s.allocCalls [paddr]
  low : ∀ n, LowestAvailable memMap s (n + env.cost own s.allocCalls [paddr]) →
    LowestAvailable memMap s' n
  may : ∀ a, (toBitmap a ≠ 0 → pageOf a ≠ pageOf paddr) → may s a → may s' a
  allocCalls : s'.allocCalls = s.allocCalls + if toBitmap paddr = 0 then 0 else 1

/-- Beyond the first 128 MiB `try_set_page` enters the pages of a bitmap. -/
theorem trySetPage_entered (hreq : RequestOk req) (hent : RequestEntered memMap req)
    (hready : Ready s c) (hsync : Synced s) (hpaddr : toBitmap paddr ≠ 0) {state r : Bool}
    (hroom : env.bitmapCost s.allocCalls < s.freePages)
    (hlow : LowestAvailable memMap s (env.bitmapCost s.allocCalls))
    (hok : trySetPage env req s paddr state = .ok (r, s')) : Entered memMap s s' := by
  have hfind := (hready.findBitmapByIndex (toBitmap paddr)).2 hpaddr
  rw [trySetPage, hfind] at hok
  obtain ⟨⟨id, s₁⟩, hcreate, hok⟩ := Except.bind_eq_ok_iff.mp hok
  have hentered := createBitmap_entered hreq hent hready hsync hroom hlow hcreate
  obtain ⟨hid, htook, -, b, page, hlookup, hsize, -, hmap, -⟩ :=
    (createBitmap_spec hreq hready (toBitmap paddr) hroom).2 id s₁ hcreate
  obtain ⟨c₁, hready₁⟩ := htook.ready
  obtain ⟨b₁, hderef, hok⟩ := Except.bind_eq_ok_iff.mp hok
  rw [hready₁.deref_later hid hlookup] at hderef
  cases hderef
  obtain ⟨sts, super, maps, hbitmap, -, -, -, -, hother⟩ :=
    bitmapSet_spec s₁.maps b.super state (hsize.symm ▸ toIndex_lt paddr)
  simp only [hbitmap] at hok
  cases hok
  apply hentered.trans
  refine Entered.of_same (by rfl) (by rfl) fun page' => ?_
  have hbytes := hother .pagesBitmap0 (by rw [hmap]; simp)
  exact congrArg (fun bytes => (bytes (page' / 8)).getLsbD (page' % 8)) hbytes

/-- What was lockable is, when locks are only added, and no other far page is locked. -/
theorem Lockable.of_locks (hnear : ∀ i < bitmapSize, s.isLocked i = true → s'.isLocked i = true)
    (hfar : ∀ i, bitmapSize ≤ i → i ≠ pageOf paddr → s'.isLocked i = s.isLocked i) (a : ℕ)
    (hne : toBitmap a ≠ 0 → pageOf a ≠ pageOf paddr) (ha : Lockable memMap s a) :
    Lockable memMap s' a := by
  rw [Lockable] at ha ⊢
  split at ha
  next hz =>
    rw [if_pos hz]
    exact ha.imp_left (hnear _ (toBitmap_eq_zero_iff.mp hz))
  next hz =>
    rw [if_neg hz]
    have hge : bitmapSize ≤ pageOf a := Nat.le_of_not_lt fun h => hz (toBitmap_eq_zero_iff.mpr h)
    rw [hfar _ hge (hne hz)]
    exact ha

/-- What was releasable is, when only available pages are locked. -/
theorem Releasable.of_taken (h : ∀ i < bitmapSize, s.isLocked i = false →
      i ∉ availablePages memMap → s'.isLocked i = false) (a : ℕ) (ha : Releasable memMap s a) :
    Releasable memMap s' a := by
  intro hz
  by_cases hpage : pageOf a ∈ availablePages memMap
  · exact .inr hpage
  · exact .inl (h _ (toBitmap_eq_zero_iff.mp hz) ((ha hz).resolve_right hpage) hpage)

/-- **A lock** of a lockable page. -/
theorem Accounted.lock (hfuel : bitmapSize < fuel) (hs : Accounted memMap s) {r : Bool}
    (ha : Lockable memMap s paddr) (hroom : env.cost 1 s.allocCalls [paddr] < s.freePages)
    (hlow : toBitmap paddr ≠ 0 → LowestAvailable memMap s (env.cost 1 s.allocCalls [paddr]))
    (hok : pmTryLockPage env fuel s paddr = .ok (r, s')) :
    PageEntered env memMap 1 (Lockable memMap) s s' paddr := by
  obtain ⟨⟨c, hready⟩, hsync, hb⟩ := hs
  by_cases hnear : toBitmap paddr = 0
  · have hlt := toBitmap_eq_zero_iff.mp hnear
    have hcost : env.cost 1 s.allocCalls [paddr] = 1 := by
      simp only [PmEnv.cost, if_pos hnear]
    rw [hcost] at hroom
    rw [Lockable, if_pos hnear] at ha
    -- the page is taken, or it was locked already
    have hstep : ∃ n ≤ 1, Took s s' n ∧ Entered memMap s s' ∧ s'.allocCalls = s.allocCalls := by
      cases hbit : s.pageBit (pageOf paddr) with
      | true =>
        obtain ⟨s₁, hset, -, hsame, hbits, -⟩ :=
          trySetPage_first env (pmRequestPage env fuel) hready.toShape hnear true
        obtain ⟨s₂, hok₂, htook, hquiet, -⟩ :=
          tryLockPage_locked env (pmRequestPage env fuel) fuel hready hnear hbit
        have hfalse : tryLockPage env (pmRequestPage env fuel) fuel s paddr = .ok (false, s₁) := by
          rw [tryLockPage, hset, hbit]
          rfl
        rw [hfalse] at hok₂
        cases hok₂
        rw [pmTryLockPage, hfalse] at hok
        cases hok
        refine ⟨0, Nat.zero_le 1, htook, Entered.of_same (congrArg MemInfo.free hsame.memInfo)
          hsame.history fun page => ?_, hsame.allocCalls⟩
        rw [hbits]
        split
        next heq => rw [heq, hbit]
        next => rfl
      | false =>
        have hpage := ha.resolve_left (by rw [isLocked_of_free hsync hlt hbit]; simp)
        obtain ⟨s₁, hok₁, htook, hquiet, -⟩ := tryLockPage_first env (pmRequestPage env fuel)
          hready.toShape (fun i hi _ => hready.below i hi) hfuel.le hnear hbit hroom
        obtain ⟨s₂, hok₂, hentered⟩ := tryLockPage_entered env
          (pmRequestPage env fuel) hsync hready.toShape (fun i hi _ => hready.below i hi) hfuel.le
          hnear hbit hroom hpage
        rw [pmTryLockPage] at hok
        rw [hok] at hok₁ hok₂
        cases hok₁
        cases hok₂
        exact ⟨1, le_rfl, htook, hentered, hquiet.allocCalls⟩
    obtain ⟨n, hn, htook, hentered, hcalls⟩ := hstep
    have hpages := htook.pages
    refine ⟨⟨htook.ready, htook.synced hsync, hentered.balanced hb⟩, ?_, ?_, ?_, ?_⟩
    · rw [hcost]
      omega
    · intro m hm
      rw [hcost] at hm
      exact LowestAvailable.took (k := n) (hm.mono (by omega)) htook
    · apply Lockable.of_locks
      · intro i hi hlocked
        rw [htook.synced hsync i hi]
        rw [hsync i hi] at hlocked
        exact htook.grow i hlocked
      · exact fun i hi _ => htook.far i hi
    · rw [if_pos hnear, hcalls, Nat.add_zero]
  · have hfar : bitmapSize ≤ pageOf paddr :=
      Nat.le_of_not_lt fun h => hnear (toBitmap_eq_zero_iff.mpr h)
    have hcost : env.cost 1 s.allocCalls [paddr] = env.bitmapCost s.allocCalls := by
      simp only [PmEnv.cost, if_neg hnear, Nat.add_zero]
    have hlow := hlow hnear
    rw [hcost] at hroom hlow
    rw [Lockable, if_neg hnear] at ha
    obtain ⟨⟨r₁, s₁⟩, hset, hok⟩ := Except.bind_eq_ok_iff.mp hok
    obtain ⟨rfl, htook, hcalls⟩ :=
      (trySetPage_later (requestOk hfuel) hready hnear true hroom).2 r₁ s₁ hset
    have hentered := trySetPage_entered (requestOk hfuel) (requestEntered env hfuel) hready hsync
      hnear hroom hlow hset
    obtain ⟨c₁, hready₁⟩ := htook.ready
    obtain ⟨b, hderef, hbm⟩ := hready₁.deref
    simp only [if_true, bind, Except.bind, hready₁.first, hderef, hbm.index,
      if_neg (Ne.symm hnear), pure, Except.pure] at hok
    cases hok
    have hlocks := isLocked_cons (PmState.pageLocked_history s₁ paddr)
    have hunlocked : s₁.isLocked (pageOf paddr) = false := (htook.far _ hfar).trans ha.1
    refine ⟨⟨⟨c₁, ⟨hready₁.toShape.congr rfl rfl rfl, hready₁.lt, hready₁.free,
      hready₁.below⟩⟩, fun i hi => ?_, (hentered.balanced hb).lock ha.2 hunlocked⟩, ?_, ?_, ?_, ?_⟩
    · rw [hlocks, if_neg (by omega)]
      exact htook.synced hsync i hi
    · rw [hcost]
      exact htook.pages.ge
    · intro m hm
      rw [hcost] at hm
      exact (show LowestAvailable memMap s₁ m from hm.took htook)
    · apply Lockable.of_locks
      · intro i hi hlocked
        rw [hlocks, if_neg (by omega), htook.synced hsync i hi]
        rw [hsync i hi] at hlocked
        exact htook.grow i hlocked
      · intro i hi hne
        rw [hlocks, if_neg hne]
        exact htook.far i hi
    · rw [if_neg hnear]
      exact hcalls

/-- **A release** of a releasable page. -/
theorem Accounted.release (hfuel : bitmapSize < fuel)
    (hcard : (availablePages memMap).card < 2 ^ 52) (hs : Accounted memMap s) {r : Bool}
    (ha : Releasable memMap s paddr) (hroom : env.cost 0 s.allocCalls [paddr] < s.freePages)
    (hlow : toBitmap paddr ≠ 0 → LowestAvailable memMap s (env.cost 0 s.allocCalls [paddr]))
    (hok : pmTryReleasePage env fuel s paddr = .ok (r, s')) :
    PageEntered env memMap 0 (Releasable memMap) s s' paddr := by
  obtain ⟨⟨c, hready⟩, hsync, hb⟩ := hs
  by_cases hnear : toBitmap paddr = 0
  · have hlt := toBitmap_eq_zero_iff.mp hnear
    have hcost : env.cost 0 s.allocCalls [paddr] = 0 := by
      simp only [PmEnv.cost, if_pos hnear]
    have ha := ha hnear
    obtain ⟨s₁, hset, -, hsame, hbits, -⟩ :=
      trySetPage_first env (pmRequestPage env fuel) hready.toShape hnear false
    cases hbit : s.pageBit (pageOf paddr) with
    | false =>
      obtain ⟨s₂, hok₂, htook, hquiet, -⟩ :=
        tryReleasePage_free env (pmRequestPage env fuel) hready hnear hbit
      have hfalse : tryReleasePage env (pmRequestPage env fuel) s paddr = .ok (false, s₁) := by
        rw [tryReleasePage, hset, hbit]
        rfl
      rw [hfalse] at hok₂
      cases hok₂
      rw [pmTryReleasePage, hfalse] at hok
      cases hok
      refine ⟨⟨htook.ready, htook.synced hsync,
        hb.congr (congrArg MemInfo.free hsame.memInfo) hsame.history⟩, ?_, ?_, ?_, ?_⟩
      · rw [hcost]
        exact htook.pages.ge
      · intro m hm
        rw [hcost] at hm
        exact hm.took htook
      · intro a _ hmay
        exact Releasable.of_taken (fun i _ hi _ => (isLocked_congr hsame.history i).trans hi) a hmay
      · rw [if_pos hnear, hsame.allocCalls, Nat.add_zero]
    | true =>
      have hpage := ha.resolve_left (by rw [hsync _ hlt, hbit]; simp)
      obtain ⟨s₂, hok₂, hready₂, hbits₂, hhist, -, hquiet⟩ :=
        tryReleasePage_first env (pmRequestPage env fuel) hready hnear hbit
      obtain ⟨s₃, j, hset₃, -, hok₃⟩ :=
        tryReleasePage_first_eq env (pmRequestPage env fuel) hready hnear hbit
      rw [hset, hbit] at hset₃
      cases hset₃
      rw [pmTryReleasePage] at hok
      rw [hok] at hok₂ hok₃
      cases hok₂
      cases hok₃
      have hb₁ : Balanced memMap (s₁.setFirstFree 0 j) :=
        hb.congr (congrArg MemInfo.free hsame.memInfo) hsame.history
      have hlocked : (s₁.setFirstFree 0 j).isLocked (pageOf paddr) = true :=
        (isLocked_congr hsame.history _).trans ((hsync _ hlt).trans hbit)
      refine ⟨⟨hready₂, fun i hi => ?_, hb₁.release hcard hpage hlocked⟩, ?_, ?_, ?_, ?_⟩
      · rw [isLocked_cons hhist, hbits₂, hsync i hi]
      · rw [hcost]
        apply freePages_le
        intro i hi
        rw [hbits₂] at hi
        split at hi
        next => cases hi
        next => exact hi
      · intro m hm page hmem hlow
        by_cases heq : page = pageOf paddr
        · rw [heq]
          exact hpage
        · have hold : ∀ i, i ≠ pageOf paddr → (i ∈ s.freeSet ↔
              i ∈ ((s₁.setFirstFree 0 j).pageReleased paddr).freeSet) := by
            intro i hi
            rw [PmState.mem_freeSet, PmState.mem_freeSet, hbits₂, if_neg hi]
          rw [hcost] at hm
          apply hm page ((hold page heq).mpr hmem)
          apply Nat.lt_of_le_of_lt (Finset.card_le_card _) hlow
          intro i hi
          rw [Finset.mem_filter] at hi ⊢
          by_cases hip : i = pageOf paddr
          · subst hip
            rw [PmState.mem_freeSet, hbit] at hi
            exact absurd hi.1.2 (by simp)
          · exact ⟨(hold i hip).mp hi.1, hi.2⟩
      · intro a _ hmay
        apply Releasable.of_taken _ a hmay
        intro i _ hi _
        rw [isLocked_cons hhist, hi, ite_self]
      · rw [if_pos hnear, hquiet.allocCalls, Nat.add_zero]
  · have hcost : env.cost 0 s.allocCalls [paddr] = env.bitmapCost s.allocCalls := by
      simp only [PmEnv.cost, if_neg hnear, Nat.add_zero]
    have hlow := hlow hnear
    rw [hcost] at hroom hlow
    obtain ⟨⟨r₁, s₁⟩, hset, hok⟩ := Except.bind_eq_ok_iff.mp hok
    obtain ⟨rfl, htook, hcalls⟩ :=
      (trySetPage_later (requestOk hfuel) hready hnear false hroom).2 r₁ s₁ hset
    have hentered := trySetPage_entered (requestOk hfuel) (requestEntered env hfuel) hready hsync
      hnear hroom hlow hset
    cases hok
    refine ⟨⟨htook.ready, htook.synced hsync, hentered.balanced hb⟩, ?_, ?_, ?_, ?_⟩
    · rw [hcost]
      exact htook.pages.ge
    · intro m hm
      rw [hcost] at hm
      exact hm.took htook
    · intro a _ hmay
      apply Releasable.of_taken _ a hmay
      intro i hi hfree hnot
      rw [hsync i hi] at hfree
      rw [htook.synced hsync i hi]
      by_contra hset
      exact hnot (hentered.taken i hfree (by simpa using hset))
    · rw [if_neg hnear]
      exact hcalls

/-! ## Several pages -/

/-- No address beyond the first 128 MiB is on the page of an earlier one. -/
def FarDistinct (as : List ℕ) : Prop :=
  as.Pairwise fun a b => toBitmap b ≠ 0 → pageOf b ≠ pageOf a

/-- **A loop over pages**, when its operation on one page is entered in the ledger. -/
theorem Accounted.pageLoop {op : PmState → ℕ → Except Fault (Bool × PmState)}
    {join : Bool → Bool → Bool} {own : ℕ} {may : PmState → ℕ → Prop}
    (hop : ∀ s s' paddr r, Accounted memMap s → may s paddr →
      env.cost own s.allocCalls [paddr] < s.freePages →
      (toBitmap paddr ≠ 0 → LowestAvailable memMap s (env.cost own s.allocCalls [paddr])) →
      op s paddr = .ok (r, s') → PageEntered env memMap own may s s' paddr)
    (pages : ℕ) {acc r : Bool} (hs : Accounted memMap s)
    (hmay : ∀ a ∈ addrs pages paddr, may s a) (hfar : FarDistinct (addrs pages paddr))
    (hroom : env.cost own s.allocCalls (addrs pages paddr) < s.freePages)
    (hlow : (∃ a ∈ addrs pages paddr, toBitmap a ≠ 0) →
      LowestAvailable memMap s (env.cost own s.allocCalls (addrs pages paddr)))
    (hok : Mimik.Pm.pageLoop op join pages s paddr acc = .ok (r, s')) : Accounted memMap s' := by
  induction pages generalizing s paddr acc with
  | zero =>
    cases hok
    exact hs
  | succ pages ih =>
    obtain ⟨⟨done, s₁⟩, hfst, hrest⟩ := Except.bind_eq_ok_iff.mp hok
    have hsplit : env.cost own s.allocCalls (addrs (pages + 1) paddr) =
        env.cost own (s.allocCalls + if toBitmap paddr = 0 then 0 else 1)
            (addrs pages (wrap64 (paddr + pageSize))) +
          env.cost own s.allocCalls [paddr] := by
      simp only [addrs, PmEnv.cost]
      split <;> simp only [Nat.add_zero] <;> exact Nat.add_comm _ _
    rw [hsplit] at hroom hlow
    have hstep := hop s s₁ paddr done hs (hmay paddr List.mem_cons_self) (by omega)
      (fun hne => (hlow ⟨paddr, List.mem_cons_self, hne⟩).mono (by omega)) hfst
    have hleft := hstep.room
    have hpair := List.pairwise_cons.mp hfar
    rw [← hstep.allocCalls] at hroom hlow
    refine ih hstep.accounted (fun a ha => ?_) hpair.2 (by omega) (fun hex => ?_) hrest
    · exact hstep.may a (hpair.1 a ha) (hmay a (List.mem_cons_of_mem _ ha))
    · obtain ⟨a, ha, hne⟩ := hex
      exact hstep.low _ (hlow ⟨a, List.mem_cons_of_mem _ ha, hne⟩)

/-- **`pm_request_pages`**, when the lowest row of free pages is available. -/
theorem Accounted.requestPages (hfuel : bitmapSize < fuel) (hs : Accounted memMap s) {num a : ℕ}
    (hrow : HasRun s (max num 1)) (hroom : max num 1 < s.freePages)
    (havail : ∀ i, RowAt s (max num 1) i → (∀ j, RowAt s (max num 1) j → i ≤ j) →
      ∀ k < max num 1, i + k ∈ availablePages memMap)
    (hok : pmRequestPages env fuel s num = .ok (a, s')) : Accounted memMap s' := by
  obtain ⟨c, hready⟩ := hs.ready
  obtain ⟨start, r, s₁, hstart, hlow, hloop, rfl⟩ := requestPages_row hfuel hready hrow hok
  have hcost := cost_row env 1 (max num 1) start s.allocCalls hstart.1
  have hnear : ∀ a ∈ addrs (max num 1) (start * pageSize), toBitmap a = 0 := by
    intro a ha
    obtain ⟨k, hk, rfl⟩ := mem_addrs_row hstart.1 ha
    rw [toBitmap_eq_zero_iff, pageOf_mul]
    have := hstart.1
    omega
  have hlockable : ∀ a ∈ addrs (max num 1) (start * pageSize), Lockable memMap s a := by
    intro a ha
    rw [Lockable, if_pos (hnear a ha)]
    obtain ⟨k, hk, rfl⟩ := mem_addrs_row hstart.1 ha
    rw [pageOf_mul]
    exact .inr (havail start hstart hlow k hk)
  have hdistinct : FarDistinct (addrs (max num 1) (start * pageSize)) := by
    apply List.Pairwise.imp_of_mem (R := fun _ _ => True)
    · intro a b _ hb _ hne
      exact absurd (hnear b hb) hne
    · exact List.pairwise_of_forall fun _ _ => trivial
  have hs₁ : Accounted memMap s₁ := by
    refine hs.pageLoop (fun s s' paddr r hs hmay hroom hlow hok =>
      hs.lock hfuel hmay hroom hlow hok)
      _ hlockable hdistinct (by rw [hcost]; omega) (fun hex => ?_) hloop
    obtain ⟨a, ha, hne⟩ := hex
    exact absurd (hnear a ha) hne
  obtain ⟨⟨c₁, hready₁⟩, hsync₁, hb₁⟩ := hs₁
  exact ⟨⟨c₁, ⟨hready₁.toShape.congr rfl rfl rfl, hready₁.lt, hready₁.free, hready₁.below⟩⟩,
    hsync₁, hb₁.congr rfl rfl⟩

/-! ## Runs -/

/-- Every page that the operation locks or releases is available: those it names, and, of
those it requests, the lowest free ones. -/
def StaysAvailable (memMap : List MemSegment) (env : PmEnv) (s : PmState) : PmEvent → Prop
  | .tryLockPage paddr => Lockable memMap s paddr ∧
    (toBitmap paddr ≠ 0 → LowestAvailable memMap s (env.cost 1 s.allocCalls [paddr]))
  | .tryLockPages paddr bytes => (∀ a ∈ rangeAddrs paddr bytes, Lockable memMap s a) ∧
    FarDistinct (rangeAddrs paddr bytes) ∧ ((∃ a ∈ rangeAddrs paddr bytes, toBitmap a ≠ 0) →
      LowestAvailable memMap s (env.cost 1 s.allocCalls (rangeAddrs paddr bytes)))
  | .tryReleasePage paddr => Releasable memMap s paddr ∧
    (toBitmap paddr ≠ 0 → LowestAvailable memMap s (env.cost 0 s.allocCalls [paddr]))
  | .tryReleasePages paddr bytes => (∀ a ∈ rangeAddrs paddr bytes, Releasable memMap s a) ∧
    FarDistinct (rangeAddrs paddr bytes) ∧ ((∃ a ∈ rangeAddrs paddr bytes, toBitmap a ≠ 0) →
      LowestAvailable memMap s (env.cost 0 s.allocCalls (rangeAddrs paddr bytes)))
  | .requestPage => LowestAvailable memMap s 1
  | .requestPages num => ∀ i, RowAt s (max num 1) i → (∀ j, RowAt s (max num 1) j → i ≤ j) →
      ∀ k < max num 1, i + k ∈ availablePages memMap
  | .requestBytes bytes => ∀ i, RowAt s (max (pageAlignUp bytes / pageSize) 1) i →
      (∀ j, RowAt s (max (pageAlignUp bytes / pageSize) 1) j → i ≤ j) →
      ∀ k < max (pageAlignUp bytes / pageSize) 1, i + k ∈ availablePages memMap

/-- **One operation keeps the ledger balanced**, when the first bitmap suffices for it and
it stays among the available pages. -/
theorem Accounted.step (hfuel : bitmapSize < fuel)
    (hcard : (availablePages memMap).card < 2 ^ 52) (hs : Accounted memMap s) {e : PmEvent}
    (hroom : FirstBitmapSuffices env s e) (he : StaysAvailable memMap env s e)
    (hstep : pmStep env fuel s e = .ok s') : Accounted memMap s' := by
  have hresult : ∀ {α : Type} {x : Except Fault (α × PmState)}, Prod.snd <$> x = .ok s' →
      ∃ r, x = .ok (r, s') := by
    intro α x hx
    cases x with
    | error f => cases hx
    | ok p => cases hx; exact ⟨p.1, rfl⟩
  cases e with
  | tryLockPage paddr =>
    obtain ⟨r, hok⟩ := hresult hstep
    exact (hs.lock hfuel he.1 hroom he.2 hok).accounted
  | tryLockPages paddr bytes =>
    obtain ⟨r, hok⟩ := hresult hstep
    obtain ⟨_, hloop⟩ := pageRange_eq_loop hok
    exact hs.pageLoop (fun s s' paddr r hs hmay hroom hlow hok => hs.lock hfuel hmay hroom hlow hok)
      _ he.1 he.2.1 hroom he.2.2 hloop
  | tryReleasePage paddr =>
    obtain ⟨r, hok⟩ := hresult hstep
    exact (hs.release hfuel hcard he.1 hroom he.2 hok).accounted
  | tryReleasePages paddr bytes =>
    obtain ⟨r, hok⟩ := hresult hstep
    obtain ⟨_, hloop⟩ := pageRange_eq_loop hok
    exact hs.pageLoop
      (fun s s' paddr r hs hmay hroom hlow hok => hs.release hfuel hcard hmay hroom hlow hok)
      _ he.1 he.2.1 hroom he.2.2 hloop
  | requestPage =>
    obtain ⟨r, hok⟩ := hresult hstep
    obtain ⟨⟨c, hready⟩, hsync, hb⟩ := hs
    have htook := ((requestOk hfuel).took hready hroom hok).1
    have hreq : RequestEntered memMap (pmRequestPage env fuel) := requestEntered env hfuel
    have hentered := hreq s c r s' hready hsync hroom
      (he.cursor (by omega) hready) hok
    exact ⟨htook.ready, htook.synced hsync, hentered.balanced hb⟩
  | requestPages num =>
    obtain ⟨r, hok⟩ := hresult hstep
    exact hs.requestPages hfuel hroom.1 hroom.2 he hok
  | requestBytes bytes =>
    obtain ⟨r, hok⟩ := hresult hstep
    exact hs.requestPages hfuel hroom.1 hroom.2 he hok

/-- The pages that are locked after `pm_init`: those of the memory map and the kernel, and
the lowest page besides. -/
def InitLocked (env : PmEnv) (memMap : List MemSegment) (page : ℕ) : Prop :=
  page ∈ bootPages env memMap ∨ ∀ i, i ∉ bootPages env memMap → page ≤ i

open scoped Classical in
/-- The bytes that the memory map has to have for the ledger to be balanced after
`pm_init`: those of the pages that are available or locked. -/
noncomputable def initBytes (env : PmEnv) (memMap : List MemSegment) : ℕ :=
  (availablePages memMap ∪ (Finset.range bitmapSize).filter (InitLocked env memMap)).card *
    pageSize

/-- **The ledger after `pm_init`.** -/
theorem InitCount.balanced {env : PmEnv} (hs : InitCount env memMap s) (hsync : Synced s)
    (hbytes : (memMap.map (·.length)).sum = initBytes env memMap)
    (hlt : (memMap.map (·.length)).sum < 2 ^ 64) :
    (availablePages memMap).card < 2 ^ 52 ∧ Balanced memMap s := by
  obtain ⟨c, hc, hnot, hbelow, hbits⟩ := hs.bits
  -- the locked pages of the first bitmap are those of `InitLocked`
  have hlocked : ∀ i < bitmapSize, s.pageBit i = true ↔ InitLocked env memMap i := by
    intro i hi
    rw [hbits i hi, InitLocked]
    constructor
    · rintro (rfl | hmem)
      · refine .inr fun j hj => ?_
        by_contra hlt
        exact hj (hbelow j (by omega))
      · exact .inl hmem
    · rintro (hmem | hlow)
      · exact .inr hmem
      · rcases Nat.lt_trichotomy i c with hlt | heq | hgt
        · exact .inr (hbelow i hlt)
        · exact .inl heq
        · exact absurd (hlow c hnot) (by omega)
  classical
  have hset : availablePages memMap ∪ (Finset.range bitmapSize).filter (InitLocked env memMap) =
      unlockedPages memMap s ∪ (Finset.range bitmapSize).filter fun i => s.pageBit i = true := by
    ext i
    simp only [Finset.mem_union, mem_unlockedPages, Finset.mem_filter, Finset.mem_range]
    by_cases hi : i < bitmapSize
    · rw [← hlocked i hi, hsync i hi]
      cases s.pageBit i <;> simp [hi]
    · rw [hs.far i (by omega)]
      simp [hi]
  have hdisjoint : Disjoint (unlockedPages memMap s)
      ((Finset.range bitmapSize).filter fun i => s.pageBit i = true) := by
    rw [Finset.disjoint_left]
    intro i hi hi'
    rw [mem_unlockedPages] at hi
    rw [Finset.mem_filter, Finset.mem_range] at hi'
    rw [hsync i hi'.1, hi'.2] at hi
    exact Bool.noConfusion hi.2
  have hcard : initBytes env memMap =
      ((unlockedPages memMap s).card + s.lockedPages) * pageSize := by
    rw [initBytes, hset, Finset.card_union_of_disjoint hdisjoint]
    rfl
  have hle : (availablePages memMap).card * pageSize ≤ initBytes env memMap :=
    Nat.mul_le_mul_right _ (Finset.card_le_card Finset.subset_union_left)
  constructor
  · rw [pageSize] at hle
    omega
  · have hfunds := hs.funds
    have hfree := hs.free_lt
    rw [hs.inCount.counted.used, hbytes, hcard] at hfunds
    rw [hbytes, hcard] at hlt
    rw [Balanced]
    rw [Nat.add_mul] at hfunds hlt
    simp only [wrap64] at hfunds
    omega

/-- **The free memory is what it says.**  The memory map has as many bytes as the pages that
are available or locked after `pm_init`.  Then in every run whose operations stay among the
available pages, and for which the first bitmap suffices, `mem_info.free` is the size of the
available pages that are not locked, and a request stops for lack of memory exactly when
there is none. -/
theorem free_of_run (env : PmEnv) (fuel : ℕ) (hfuel : bitmapSize < fuel)
    (memMap : List MemSegment) (hbytes : (memMap.map (·.length)).sum = initBytes env memMap)
    (hlt : (memMap.map (·.length)).sum < 2 ^ 64)
    (s₀ : PmState) (hinit : pmInit env fuel memMap = .ok s₀) (hfree : 0 < s₀.freePages)
    (es : List PmEvent) (s : PmState)
    (hrun : GuardedRun.Run (pmStep env fuel)
      (fun s e => FirstBitmapSuffices env s e ∧ StaysAvailable memMap env s e) s₀ es s) :
    s.memInfo.free = (unlockedPages memMap s).card * pageSize ∧
      (1 < s.freePages → (pmRequestPage env fuel s =
        .error (.assertion "0 && \"unimplemented: \" \"swapping\"") ↔
          unlockedPages memMap s = ∅)) := by
  have hboot := pmInit_spec hfuel hinit hfree
  obtain ⟨hcard, hb⟩ := (pmInit_count hfuel hinit hfree).balanced hboot.synced hbytes hlt
  have hs : Accounted memMap s :=
    hrun.invariant (fun _ _ _ hs he hstep => hs.step hfuel hcard he.1 he.2 hstep)
      ⟨hboot.ready, hboot.synced, hb⟩
  obtain ⟨⟨c, hready⟩, hsync, hbalanced⟩ := hs
  refine ⟨hbalanced, fun hroom => ?_⟩
  rw [← Finset.card_eq_zero]
  have hiff : (unlockedPages memMap s).card = 0 ↔ s.memInfo.free < pageSize := by
    rw [hbalanced, pageSize]
    omega
  rw [hiff]
  constructor
  · intro hstop
    by_contra henough
    have hreq : RequestOk (pmRequestPage env fuel) := requestOk hfuel
    obtain ⟨a, s', hok⟩ := hreq.returns hready hroom (by omega)
    rw [hstop] at hok
    cases hok
  · intro hlack
    have hno : decide (pageSize ≤ s.memInfo.free) = false := by simpa using hlack
    obtain ⟨fuel, rfl⟩ := Nat.exists_eq_add_of_le' (Nat.one_le_of_lt hfuel)
    rw [pmRequestPage, hno, assert_false]
    rfl

/-- Where one available segment covers the first 128 MiB, the available pages are its own. -/
theorem availablePages_flat (reserved : List MemSegment)
    (hreserved : ∀ segment ∈ reserved, segment.type = .reserved) :
    availablePages (flatMap ++ reserved) = Finset.range bitmapSize := by
  ext i
  rw [availablePages, Finset.mem_filter, Finset.mem_range, Finset.mem_range, bitmapSize_eq]
  constructor
  · rintro ⟨-, h⟩
    obtain ⟨segment, hmem, htype, -, hlt⟩ := h 0 (by decide)
    rcases List.mem_append.mp hmem with hmem | hmem
    · rw [flatMap, List.mem_singleton] at hmem
      subst hmem
      replace hlt : i * 4096 + 0 < 0 + 2 ^ 27 := hlt
      omega
    · rw [hreserved segment hmem] at htype
      cases htype
  · intro hi
    refine ⟨by omega, fun k hk => ⟨_, List.mem_append_left _ List.mem_cons_self, rfl,
      Nat.zero_le _, ?_⟩⟩
    rw [pageSize] at hk ⊢
    show i * 4096 + k < 0 + 2 ^ 27
    omega

/-- The ledger on the small machine, after a request. -/
theorem free_of_run_flat : ∃ s₀ s, pmInit flatEnv 40000 flatMap = .ok s₀ ∧
    pmStep flatEnv 40000 s₀ .requestPage = .ok s ∧
    s.memInfo.free = (unlockedPages flatMap s).card * pageSize := by
  obtain ⟨s₀, -, hinit, hroom, -⟩ := flat_run
  obtain ⟨hfree, -⟩ := room_of_roomTest hroom
  have htest : ((pmInit flatEnv 40000 flatMap).toOption.any fun s₀ =>
      (pmStep flatEnv 40000 s₀ .requestPage).toOption.any fun s => s.handed != []) = true := by
    decide +kernel
  rw [hinit] at htest
  obtain ⟨s, hstep, -⟩ := Except.exists_of_any (x := pmStep flatEnv 40000 s₀ .requestPage) htest
  have hpages : availablePages flatMap = Finset.range bitmapSize :=
    availablePages_flat [] (by simp)
  have hbytes : initBytes flatEnv flatMap = 2 ^ 27 := by
    classical
    rw [initBytes, hpages, Finset.union_eq_left.mpr (Finset.filter_subset _ _), Finset.card_range,
      bitmapSize_eq]
    rfl
  have hstays : StaysAvailable flatMap flatEnv s₀ .requestPage := by
    intro page hpage _
    rw [hpages, Finset.mem_range]
    exact (PmState.mem_freeSet.mp hpage).1
  exact ⟨s₀, s, hinit, hstep, (free_of_run flatEnv 40000 (by rw [bitmapSize_eq]; decide) flatMap
    (hbytes.symm ▸ rfl) (by decide) s₀ hinit (by omega) [.requestPage] s
    (.cons ⟨hfree, hstays⟩ hstep (.nil s))).1⟩

/-- Reserved memory above the memory that is available. -/
def deviceMap : List MemSegment :=
  flatMap ++ [{ type := .reserved, addr := 2 ^ 27, length := 0x10000 }]

/-- No two segments overlap. -/
def NoOverlap (memMap : List MemSegment) : Prop :=
  memMap.Pairwise fun segment segment' => segment.addr + segment.length ≤ segment'.addr ∨
    segment'.addr + segment'.length ≤ segment.addr

/-- **Reserved memory is counted as free.** -/
theorem not_free_device :
    ¬ ∀ env fuel memMap s₀, bitmapSize < fuel → NoOverlap memMap →
      pmInit env fuel memMap = .ok s₀ → ∀ es s,
      GuardedRun.Run (pmStep env fuel) (fun _ _ => True) s₀ es s →
      s.memInfo.free = (unlockedPages memMap s).card * pageSize := by
  intro hall
  have htest : ((pmInit flatEnv 40000 deviceMap).toOption.any fun s₀ =>
      s₀.memInfo.free == 2 ^ 27 + 0xe000) = true := by
    decide +kernel
  obtain ⟨s₀, hinit, htest⟩ := Except.exists_of_any htest
  have hfree : s₀.memInfo.free = 2 ^ 27 + 0xe000 := by simpa using htest
  have hclaim := hall flatEnv 40000 deviceMap s₀ (by rw [bitmapSize_eq]; decide)
    (by simp [NoOverlap, deviceMap, flatMap]) hinit [] s₀ (.nil s₀)
  have hle : (unlockedPages deviceMap s₀).card ≤ 32768 := by
    have hpages : availablePages deviceMap = Finset.range bitmapSize :=
      availablePages_flat _ (by simp)
    calc (unlockedPages deviceMap s₀).card ≤ (availablePages deviceMap).card :=
          Finset.card_le_card (Finset.filter_subset _ _)
      _ = 32768 := by rw [hpages, Finset.card_range, bitmapSize_eq]
  rw [hfree, pageSize] at hclaim
  omega

end Mimik.Pm
