/-
# What the physical memory manager hands out

Two promises, each over all runs that follow `pm_init`: only usable memory is handed out,
and no memory that the boot still uses.  Both hold when the pages in question were locked
by `pm_init`, which looks at the reserved segments of the memory map and at the kernel
image, and at nothing else.
-/
import Mimik.PmBoot

namespace Mimik.Pm

section Runs

attribute [local irreducible] bitmapSize wrap64 sub64

variable {env : PmEnv} {fuel : ℕ}

/-! ## Pages that are never handed out -/

/-- The pages that one operation on every address takes from the first bitmap: `own` for
a page of the first 128 MiB, and the cost of a bitmap for another page. -/
def PmEnv.cost (env : PmEnv) (own : ℕ) : ℕ → List ℕ → ℕ
  | _, [] => 0
  | calls, a :: as =>
    if toBitmap a = 0 then own + env.cost own calls as
    else env.bitmapCost calls + env.cost own (calls + 1) as

/-- The first bitmap has `num` free pages in a row. -/
def HasRun (s : PmState) (num : ℕ) : Prop :=
  ∃ i, i + num ≤ bitmapSize ∧ ∀ k < num, s.pageBit (i + k) = false

/-- The first bitmap suffices for an operation: it is not used up, and a search for pages
in a row ends inside it. -/
def FirstBitmapSuffices (env : PmEnv) (s : PmState) : PmEvent → Prop
  | .tryLockPage paddr => env.cost 1 s.allocCalls [paddr] < s.freePages
  | .tryLockPages paddr bytes => env.cost 1 s.allocCalls (rangeAddrs paddr bytes) < s.freePages
  | .tryReleasePage paddr => env.cost 0 s.allocCalls [paddr] < s.freePages
  | .tryReleasePages paddr bytes =>
    env.cost 0 s.allocCalls (rangeAddrs paddr bytes) < s.freePages
  | .requestPage => 1 < s.freePages
  | .requestPages num => HasRun s (max num 1) ∧ max num 1 < s.freePages
  | .requestBytes bytes => HasRun s (max (pageAlignUp bytes / pageSize) 1) ∧
      max (pageAlignUp bytes / pageSize) 1 < s.freePages

/-- The addresses that an operation may release. -/
def releasedAddrs : PmEvent → List ℕ
  | .tryReleasePage paddr => [paddr]
  | .tryReleasePages paddr bytes => rangeAddrs paddr bytes
  | _ => []

/-- The pages of `kept` are locked, and none of them was handed out. -/
structure Keeps (kept : Set ℕ) (s : PmState) : Prop where
  ready : ∃ c, Ready s c
  locked : ∀ i ∈ kept, s.pageBit i = true
  handed : ∀ a ∈ s.handed, ∃ i < bitmapSize, a = i * pageSize ∧ i ∉ kept

variable {kept : Set ℕ}

/-- Taking free pages takes none of the kept ones. -/
theorem Keeps.of_took {s s' : PmState} {n : ℕ} (hs : Keeps kept s) (h : Took s s' n) :
    Keeps kept s' where
  ready := h.ready
  locked i hi := h.grow i (hs.locked i hi)
  handed a ha := by
    rcases h.handed a ha with ha | ⟨i, hi, hfree, rfl⟩
    · exact hs.handed a ha
    · refine ⟨i, hi, rfl, fun hmem => ?_⟩
      rw [hs.locked i hmem] at hfree
      exact absurd hfree (by simp)

/-- What one operation on a page does to the pages kept and to the room left. -/
structure PageStep (env : PmEnv) (kept : Set ℕ) (own : ℕ) (s s' : PmState) (paddr : ℕ) :
    Prop where
  keeps : Keeps kept s'
  room : s.freePages ≤ s'.freePages + env.cost own s.allocCalls [paddr]
  allocCalls : s'.allocCalls = s.allocCalls + if toBitmap paddr = 0 then 0 else 1

/-- **A lock keeps the kept pages.** -/
theorem Keeps.lock (hfuel : bitmapSize < fuel) {s s' : PmState} (hs : Keeps kept s) {paddr : ℕ}
    {r : Bool} (hroom : env.cost 1 s.allocCalls [paddr] < s.freePages)
    (hok : pmTryLockPage env fuel s paddr = .ok (r, s')) : PageStep env kept 1 s s' paddr := by
  obtain ⟨c, hready⟩ := hs.ready
  by_cases hnear : toBitmap paddr = 0
  · simp only [PmEnv.cost, if_pos hnear] at hroom
    have hquiet : ∃ n ≤ 1, Took s s' n ∧ NoNewBitmap s s' := by
      cases hbit : s.pageBit (pageOf paddr) with
      | true =>
        obtain ⟨s₁, hok₁, htook, hquiet, -⟩ := tryLockPage_locked env (pmRequestPage env fuel)
          fuel hready hnear hbit
        rw [pmTryLockPage, hok₁] at hok
        cases hok
        exact ⟨0, by omega, htook, hquiet⟩
      | false =>
        obtain ⟨s₁, hok₁, htook, hquiet, -⟩ := tryLockPage_first env (pmRequestPage env fuel)
          hready.toShape (fun i hi _ => hready.below i hi) hfuel.le hnear hbit (by omega)
        rw [pmTryLockPage, hok₁] at hok
        cases hok
        exact ⟨1, le_rfl, htook, hquiet⟩
    obtain ⟨n, hn, htook, hquiet⟩ := hquiet
    have hpages := htook.pages
    refine ⟨hs.of_took htook, ?_, ?_⟩
    · simp only [PmEnv.cost, if_pos hnear]
      omega
    · rw [if_pos hnear, hquiet.allocCalls, Nat.add_zero]
  · simp only [PmEnv.cost, if_neg hnear, Nat.add_zero] at hroom
    obtain ⟨-, s₁, htook, hcalls, rfl⟩ :=
      (tryLockPage_later (requestOk hfuel) fuel hready hnear hroom).2 r s' hok
    have hkeeps := hs.of_took htook
    have hpages := htook.pages
    obtain ⟨c₁, hready₁⟩ := htook.ready
    refine ⟨⟨⟨c₁, ⟨hready₁.toShape.congr rfl rfl rfl, hready₁.lt, hready₁.free,
      hready₁.below⟩⟩, hkeeps.locked, hkeeps.handed⟩, ?_, ?_⟩
    · simp only [PmEnv.cost, if_neg hnear]
      exact hpages.ge
    · rw [if_neg hnear]
      exact hcalls

/-- **A release keeps the kept pages**, when it concerns none of them. -/
theorem Keeps.release (hfuel : bitmapSize < fuel) {s s' : PmState} (hs : Keeps kept s)
    {paddr : ℕ} {r : Bool} (hother : pageOf paddr ∉ kept)
    (hroom : env.cost 0 s.allocCalls [paddr] < s.freePages)
    (hok : pmTryReleasePage env fuel s paddr = .ok (r, s')) :
    PageStep env kept 0 s s' paddr := by
  obtain ⟨c, hready⟩ := hs.ready
  by_cases hnear : toBitmap paddr = 0
  · cases hbit : s.pageBit (pageOf paddr) with
    | false =>
      obtain ⟨s₁, hok₁, htook, hquiet, -⟩ := tryReleasePage_free env (pmRequestPage env fuel)
        hready hnear hbit
      rw [pmTryReleasePage, hok₁] at hok
      cases hok
      refine ⟨hs.of_took htook, ?_, ?_⟩
      · simp only [PmEnv.cost, if_pos hnear]
        exact htook.pages.ge
      · rw [if_pos hnear, hquiet.allocCalls, Nat.add_zero]
    | true =>
      obtain ⟨s₁, hok₁, hready₁, hbits, -, hhanded, hquiet⟩ := tryReleasePage_first env
        (pmRequestPage env fuel) hready hnear hbit
      rw [pmTryReleasePage, hok₁] at hok
      cases hok
      refine ⟨⟨hready₁, fun i hi => ?_, fun a ha => hs.handed a (hhanded ▸ ha)⟩, ?_, ?_⟩
      · rw [hbits, if_neg (by rintro rfl; exact hother hi)]
        exact hs.locked i hi
      · refine le_trans (freePages_le fun i hi => ?_) (Nat.le_add_right _ _)
        rw [hbits] at hi
        split at hi
        next => exact absurd hi (by simp)
        next => exact hi
      · rw [if_pos hnear, hquiet.allocCalls, Nat.add_zero]
  · simp only [PmEnv.cost, if_neg hnear, Nat.add_zero] at hroom
    obtain ⟨-, htook, hcalls⟩ :=
      (tryReleasePage_later (requestOk hfuel) hready hnear hroom).2 r s' hok
    refine ⟨hs.of_took htook, ?_, ?_⟩
    · simp only [PmEnv.cost, if_neg hnear]
      exact htook.pages.ge
    · rw [if_neg hnear]
      exact hcalls

/-- The first of the addresses costs its part. -/
theorem cost_cons (env : PmEnv) (own calls a : ℕ) (as : List ℕ) :
    env.cost own calls (a :: as) =
      env.cost own calls [a] + env.cost own (calls + if toBitmap a = 0 then 0 else 1) as := by
  simp only [PmEnv.cost]
  split <;> simp only [Nat.add_zero]

/-- **A loop over pages keeps the kept pages**, when its operation does. -/
theorem Keeps.pageLoop {op : PmState → ℕ → Except Fault (Bool × PmState)}
    {join : Bool → Bool → Bool} {own : ℕ} (allowed : ℕ → Prop)
    (hop : ∀ s s' paddr r, Keeps kept s → allowed paddr →
      env.cost own s.allocCalls [paddr] < s.freePages → op s paddr = .ok (r, s') →
      PageStep env kept own s s' paddr)
    (pages : ℕ) (s s' : PmState) (paddr : ℕ) (acc r : Bool) (hs : Keeps kept s)
    (hall : ∀ a ∈ addrs pages paddr, allowed a)
    (hroom : env.cost own s.allocCalls (addrs pages paddr) < s.freePages)
    (hok : Mimik.Pm.pageLoop op join pages s paddr acc = .ok (r, s')) : Keeps kept s' := by
  refine (pageLoop_rule (fun as s => Keeps kept s ∧ (∀ a ∈ as, allowed a) ∧
    env.cost own s.allocCalls as < s.freePages) ?_ pages ⟨hs, hall, hroom⟩ hok).1
  rintro a as s s' r ⟨hs, hall, hroom⟩ hfst
  rw [cost_cons] at hroom
  have hstep := hop s s' a r hs (hall a List.mem_cons_self) (by omega) hfst
  have hleft := hstep.room
  refine ⟨hstep.keeps, fun a ha => hall a (List.mem_cons_of_mem _ ha), ?_⟩
  rw [hstep.allocCalls]
  omega

/-! ## Pages in a row -/

/-- A row of `num` free pages of the first bitmap starts at `i`. -/
def RowAt (s : PmState) (num i : ℕ) : Prop :=
  i + num ≤ bitmapSize ∧ ∀ k < num, s.pageBit (i + k) = false

/-- What the search ends with, from `startIndex` on: the pages from `start` on are free, as many as
were asked for or up to the end of the bitmap; the page before is not; and no row in the bitmap
starts below. -/
structure SearchEnd (s : PmState) (b : MemBitmap) (num startIndex start : ℕ) : Prop where
  ge : startIndex ≤ start
  le : start ≤ bitmapSize
  free : ∀ i, start ≤ i → i < start + num → i < bitmapSize → bitAt s.maps b.super.map i = false
  before : start = startIndex ∨ bitAt s.maps b.super.map (start - 1) = true
  lowest : ∀ i, startIndex ≤ i → i + num ≤ bitmapSize →
    (∀ k < num, bitAt s.maps b.super.map (i + k) = false) → start ≤ i

/-- **The search of `pm_request_pages`** goes once over the bitmap. -/
theorem searchPages_end {s : PmState} {b : MemBitmap} {num : ℕ}
    (hsize : b.super.size = bitmapSize) :
    ∀ (rounds index startIndex found : ℕ), index = startIndex + found →
      (∀ k < found, bitAt s.maps b.super.map (startIndex + k) = false) → found ≤ num →
      index ≤ bitmapSize → bitmapSize - index < rounds →
      ∃ start, searchPages s num rounds false b index startIndex found = .ok (b, start) ∧
        SearchEnd s b num startIndex start := by
  intro rounds
  induction rounds with
  | zero => intro _ _ _ _ _ _ _ hlt; omega
  | succ rounds ih =>
    intro index startIndex found hindex hrow hle hsizeLe hlt
    rw [searchPages]
    by_cases hgo : found < num ∧ index < b.super.size
    · have hget := bitmapGet_eq (m := s.maps) hgo.2
      rw [if_pos (.inr hgo)]
      simp only [hget]
      rw [hsize] at hgo
      cases hbit : bitAt s.maps b.super.map index with
      | false =>
        simp only [Bool.false_eq_true, if_false, isError, lt_irrefl, decide_false, if_true]
        refine ih (index + 1) startIndex (found + 1) (by omega) (fun k hk => ?_) hgo.1
          (by omega) (by omega)
        rcases Nat.lt_succ_iff_lt_or_eq.mp hk with hk | rfl
        · exact hrow k hk
        · exact hindex ▸ hbit
      | true =>
        simp only [if_true, isError, Int.reduceLT, decide_false, Bool.false_eq_true, if_false,
          if_neg one_ne_zero]
        obtain ⟨start, hsearch, hend⟩ := ih (index + 1) (index + 1) 0 rfl (by simp)
          (Nat.zero_le _) (by omega) (by omega)
        have hge := hend.ge
        refine ⟨start, hsearch, by omega, hend.le, hend.free, ?_, fun i hi hfit hfree => ?_⟩
        · rcases hend.before with hstart | hbefore
          · exact .inr (by rw [hstart, Nat.add_sub_cancel, hbit])
          · exact .inr hbefore
        · refine hend.lowest i ?_ hfit hfree
          -- a row that starts at or below the locked page would have to end below it
          by_contra hbelow
          have hin := hfree (index - i) (by omega)
          rw [Nat.add_sub_cancel' (by omega), hbit] at hin
          cases hin
    · rw [if_neg fun h => h.elim Bool.false_ne_true hgo]
      rw [hsize] at hgo
      refine ⟨startIndex, rfl, le_rfl, by omega, fun i hi hlt hisize => ?_, .inl rfl,
        fun i hi _ _ => hi⟩
      have hk := hrow (i - startIndex) (by omega)
      rwa [Nat.add_sub_cancel' hi] at hk

/-- In the first bitmap it ends at the lowest row, when there is one. -/
theorem SearchEnd.row {s : PmState} {b : MemBitmap} {num startIndex start : ℕ}
    (h : SearchEnd s b num startIndex start) (hmap : b.super.map = .pagesBitmap0)
    (hex : ∃ i, startIndex ≤ i ∧ RowAt s num i) :
    RowAt s num start ∧ ∀ i, startIndex ≤ i → RowAt s num i → start ≤ i := by
  have hlow : ∀ i, startIndex ≤ i → RowAt s num i → start ≤ i := fun i hi hrow =>
    h.lowest i hi hrow.1 fun k hk => by rw [hmap]; exact hrow.2 k hk
  obtain ⟨i, hi, hrow⟩ := hex
  have hle := hlow i hi hrow
  have hfit := hrow.1
  refine ⟨⟨by omega, fun k hk => ?_⟩, hlow⟩
  have hfree := h.free (start + k) (by omega) (by omega) (by omega)
  rwa [hmap] at hfree

/-- A row of pages in the first 128 MiB, as `pm_try_lock_pages` passes it. -/
theorem cost_row (env : PmEnv) (own : ℕ) : ∀ (num start calls : ℕ), start + num ≤ bitmapSize →
    env.cost own calls (addrs num (start * pageSize)) = num * own := by
  intro num
  induction num with
  | zero => intro start calls _; rw [addrs, PmEnv.cost, Nat.zero_mul]
  | succ num ih =>
    intro start calls hfit
    have hnear : toBitmap (start * pageSize) = 0 := by
      rw [toBitmap_eq_zero_iff, pageOf_mul]
      omega
    have hnext : wrap64 (start * pageSize + pageSize) = (start + 1) * pageSize := by
      rw [Nat.add_mul, Nat.one_mul]
      rw [bitmapSize_eq] at hfit
      unfold pageSize
      exact wrap64_of_lt (by omega)
    rw [addrs, PmEnv.cost, if_pos hnear, hnext, ih (start + 1) calls (by omega), Nat.add_mul]
    omega

/-- The addresses of a row of pages of the first bitmap. -/
theorem addrs_row {start num : ℕ} (hfit : start + num ≤ bitmapSize) :
    addrs num (start * pageSize) = (List.range' start num).map (· * pageSize) := by
  induction num generalizing start with
  | zero => rfl
  | succ num ih =>
    have hnext : wrap64 (start * pageSize + pageSize) = (start + 1) * pageSize := by
      rw [Nat.add_mul, Nat.one_mul]
      rw [bitmapSize_eq] at hfit
      unfold pageSize
      exact wrap64_of_lt (by omega)
    rw [addrs, hnext, ih (by omega), List.range'_succ, List.map_cons]

theorem mem_addrs_row {start num a : ℕ} (hfit : start + num ≤ bitmapSize)
    (ha : a ∈ addrs num (start * pageSize)) : ∃ k < num, a = (start + k) * pageSize := by
  rw [addrs_row hfit] at ha
  obtain ⟨i, hi, rfl⟩ := List.mem_map.mp ha
  rw [List.mem_range'_1] at hi
  exact ⟨i - start, by omega, by rw [Nat.add_sub_cancel' hi.1]⟩

/-- **`pm_request_pages`** locks the lowest row of free pages that is long enough. -/
theorem requestPages_row (hfuel : bitmapSize < fuel) {s s' : PmState} {c : ℕ} (hready : Ready s c)
    {num a : ℕ} (hrow : HasRun s (max num 1))
    (hok : pmRequestPages env fuel s num = .ok (a, s')) :
    ∃ start r s₁, RowAt s (max num 1) start ∧ (∀ i, RowAt s (max num 1) i → start ≤ i) ∧
      Mimik.Pm.pageLoop (pmTryLockPage env fuel) (· && ·) (max num 1) s (start * pageSize) true =
        .ok (r, s₁) ∧
      s' = { s₁ with
        handed := (List.range (max num 1)).map
          (fun k => wrap64 (start * pageSize + k * pageSize)) ++ s₁.handed } := by
  obtain ⟨_, -, hok⟩ := Except.bind_eq_ok_iff.mp hok
  obtain ⟨b, hderef, hok⟩ := Except.bind_eq_ok_iff.mp hok
  obtain ⟨⟨b', start⟩, hsearch, hok⟩ := Except.bind_eq_ok_iff.mp hok
  obtain ⟨⟨locked, s₁⟩, hlock, hok⟩ := Except.bind_eq_ok_iff.mp hok
  obtain ⟨_, -, hret⟩ := Except.bind_eq_ok_iff.mp hok
  cases hret
  obtain ⟨b₀, hderef₀, hb₀⟩ := hready.deref
  rw [hready.first, hderef₀] at hderef
  cases hderef
  rw [hb₀.firstFree] at hsearch
  -- a row of free pages starts at the lowest free page or behind it
  have hbehind : ∀ i, RowAt s (max num 1) i → c ≤ i := by
    intro i hi
    by_contra hlt
    have := hi.2 0 (by omega)
    rw [Nat.add_zero, hready.below i (by omega)] at this
    exact absurd this (by simp)
  obtain ⟨i, hfit, hclear⟩ := hrow
  have hstart : b' = b ∧ RowAt s (max num 1) start ∧
      ∀ i, RowAt s (max num 1) i → start ≤ i := by
    rcases Nat.eq_zero_or_pos num with rfl | hpos
    · obtain ⟨fuel, rfl⟩ := Nat.exists_eq_add_of_le' (Nat.one_le_of_lt hfuel)
      simp only [searchPages, Bool.false_eq_true, Nat.not_lt_zero, false_and, or_self, if_false,
        Except.ok.injEq, Prod.mk.injEq] at hsearch
      rw [← hsearch.1, ← hsearch.2]
      refine ⟨rfl, ⟨hready.lt, fun k hk => ?_⟩, hbehind⟩
      obtain rfl : k = 0 := by omega
      exact hready.free
    · rw [Nat.max_eq_left hpos] at hfit hclear hbehind ⊢
      obtain ⟨start', hsearch', hend⟩ := searchPages_end hb₀.size fuel c c 0 rfl
        (by simp) (Nat.zero_le _) hready.lt.le (by omega)
      rw [hsearch] at hsearch'
      cases hsearch'
      obtain ⟨hrow, hlow⟩ := hend.row hb₀.map ⟨i, hbehind i ⟨hfit, hclear⟩, hfit, hclear⟩
      exact ⟨rfl, hrow, fun j hj => hlow j (hbehind j hj) hj⟩
  obtain ⟨hb', hrow, hlow⟩ := hstart
  have hfit' := hrow.1
  have hpaddr : toPaddr b'.index start = start * pageSize := by
    rw [hb', hb₀.index]
    exact toPaddr_zero (by omega)
  rw [hpaddr] at hlock ⊢
  have hpages : (if bytesOf num = 0 then 1 else pagesOf (bytesOf num)) = max num 1 := by
    have hsmall : num ≤ 32768 := by
      rw [bitmapSize_eq] at hfit
      omega
    have hbytes : bytesOf num = num * 4096 := wrap64_of_lt (by unfold pageSize; omega)
    rw [hbytes, pagesOf, pageSize]
    split
    next => omega
    next =>
      rw [wrap64_of_lt (by omega)]
      omega
  obtain ⟨r, hloop⟩ := pageRange_eq_loop hlock
  rw [hpages] at hloop
  exact ⟨start, r, s₁, hrow, hlow, hloop, rfl⟩

/-- **`pm_request_pages`** hands out pages that were free, when there are enough of them
in a row. -/
theorem Keeps.requestPages (hfuel : bitmapSize < fuel) {s s' : PmState} (hs : Keeps kept s)
    {num a : ℕ} (hrow : HasRun s (max num 1)) (hroom : max num 1 < s.freePages)
    (hok : pmRequestPages env fuel s num = .ok (a, s')) : Keeps kept s' := by
  obtain ⟨c, hready⟩ := hs.ready
  obtain ⟨start, r, s₁, ⟨hfit, hclear⟩, -, hloop, rfl⟩ := requestPages_row hfuel hready hrow hok
  have hcost := cost_row env 1 (max num 1) start s.allocCalls hfit
  have hkeeps : Keeps kept s₁ :=
    hs.pageLoop (fun _ => True)
      (fun s s' paddr r hs _ hroom hok => hs.lock hfuel hroom hok) _ _ _ _ _ _ (by simp)
      (by rw [hcost]; omega) hloop
  refine ⟨?_, hkeeps.locked, fun a ha => ?_⟩
  · obtain ⟨c₁, hready₁⟩ := hkeeps.ready
    exact ⟨c₁, ⟨hready₁.toShape.congr rfl rfl rfl, hready₁.lt, hready₁.free, hready₁.below⟩⟩
  · rcases List.mem_append.mp ha with ha | ha
    · obtain ⟨k, hk, rfl⟩ := List.mem_map.mp ha
      rw [List.mem_range] at hk
      refine ⟨start + k, by omega, ?_, fun hmem => ?_⟩
      · rw [← Nat.add_mul]
        rw [bitmapSize_eq] at hfit
        unfold pageSize
        exact wrap64_of_lt (by omega)
      · have := hs.locked _ hmem
        rw [hclear k hk] at this
        exact absurd this (by simp)
    · exact hkeeps.handed a ha

/-- **One operation keeps the kept pages**, when it releases none of them and the first
bitmap suffices for it. -/
theorem Keeps.step (hfuel : bitmapSize < fuel) {s s' : PmState} {e : PmEvent}
    (hs : Keeps kept s) (hroom : FirstBitmapSuffices env s e)
    (hother : ∀ a ∈ releasedAddrs e, pageOf a ∉ kept) (hstep : pmStep env fuel s e = .ok s') :
    Keeps kept s' := by
  have hresult : ∀ {α : Type} {x : Except Fault (α × PmState)}, Prod.snd <$> x = .ok s' →
      ∃ r, x = .ok (r, s') := by
    intro α x hx
    cases x with
    | error f => cases hx
    | ok p => cases hx; exact ⟨p.1, rfl⟩
  cases e with
  | tryLockPage paddr =>
    obtain ⟨r, hok⟩ := hresult hstep
    exact (hs.lock hfuel hroom hok).keeps
  | tryLockPages paddr bytes =>
    obtain ⟨r, hok⟩ := hresult hstep
    obtain ⟨_, hloop⟩ := pageRange_eq_loop hok
    exact hs.pageLoop (fun _ => True)
      (fun s s' paddr r hs _ hroom hok => hs.lock hfuel hroom hok) _ _ _ _ _ _ (by simp) hroom
      hloop
  | tryReleasePage paddr =>
    obtain ⟨r, hok⟩ := hresult hstep
    exact (hs.release hfuel (hother paddr List.mem_cons_self) hroom hok).keeps
  | tryReleasePages paddr bytes =>
    obtain ⟨r, hok⟩ := hresult hstep
    obtain ⟨_, hloop⟩ := pageRange_eq_loop hok
    exact hs.pageLoop (fun a => pageOf a ∉ kept)
      (fun s s' paddr r hs hother hroom hok => hs.release hfuel hother hroom hok) _ _ _ _ _ _
      hother hroom hloop
  | requestPage =>
    obtain ⟨r, hok⟩ := hresult hstep
    obtain ⟨c, hready⟩ := hs.ready
    exact hs.of_took ((requestOk hfuel).took hready hroom hok).1
  | requestPages num =>
    obtain ⟨r, hok⟩ := hresult hstep
    exact hs.requestPages hfuel hroom.1 hroom.2 hok
  | requestBytes bytes =>
    obtain ⟨r, hok⟩ := hresult hstep
    exact hs.requestPages hfuel hroom.1 hroom.2 hok

/-- After `pm_init` the pages it locks are kept. -/
theorem Booted.keeps {s : PmState} {boot : List ℕ} (hs : Booted s boot)
    (hkept : ∀ i ∈ kept, ∃ a ∈ boot, pageOf a = i) : Keeps kept s where
  ready := hs.ready
  locked i hi := by
    obtain ⟨a, ha, rfl⟩ := hkept i hi
    exact hs.locked a ha
  handed a ha := by
    obtain ⟨i, hi, rfl, hnot⟩ := hs.handed a ha
    refine ⟨i, hi, rfl, fun hmem => ?_⟩
    obtain ⟨b, hb, hpage⟩ := hkept i hmem
    exact hnot b hb hpage

/-! ## Usable memory -/

/-- The page at `a` lies wholly in available segments and meets no reserved one. -/
def Usable (memMap : List MemSegment) (a : ℕ) : Prop :=
  ∀ x, a ≤ x → x < a + pageSize →
    (∃ segment ∈ memMap, segment.type = .available ∧
      segment.addr ≤ x ∧ x < segment.addr + segment.length) ∧
    ∀ segment ∈ memMap, segment.type = .reserved →
      ¬ (segment.addr ≤ x ∧ x < segment.addr + segment.length)

/-- Clients release only pages that they were given. -/
def ReleasesOwn (s : PmState) (e : PmEvent) : Prop :=
  ∀ a ∈ releasedAddrs e, ∃ b ∈ s.handed, pageOf b = pageOf a

/-- **Only usable memory is handed out**, when every page below 128 MiB that is not
usable is one that `pm_init` locks.  This is about all runs in which the first bitmap
suffices and clients release what they were given. -/
theorem handed_usable (env : PmEnv) (fuel : ℕ) (hfuel : bitmapSize < fuel)
    (memMap : List MemSegment)
    (hmap : ∀ i < bitmapSize, ¬ Usable memMap (i * pageSize) →
      ∃ a ∈ bootAddrs env memMap, pageOf a = i)
    (s₀ : PmState) (hinit : pmInit env fuel memMap = .ok s₀) (hfree : 0 < s₀.freePages)
    (es : List PmEvent) (s : PmState)
    (hrun : GuardedRun.Run (pmStep env fuel)
      (fun s e => FirstBitmapSuffices env s e ∧ ReleasesOwn s e) s₀ es s) :
    ∀ a ∈ s.handed, Usable memMap a := by
  let kept : Set ℕ := {i | i < bitmapSize ∧ ¬ Usable memMap (i * pageSize)}
  have hstart : Keeps kept s₀ :=
    (pmInit_spec hfuel hinit hfree).keeps fun i hi => hmap i hi.1 hi.2
  have hs : Keeps kept s := by
    refine hrun.invariant (fun s e s' hs he hstep => ?_) hstart
    refine hs.step hfuel he.1 (fun a ha hmem => ?_) hstep
    obtain ⟨b, hb, hpage⟩ := he.2 a ha
    obtain ⟨i, hi, rfl, hnot⟩ := hs.handed b hb
    rw [pageOf_mul] at hpage
    exact hnot (hpage ▸ hmem)
  intro a ha
  obtain ⟨i, hi, rfl, hnot⟩ := hs.handed a ha
  by_contra hunusable
  exact hnot ⟨hi, hunusable⟩

/-! ## Memory of the boot -/

/-- The page at `a` meets a range of addresses. -/
def Meets (a : ℕ) (range : ℕ × ℕ) : Prop := a < range.2 ∧ range.1 < a + pageSize

/-- No page of the boot is released. -/
def ReleasesNoBoot (ranges : List (ℕ × ℕ)) (e : PmEvent) : Prop :=
  ∀ a ∈ releasedAddrs e, ∀ range ∈ ranges, ¬ Meets (pageOf a * pageSize) range

/-- **No memory of the boot is handed out**, when every page below 128 MiB that meets it
is one that `pm_init` locks.  This is about all runs in which the first bitmap suffices
and no page of the boot is released. -/
theorem handed_not_boot (env : PmEnv) (fuel : ℕ) (hfuel : bitmapSize < fuel)
    (memMap : List MemSegment) (bootinfoDataStart bootinfoDataEnd : ℕ)
    (hboot : ∀ i < bitmapSize,
      (∃ range ∈ bootRanges env bootinfoDataStart bootinfoDataEnd, Meets (i * pageSize) range) →
      ∃ a ∈ bootAddrs env memMap, pageOf a = i)
    (s₀ : PmState)
    (hinit : kernelMain env fuel memMap bootinfoDataStart bootinfoDataEnd = .ok s₀)
    (hfree : 0 < s₀.freePages) (es : List PmEvent) (s : PmState)
    (hrun : GuardedRun.Run (pmStep env fuel)
      (fun s e => FirstBitmapSuffices env s e ∧
        ReleasesNoBoot (bootRanges env bootinfoDataStart bootinfoDataEnd) e) s₀ es s) :
    ∀ a ∈ s.handed, ∀ range ∈ bootRanges env bootinfoDataStart bootinfoDataEnd,
      ¬ Meets a range := by
  let ranges := bootRanges env bootinfoDataStart bootinfoDataEnd
  let kept : Set ℕ := {i | i < bitmapSize ∧ ∃ range ∈ ranges, Meets (i * pageSize) range}
  have hstart : Keeps kept s₀ :=
    (pmInit_spec hfuel hinit hfree).keeps fun i hi => hboot i hi.1 hi.2
  have hs : Keeps kept s := by
    refine hrun.invariant (fun s e s' hs he hstep => ?_) hstart
    refine hs.step hfuel he.1 (fun a ha hmem => ?_) hstep
    obtain ⟨range, hrange, hmeets⟩ := hmem.2
    exact he.2 a ha range hrange hmeets
  intro a ha range hrange hmeets
  obtain ⟨i, hi, rfl, hnot⟩ := hs.handed a ha
  exact hnot ⟨hi, range, hrange, hmeets⟩

/-- Two free pages that are known by number. -/
theorem one_lt_freePages {s : PmState} {i j : ℕ} (hij : i ≠ j) (hi : i < bitmapSize)
    (hj : j < bitmapSize) (hbi : s.pageBit i = false) (hbj : s.pageBit j = false) :
    1 < s.freePages :=
  Finset.one_lt_card.mpr
    ⟨i, PmState.mem_freeSet.mpr ⟨hi, hbi⟩, j, PmState.mem_freeSet.mpr ⟨hj, hbj⟩, hij⟩

end Runs

/-! ## Runs on a small machine -/

/-- A kernel of one page at the start of memory, and a heap that requests nothing. -/
def flatEnv : PmEnv where
  layoutPaddrStart := 0
  layoutPaddrEnd := 0x1000
  heapPages _ := 0
  headIndex := 0
  headUnset := 0

/-- All memory below 128 MiB is available. -/
def flatMap : List MemSegment := [{ type := .available, addr := 0, length := 2 ^ 27 }]

/-- Enough is free to make a bitmap. -/
def roomTest (s : PmState) : Bool :=
  s.nextBitmapPage != 0 && !s.pageBit 5 && !s.pageBit 6 && decide (pageSize ≤ s.memInfo.free)

/-- What `roomTest` tests. -/
theorem room_of_roomTest {s : PmState} (htest : roomTest s = true) :
    1 < s.freePages ∧ s.nextBitmapPage ≠ 0 ∧ pageSize ≤ s.memInfo.free := by
  simp only [roomTest, Bool.and_eq_true, bne_iff_ne, Bool.not_eq_true', decide_eq_true_eq] at htest
  obtain ⟨⟨⟨hnext, h5⟩, h6⟩, hmem⟩ := htest
  have hsize : 6 < bitmapSize := by decide
  exact ⟨one_lt_freePages (by omega) (by omega) hsize h5 h6, hnext, hmem⟩

/-- `pm_init` on the small machine, and a lock of the page at 128 MiB. -/
theorem flat_run : ∃ s₀ s₁, pmInit flatEnv 40000 flatMap = .ok s₀ ∧ roomTest s₀ = true ∧
    pmStep flatEnv 40000 s₀ (.tryLockPage (2 ^ 27)) = .ok s₁ ∧ roomTest s₁ = true ∧
    s₁.isLocked (pageOf (2 ^ 27)) = true := by
  have htest : ((pmInit flatEnv 40000 flatMap).toOption.any fun s₀ => roomTest s₀ &&
      (pmStep flatEnv 40000 s₀ (.tryLockPage (2 ^ 27))).toOption.any fun s₁ =>
        roomTest s₁ && s₁.isLocked (pageOf (2 ^ 27))) = true := by
    decide +kernel
  obtain ⟨s₀, hinit, htest⟩ := Except.exists_of_any htest
  rw [Bool.and_eq_true] at htest
  obtain ⟨s₁, hstep, htest'⟩ := Except.exists_of_any htest.2
  rw [Bool.and_eq_true] at htest'
  exact ⟨s₀, s₁, hinit, htest.1, hstep, htest'⟩

/-- After one request on the small machine, only usable memory was handed out. -/
theorem handed_usable_flat : ∃ s : PmState, s.handed ≠ [] ∧ ∀ a ∈ s.handed, Usable flatMap a := by
  obtain ⟨s₀, -, hinit, hroom, -⟩ := flat_run
  obtain ⟨hfree, -⟩ := room_of_roomTest hroom
  have htest : ((pmInit flatEnv 40000 flatMap).toOption.any fun s₀ =>
      (pmStep flatEnv 40000 s₀ .requestPage).toOption.any fun s => s.handed != []) = true := by
    decide +kernel
  rw [hinit] at htest
  obtain ⟨s, hstep, hhanded⟩ := Except.exists_of_any (x := pmStep flatEnv 40000 s₀ .requestPage)
    htest
  refine ⟨s, by simpa using hhanded, ?_⟩
  refine handed_usable flatEnv 40000 (by decide) flatMap (fun i hi hunusable => ?_) s₀ hinit
    (by omega) [.requestPage] s (.cons ⟨hfree, by simp [ReleasesOwn, releasedAddrs]⟩ hstep (.nil s))
  refine absurd (fun x _ hx => ?_) hunusable
  have hsize : bitmapSize = 32768 := by decide
  have hx' : x < 2 ^ 27 := by
    unfold pageSize at hx
    omega
  simpa [flatMap] using hx'

/-- A memory map with a hole: nothing is known about the first 1 MiB. -/
def holeMap : List MemSegment := [{ type := .available, addr := 0x100000, length := 0x100000 }]

/-- **A page of the hole is handed out.** -/
theorem not_handed_usable_hole :
    ¬ ∀ env fuel memMap s₀, bitmapSize < fuel → pmInit env fuel memMap = .ok s₀ →
      ∀ es s, GuardedRun.Run (pmStep env fuel) ReleasesOwn s₀ es s →
      ∀ a ∈ s.handed, Usable memMap a := by
  intro hall
  have htest : ((pmInit flatEnv 40000 holeMap).toOption.any fun s₀ =>
      (pmStep flatEnv 40000 s₀ .requestPage).toOption.any fun s =>
        s.handed.contains 0x2000) = true := by
    decide +kernel
  obtain ⟨s₀, hinit, htest⟩ := Except.exists_of_any htest
  obtain ⟨s, hstep, hhanded⟩ := Except.exists_of_any htest
  have husable := hall flatEnv 40000 holeMap s₀ (by decide) hinit [.requestPage] s
    (.cons (by simp [ReleasesOwn, releasedAddrs]) hstep (.nil s)) 0x2000 (by simpa using hhanded)
  obtain ⟨⟨segment, hmem, -, hlo, -⟩, -⟩ := husable 0x2000 le_rfl (by decide)
  rw [holeMap, List.mem_singleton] at hmem
  subst hmem
  exact absurd hlo (by decide)

/-- A kernel of one page at the start of memory, with all that the boot builds on reserved
memory behind it. -/
def reservedMap : List MemSegment :=
  [{ type := .reserved, addr := 0x1000, length := 0x6000 },
    { type := .available, addr := 0x7000, length := 2 ^ 27 - 0x7000 }]

/-- On that machine no memory of the boot is handed out. -/
theorem handed_not_boot_reserved : ∃ s : PmState, s.handed ≠ [] ∧
    ∀ a ∈ s.handed, ∀ range ∈ bootRanges flatEnv 0x1000 0x2000, ¬ Meets a range := by
  have htest : ((kernelMain flatEnv 40000 reservedMap 0x1000 0x2000).toOption.any fun s₀ =>
      !s₀.pageBit 8 && !s₀.pageBit 9 && (pmStep flatEnv 40000 s₀ .requestPage).toOption.any
        fun s => s.handed != []) = true := by
    decide +kernel
  obtain ⟨s₀, hinit, htest⟩ := Except.exists_of_any htest
  simp only [Bool.and_eq_true, Bool.not_eq_true'] at htest
  obtain ⟨⟨h8, h9⟩, htest⟩ := htest
  obtain ⟨s, hstep, hhanded⟩ := Except.exists_of_any htest
  have hsize : 9 < bitmapSize := by decide
  have hroom := one_lt_freePages (by omega) (by omega) hsize h8 h9
  refine ⟨s, by simpa using hhanded, ?_⟩
  refine handed_not_boot flatEnv 40000 (by decide) reservedMap 0x1000 0x2000 (fun i _ hmeets => ?_)
    s₀ hinit (by omega) [.requestPage] s
    (.cons ⟨hroom, by simp [ReleasesNoBoot, releasedAddrs]⟩ hstep (.nil s))
  have hranges : bootRanges flatEnv 0x1000 0x2000 = [(0, 0x1000), (0x1000, 0x2000),
      (0x3000, 0x4000), (0x4000, 0x5000), (0x5000, 0x6000), (0x6000, 0x7000)] := by decide
  have hlocked : ∀ i < 7, ∃ a ∈ bootAddrs flatEnv reservedMap, pageOf a = i := by decide
  refine hlocked i ?_
  rw [hranges] at hmeets
  simp only [List.mem_cons, List.not_mem_nil, or_false, exists_eq_or_imp, exists_eq_left, Meets,
    pageSize] at hmeets
  omega

/-- **The root page table is handed out.**  The memory map calls all memory available; the
boot data are in the page behind the kernel. -/
theorem not_handed_not_boot_flat :
    ¬ ∀ env fuel memMap bootinfoDataStart bootinfoDataEnd s₀, bitmapSize < fuel →
      kernelMain env fuel memMap bootinfoDataStart bootinfoDataEnd = .ok s₀ →
      ∀ es s, GuardedRun.Run (pmStep env fuel)
        (fun _ e => ReleasesNoBoot (bootRanges env bootinfoDataStart bootinfoDataEnd) e)
        s₀ es s →
      ∀ a ∈ s.handed, ∀ range ∈ bootRanges env bootinfoDataStart bootinfoDataEnd,
        ¬ Meets a range := by
  intro hall
  have htest : ((kernelMain flatEnv 40000 flatMap 0x1000 0x1800).toOption.any fun s₀ =>
      (GuardedRun.exec (pmStep flatEnv 40000) s₀ [.requestPage, .requestPage]).toOption.any
        fun s => s.handed.contains 0x3000) = true := by
    decide +kernel
  obtain ⟨s₀, hinit, htest⟩ := Except.exists_of_any htest
  obtain ⟨s, hexec, hhanded⟩ := Except.exists_of_any htest
  have hreleases : ∀ e ∈ [PmEvent.requestPage, PmEvent.requestPage], ∀ _ : PmState,
      ReleasesNoBoot (bootRanges flatEnv 0x1000 0x1800) e := by
    intro e he _
    simp only [List.mem_cons, List.not_mem_nil, or_false, or_self] at he
    subst he
    simp [ReleasesNoBoot, releasedAddrs]
  exact hall flatEnv 40000 flatMap 0x1000 0x1800 s₀ (by decide) hinit _ s
    (.of_exec hreleases hexec) 0x3000 (by simpa using hhanded) (0x3000, 0x4000) (by decide)
    ⟨by decide, by decide⟩

end Mimik.Pm
