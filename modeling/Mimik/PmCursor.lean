/-
# The cursor of the first bitmap

While the first bitmap has a free page, `first_free` is its lowest free page, `unset`
counts its free pages and `mem_info.used` its locked ones.  `Ready` is the first part;
this file adds the two counters (`Counted`) and follows both through `pm_init` and
through every run of the operations on single pages and on ranges
(`cursor_of_run`).
-/
import Mimik.PmSafety

namespace Mimik.Pm

attribute [local irreducible] bitmapSize wrap64 sub64

variable {env : PmEnv} {req : RequestPage} {fuel rounds : ℕ} {s s' s₁ : PmState} {c paddr : ℕ}

/-! ## The two counters -/

/-- The pages of the first bitmap that are locked. -/
def PmState.lockedPages (s : PmState) : ℕ :=
  ((Finset.range bitmapSize).filter fun i => s.pageBit i = true).card

/-- A page of the first bitmap is locked or free. -/
theorem lockedPages_add_freePages (s : PmState) : s.lockedPages + s.freePages = bitmapSize := by
  have hnot : ((Finset.range bitmapSize).filter fun i => ¬ s.pageBit i = true) = s.freeSet := by
    rw [PmState.freeSet]
    congr 1
    funext i
    simp
  rw [PmState.lockedPages, PmState.freePages, ← hnot, Finset.card_filter_add_card_filter_not,
    Finset.card_range]

/-- The counters agree with the bits of the first bitmap. -/
structure Counted (s : PmState) : Prop where
  unset : ∀ b, s.memBitmaps.head? = some b → b.super.unset = s.freePages
  used : s.memInfo.used = s.lockedPages * pageSize

/-- Moving `first_free` leaves the counters alone. -/
theorem head?_setFirstFree {id v : ℕ} {b : MemBitmap}
    (hb : (s.setFirstFree id v).memBitmaps.head? = some b) :
    ∃ b₀, s.memBitmaps.head? = some b₀ ∧ b.super = b₀.super := by
  rw [PmState.setFirstFree, PmState.modify] at hb
  simp only [List.head?_map, Option.map_eq_some_iff] at hb
  obtain ⟨b₀, hb₀, rfl⟩ := hb
  refine ⟨b₀, hb₀, ?_⟩
  split
  next => rfl
  next => rfl

theorem Counted.setFirstFree (hs : Counted s) (id v : ℕ) : Counted (s.setFirstFree id v) where
  unset b hb := by
    obtain ⟨b₀, hb₀, hsuper⟩ := head?_setFirstFree hb
    rw [hsuper]
    exact hs.unset b₀ hb₀
  used := hs.used

/-- `try_set_page` in the first 128 MiB counts the bit that it flips. -/
theorem trySetPage_unset (hs : Shape s c) (hpaddr : toBitmap paddr = 0) {state r : Bool}
    (hset : trySetPage env req s paddr state = .ok (r, s₁)) {b₁ : MemBitmap}
    (hb₁ : s₁.memBitmaps.head? = some b₁) :
    ∃ b, s.memBitmaps.head? = some b ∧ b₁.super.unset =
      if r then (if state then pred64 b.super.unset else wrap64 (b.super.unset + 1))
      else b.super.unset := by
  obtain ⟨b, hfind, hb⟩ := (hs.findBitmapByIndex (toBitmap paddr)).1 hpaddr
  obtain ⟨b₀, hderef, hb₀⟩ := hs.deref
  have hunset := bitmapSet_unset s.maps b₀.super (toIndex paddr) state
  rw [trySetPage, hfind] at hset
  simp only [bind, Except.bind, pure, Except.pure, hb.id, hderef] at hset
  cases hset
  obtain ⟨b₂, rest, hlist, hb₂, -⟩ := hs.bitmaps
  have heq : b₀ = b₂ := by
    simp only [PmState.deref, hlist, List.find?_cons, hb₂.id, beq_self_eq_true] at hderef
    cases hderef
    rfl
  subst heq
  refine ⟨b₀, by rw [hlist, List.head?_cons], ?_⟩
  simp only [PmState.modify, hlist, List.map_cons, hb₀.id, if_true, List.head?_cons,
    Option.some.injEq] at hb₁
  rw [← hb₁, hunset]
  simp only [beq_iff_eq]

/-! ## One page -/

/-- A lock of a locked page, as far as the counters go. -/
theorem Counted.congr (hs : Counted s) (hbits : ∀ j, s'.pageBit j = s.pageBit j)
    (hunset : ∀ b', s'.memBitmaps.head? = some b' → ∃ b, s.memBitmaps.head? = some b ∧
      b'.super.unset = b.super.unset) (hused : s'.memInfo.used = s.memInfo.used) :
    Counted s' where
  unset b' hb' := by
    obtain ⟨b, hb, heq⟩ := hunset b' hb'
    rw [heq, hs.unset b hb, freePages_congr hbits]
  used := by
    have hlocked : s'.lockedPages = s.lockedPages := by
      simp only [PmState.lockedPages, hbits]
    rw [hused, hs.used, hlocked]

/-- The manager is in order and counts. -/
structure InCount (s : PmState) : Prop where
  ready : ∃ c, Ready s c
  counted : Counted s

/-- The bits of the pages at some addresses are set, or cleared, and no others are touched;
the other bitmaps are left alone. -/
structure SetsBits (s s' : PmState) (addrs : List ℕ) (state : Bool) : Prop where
  bits : ∀ j, s'.pageBit j = if j ∈ addrs.map pageOf then state else s.pageBit j
  pages : ∀ page, s'.maps (.page page) = s.maps (.page page)
  tail : s'.memBitmaps.tail = s.memBitmaps.tail

/-- **A lock**, which leaves another page free. -/
theorem InCount.lock (env : PmEnv) (req : RequestPage) (hrounds : bitmapSize ≤ rounds)
    (hs : Shape s c) (hc : Counted s) (hbelow : ∀ i < c, i ≠ pageOf paddr → s.pageBit i = true)
    (hpaddr : toBitmap paddr = 0) (hfree : s.pageBit (pageOf paddr) = false)
    (hroom : 1 < s.freePages) :
    ∃ s', tryLockPage env req rounds s paddr = .ok (true, s') ∧ InCount s' ∧
      SetsBits s s' [paddr] true ∧ s'.memInfo = (s.pageLocked paddr).memInfo ∧
      s'.history = (s.pageLocked paddr).history := by
  obtain ⟨s₁, hset, hshape, hsame, hbits, hmaps, htail⟩ := trySetPage_first env req hs hpaddr true
  obtain ⟨s₂, j, hset₂, hready, hlock⟩ :=
    tryLockPage_first_eq env req hs hbelow hrounds hpaddr hfree hroom
  rw [hset, hfree] at hset₂
  cases hset₂
  have hpage := toBitmap_eq_zero_iff.mp hpaddr
  have hcount := freePages_set hpage hfree hbits
  have htotal := lockedPages_add_freePages s
  have htotal₁ := lockedPages_add_freePages s₁
  rw [bitmapSize_eq] at htotal htotal₁
  have hinfo : ((s₁.setFirstFree 0 j).pageLocked paddr).memInfo = (s.pageLocked paddr).memInfo := by
    show MemInfo.mk (wrap64 (s₁.memInfo.used + pageSize)) (sub64 s₁.memInfo.free pageSize) = _
    rw [hsame.memInfo]
    rfl
  refine ⟨_, hlock, ⟨⟨j, ⟨hready.toShape.congr rfl rfl rfl, hready.lt, hready.free,
    hready.below⟩⟩, ?_⟩, ⟨fun i => (hbits i).trans (by simp), hmaps,
    (hshape.modify_tail _).trans htail⟩, hinfo,
    congrArg ((pageOf paddr, true) :: ·) hsame.history⟩
  constructor
  · intro b' hb'
    obtain ⟨b₁, hb₁, hsuper⟩ := head?_setFirstFree hb'
    obtain ⟨b, hb, hunset⟩ := trySetPage_unset hs hpaddr hset hb₁
    rw [hsuper, hunset, hfree, hc.unset b hb]
    simp only [Bool.not_true, beq_self_eq_true, if_true]
    rw [pred64, if_neg (by omega)]
    show s.freePages - 1 = s₁.freePages
    omega
  · show wrap64 (s₁.memInfo.used + pageSize) = s₁.lockedPages * pageSize
    rw [hsame.memInfo, hc.used, pageSize, wrap64_of_lt (by omega)]
    omega

/-- **A release** of a locked page. -/
theorem InCount.release (env : PmEnv) (req : RequestPage) (hs : InCount s)
    (hpaddr : toBitmap paddr = 0) (hlocked : s.pageBit (pageOf paddr) = true) :
    ∃ s', tryReleasePage env req s paddr = .ok (true, s') ∧ InCount s' ∧
      SetsBits s s' [paddr] false := by
  obtain ⟨⟨c, hready₀⟩, hc⟩ := hs
  obtain ⟨s₁, hset, hshape, hsame, hbits, hmaps, htail⟩ :=
    trySetPage_first env req hready₀.toShape hpaddr false
  obtain ⟨s₂, j, hset₂, hready, hrelease⟩ :=
    tryReleasePage_first_eq env req hready₀ hpaddr hlocked
  rw [hset, hlocked] at hset₂
  cases hset₂
  have hpage := toBitmap_eq_zero_iff.mp hpaddr
  have hcount : s.freePages + 1 = s₁.freePages := by
    apply freePages_set hpage
    · exact (hbits _).trans (if_pos rfl)
    · intro i
      rw [hbits]
      by_cases hi : i = pageOf paddr
      · rw [if_pos hi, hi, hlocked]
      · rw [if_neg hi, if_neg hi]
  have htotal := lockedPages_add_freePages s
  have htotal₁ := lockedPages_add_freePages s₁
  rw [bitmapSize_eq] at htotal htotal₁
  refine ⟨_, hrelease, ⟨⟨j, ⟨hready.toShape.congr rfl rfl rfl, hready.lt, hready.free,
    hready.below⟩⟩, ?_⟩, fun i => (hbits i).trans (by simp), hmaps,
    (hshape.modify_tail _).trans htail⟩
  constructor
  · intro b' hb'
    obtain ⟨b₁, hb₁, hsuper⟩ := head?_setFirstFree hb'
    obtain ⟨b, hb, hunset⟩ := trySetPage_unset hready₀.toShape hpaddr hset hb₁
    rw [hsuper, hunset, hlocked, hc.unset b hb]
    simp only [Bool.not_false, beq_self_eq_true, if_true, Bool.false_eq_true, if_false]
    rw [wrap64_of_lt (by omega)]
    exact hcount
  · show sub64 s₁.memInfo.used pageSize = s₁.lockedPages * pageSize
    rw [hsame.memInfo, hc.used, pageSize, sub64, if_neg (by omega)]
    omega

/-- An operation on a page that is locked already, or free already, does nothing. -/
theorem InCount.nochange (env : PmEnv) (req : RequestPage) (rounds : ℕ) (hs : InCount s)
    (hpaddr : toBitmap paddr = 0) :
    (s.pageBit (pageOf paddr) = true → ∃ s', tryLockPage env req rounds s paddr = .ok (false, s') ∧
      InCount s' ∧ SetsBits s s' [paddr] true ∧ s'.memInfo = s.memInfo ∧ s'.history = s.history) ∧
    (s.pageBit (pageOf paddr) = false → ∃ s', tryReleasePage env req s paddr = .ok (false, s') ∧
      InCount s' ∧ SetsBits s s' [paddr] false ∧ s'.memInfo = s.memInfo ∧
      s'.history = s.history) := by
  obtain ⟨⟨c, hready⟩, hc⟩ := hs
  have hkeep : ∀ state, s.pageBit (pageOf paddr) = state →
      ∃ s₁, trySetPage env req s paddr state = .ok (false, s₁) ∧ InCount s₁ ∧
        SetsBits s s₁ [paddr] state ∧ s₁.memInfo = s.memInfo ∧ s₁.history = s.history := by
    intro state hstate
    obtain ⟨s₁, hset, hshape, hsame, hbits, hmaps, htail⟩ :=
      trySetPage_first env req hready.toShape hpaddr state
    have hall : ∀ j, s₁.pageBit j = s.pageBit j := by
      intro j
      rw [hbits]
      split
      next hj => rw [hj, hstate]
      next => rfl
    rw [hstate, beq_false_of_ne (by simp)] at hset
    refine ⟨s₁, hset, ⟨⟨c, hready.of_bits hshape hall⟩, ?_⟩,
      ⟨fun i => (hbits i).trans (by simp), hmaps, htail⟩, hsame.memInfo, hsame.history⟩
    apply hc.congr hall
    · intro b' hb'
      obtain ⟨b, hb, hunset⟩ := trySetPage_unset hready.toShape hpaddr hset hb'
      exact ⟨b, hb, by simpa using hunset⟩
    · rw [hsame.memInfo]
  constructor
  · intro hlocked
    obtain ⟨s₁, hset, hrest⟩ := hkeep true hlocked
    refine ⟨s₁, ?_, hrest⟩
    rw [tryLockPage, hset]
    rfl
  · intro hfree
    obtain ⟨s₁, hset, hrest⟩ := hkeep false hfree
    refine ⟨s₁, ?_, hrest⟩
    rw [tryReleasePage, hset]
    rfl

/-- Where two pages are free, or one that is not asked for, a lock leaves a free page. -/
theorem one_lt_freePages_of_mem {i j : ℕ} (hi : i ∈ s.freeSet) (hj : j ∈ s.freeSet)
    (hne : i ≠ j) : 1 < s.freePages :=
  Finset.one_lt_card.mpr ⟨i, hi, j, hj, hne⟩

/-- **`pm_try_lock_page` in the first 128 MiB**, with a page to spare. -/
theorem InCount.pmTryLockPage (env : PmEnv) (hfuel : bitmapSize ≤ fuel) (hs : InCount s)
    (hpaddr : toBitmap paddr = 0) (hspare : ∃ i ∈ s.freeSet, i ≠ pageOf paddr) :
    ∃ r s', Mimik.Pm.pmTryLockPage env fuel s paddr = .ok (r, s') ∧ InCount s' ∧
      SetsBits s s' [paddr] true := by
  cases hbit : s.pageBit (pageOf paddr) with
  | true =>
    obtain ⟨s', hok, hs', hbits, -⟩ := (hs.nochange env (pmRequestPage env fuel) fuel hpaddr).1 hbit
    exact ⟨false, s', hok, hs', hbits⟩
  | false =>
    obtain ⟨c, hready⟩ := hs.ready
    obtain ⟨i, hi, hne⟩ := hspare
    have hmem : pageOf paddr ∈ s.freeSet :=
      PmState.mem_freeSet.mpr ⟨toBitmap_eq_zero_iff.mp hpaddr, hbit⟩
    obtain ⟨s', hok, hs', hbits, -⟩ := InCount.lock env (pmRequestPage env fuel) hfuel
      hready.toShape hs.counted (fun i hi _ => hready.below i hi) hpaddr hbit
      (one_lt_freePages_of_mem hi hmem hne)
    exact ⟨true, s', hok, hs', hbits⟩

/-- **`pm_try_release_page` in the first 128 MiB.** -/
theorem InCount.pmTryReleasePage (env : PmEnv) (fuel : ℕ) (hs : InCount s)
    (hpaddr : toBitmap paddr = 0) :
    ∃ r s', Mimik.Pm.pmTryReleasePage env fuel s paddr = .ok (r, s') ∧ InCount s' ∧
      SetsBits s s' [paddr] false := by
  cases hbit : s.pageBit (pageOf paddr) with
  | true => exact ⟨true, hs.release env (pmRequestPage env fuel) hpaddr hbit⟩
  | false =>
    obtain ⟨s', hok, hs', hbits, -⟩ := (hs.nochange env (pmRequestPage env fuel) 0 hpaddr).2 hbit
    exact ⟨false, s', hok, hs', hbits⟩

/-- **`pm_request_page`** takes the lowest free page, or stops for lack of memory. -/
theorem InCount.pmRequestPage (env : PmEnv) (hfuel : bitmapSize < fuel) (hs : InCount s)
    (hready : Ready s c) (hroom : 1 < s.freePages) :
    (pageSize ≤ s.memInfo.free → ∃ s', Mimik.Pm.pmRequestPage env fuel s = .ok (c * pageSize, s') ∧
      InCount s' ∧ SetsBits s s' [c * pageSize] true ∧
      s'.memInfo = (s.pageLocked (c * pageSize)).memInfo ∧
      s'.history = (s.pageLocked (c * pageSize)).history) ∧
    (s.memInfo.free < pageSize → Mimik.Pm.pmRequestPage env fuel s =
      .error (.assertion "0 && \"unimplemented: \" \"swapping\"")) := by
  obtain ⟨fuel, rfl⟩ := Nat.exists_eq_add_of_le' (Nat.one_le_of_lt hfuel)
  constructor
  · intro hmem
    obtain ⟨b, hderef, hb⟩ := hready.deref
    have hpage : pageOf (c * pageSize) = c := pageOf_mul c
    have hnear : toBitmap (c * pageSize) = 0 := by
      rw [toBitmap_eq_zero_iff, hpage]
      exact hready.lt
    have hnext : wrap64 (c + 1) = c + 1 := by
      have := hready.lt
      rw [bitmapSize_eq] at this
      exact wrap64_of_lt (by omega)
    have hbelow : ∀ i < c + 1, i ≠ pageOf (c * pageSize) → s.pageBit i = true := by
      intro i hi hne
      rw [hpage] at hne
      exact hready.below i (by omega)
    obtain ⟨s₁, hlock, hcount, ⟨hbits, hmaps, htail⟩, hinfo, hhist⟩ := InCount.lock env
      (Mimik.Pm.pmRequestPage env fuel)
      (Nat.le_of_lt_succ hfuel) (hready.toShape.setFirstFree (c + 1))
      (hs.counted.setFirstFree 0 (c + 1)) hbelow hnear (by rw [hpage]; exact hready.free) hroom
    obtain ⟨⟨c₁, hready₁⟩, hcounted⟩ := hcount
    refine ⟨{ s₁ with handed := c * pageSize :: s₁.handed }, ?_, ⟨⟨c₁, ?_⟩, hcounted.unset,
      hcounted.used⟩, ⟨hbits, hmaps, htail.trans (hready.toShape.modify_tail _)⟩, hinfo, hhist⟩
    · rw [Mimik.Pm.pmRequestPage, hready.first]
      simp only [hmem, decide_true, assert_true, bind, Except.bind, hderef, hb.index,
        hb.firstFree, toPaddr_zero hready.lt, hnext, hb.id, hlock, pure, Except.pure]
    · exact ⟨hready₁.toShape.congr rfl rfl rfl, hready₁.lt, hready₁.free, hready₁.below⟩
  · intro hlack
    have hno : decide (pageSize ≤ s.memInfo.free) = false := by simpa using hlack
    rw [Mimik.Pm.pmRequestPage, hno, assert_false]
    rfl

/-! ## Ranges -/

/-- One operation after the other. -/
theorem SetsBits.cons {state : Bool} {as : List ℕ} (h : SetsBits s s₁ [paddr] state)
    (h' : SetsBits s₁ s' as state) : SetsBits s s' (paddr :: as) state where
  bits j := by
    rw [h'.bits j, h.bits j, List.map_cons, List.map_cons, List.map_nil]
    by_cases hj : j = pageOf paddr
    · simp [hj]
    · simp [hj]
  pages page := (h'.pages page).trans (h.pages page)
  tail := h'.tail.trans h.tail

variable (op : PmState → ℕ → Except Fault (Bool × PmState)) (join : Bool → Bool → Bool)
  (state : Bool) (keep : PmState → Prop) (allowed : ℕ → Prop)

/-- **A loop over pages**, for an operation on one page that returns while `keep` holds. -/
theorem InCount.pageLoop (hop : ∀ s paddr, InCount s → keep s → allowed paddr →
      ∃ r s', op s paddr = .ok (r, s') ∧ InCount s' ∧ keep s' ∧ SetsBits s s' [paddr] state)
    (pages : ℕ) (acc : Bool) (hs : InCount s) (hkeep : keep s)
    (hall : ∀ a ∈ addrs pages paddr, allowed a) :
    ∃ r s', Mimik.Pm.pageLoop op join pages s paddr acc = .ok (r, s') ∧ InCount s' ∧
      SetsBits s s' (addrs pages paddr) state := by
  induction pages generalizing s paddr acc with
  | zero => exact ⟨acc, s, rfl, hs, fun j => by simp [addrs], fun _ => rfl, rfl⟩
  | succ pages ih =>
    obtain ⟨r, s₁, hfst, hs₁, hkeep₁, hbits⟩ := hop s paddr hs hkeep (hall paddr List.mem_cons_self)
    obtain ⟨r', s', hrest, hs', hbits'⟩ :=
      ih (join acc r) hs₁ hkeep₁ fun a ha => hall a (List.mem_cons_of_mem _ ha)
    refine ⟨r', s', ?_, hs', hbits.cons hbits'⟩
    simp only [Mimik.Pm.pageLoop, hfst, bind, Except.bind, hrest]

/-- **A range of pages.** -/
theorem InCount.pageRange (hop : ∀ s paddr, InCount s → keep s → allowed paddr →
      ∃ r s', op s paddr = .ok (r, s') ∧ InCount s' ∧ keep s' ∧ SetsBits s s' [paddr] state)
    (bytes : ℕ) (hs : InCount s) (hkeep : keep s)
    (hall : ∀ a ∈ rangeAddrs paddr bytes, allowed a) :
    ∃ r s', Mimik.Pm.pageRange op join s paddr bytes = .ok (r, s') ∧ InCount s' ∧
      SetsBits s s' (rangeAddrs paddr bytes) state := by
  rw [Mimik.Pm.pageRange]
  rw [rangeAddrs] at hall ⊢
  split
  next hzero =>
    rw [if_pos hzero] at hall
    obtain ⟨r, s', hok, hs', -, hbits⟩ := hop s paddr hs hkeep (hall paddr List.mem_cons_self)
    exact ⟨r, s', hok, hs', hbits⟩
  next hne =>
    rw [if_neg hne] at hall
    exact hs.pageLoop op join state keep allowed hop _ true hkeep hall

/-! ## `pm_init` -/

variable {join}

/-- The first bitmap is the only one, and no byte of another is written. -/
structure Alone (s : PmState) : Prop where
  tail : s.memBitmaps.tail = []
  clean : ∀ page i, s.maps (.page page) i = 0

/-- Operations on pages of the first bitmap make no other one. -/
theorem Alone.of_setsBits {state : Bool} {as : List ℕ} (hs : Alone s)
    (h : SetsBits s s' as state) :
    Alone s' where
  tail := h.tail.trans hs.tail
  clean page i := (congrFun (h.pages page) i).trans (hs.clean page i)

/-- The manager during `pm_init`, after the pages of `done` were locked: its counters agree
with its bits, and what is free and what is used add up to `total` bytes. -/
structure BootCount (total : ℕ) (done : Set ℕ) (s : PmState) : Prop where
  booting : Booting s
  counted : Counted s
  free_lt : s.memInfo.free < 2 ^ 64
  funds : wrap64 (s.memInfo.free + s.memInfo.used) = wrap64 total
  far : ∀ i, bitmapSize ≤ i → s.isLocked i = false
  bits : ∀ i < bitmapSize, s.pageBit i = true ↔ i ∈ done
  alone : Alone s

/-- The sum of what is free and what is used does not change with a lock. -/
theorem funds_pageLocked (paddr : ℕ) (hlt : s.memInfo.free < 2 ^ 64) :
    (s.pageLocked paddr).memInfo.free < 2 ^ 64 ∧
      wrap64 ((s.pageLocked paddr).memInfo.free + (s.pageLocked paddr).memInfo.used) =
        wrap64 (s.memInfo.free + s.memInfo.used) := by
  show sub64 s.memInfo.free pageSize < 2 ^ 64 ∧
    wrap64 (sub64 s.memInfo.free pageSize + wrap64 (s.memInfo.used + pageSize)) = _
  simp only [sub64, wrap64, pageSize]
  split <;> omega

/-- A lock during `pm_init`. -/
theorem BootCount.lock {total : ℕ} {done : Set ℕ} (hreq : KeepsNoPage req)
    (hrounds : bitmapSize ≤ rounds) (hs : BootCount total done s) {r : Bool}
    (hok : Mimik.Pm.tryLockPage env req rounds s paddr = .ok (r, s')) (hfree : 0 < s'.freePages) :
    BootCount total (insert (pageOf paddr) done) s' := by
  obtain ⟨hboot, hnear, hlocked⟩ := hs.booting.tryLockPage hreq hrounds hok hfree
  obtain ⟨c, hready⟩ := hs.booting.ready
  have hpage := toBitmap_eq_zero_iff.mp hnear
  have hbits : ∀ s₁, SetsBits s s₁ [paddr] true → ∀ i < bitmapSize,
      s₁.pageBit i = true ↔ i ∈ insert (pageOf paddr) done := by
    intro s₁ h i hi
    rw [h.bits i, Set.mem_insert_iff, ← hs.bits i hi]
    by_cases heq : i = pageOf paddr
    · simp [heq]
    · simp [heq]
  cases hbit : s.pageBit (pageOf paddr) with
  | true =>
    obtain ⟨s₁, hok₁, hs₁, hset, hinfo, hhist⟩ :=
      (InCount.nochange env req rounds ⟨hs.booting.ready, hs.counted⟩ hnear).1 hbit
    rw [hok] at hok₁
    cases hok₁
    refine ⟨hboot, hs₁.counted, ?_, ?_, fun i hi => ?_, hbits _ hset, hs.alone.of_setsBits hset⟩
    · rw [hinfo]; exact hs.free_lt
    · rw [hinfo]; exact hs.funds
    · rw [isLocked_congr hhist]; exact hs.far i hi
  | false =>
    rcases Nat.lt_or_ge 1 s.freePages with hroom | hlast
    · obtain ⟨s₁, hok₁, hs₁, hset, hinfo, hhist⟩ := InCount.lock env req hrounds hready.toShape
        hs.counted (fun i hi _ => hready.below i hi) hnear hbit hroom
      rw [hok] at hok₁
      cases hok₁
      have hfunds := funds_pageLocked paddr hs.free_lt
      refine ⟨hboot, hs₁.counted, ?_, ?_, fun i hi => ?_, hbits _ hset,
        hs.alone.of_setsBits hset⟩
      · rw [hinfo]; exact hfunds.1
      · rw [hinfo, hfunds.2]; exact hs.funds
      · rw [isLocked_cons hhist, if_neg (by omega)]; exact hs.far i hi
    · have := freePages_of_last hreq hready.toShape hs.booting.noPage hnear hbit hlast hok
      omega

/-- A range during `pm_init`. -/
theorem BootCount.pageLoop {total : ℕ} {done : Set ℕ} (hfuel : bitmapSize ≤ fuel) (pages : ℕ)
    {acc r : Bool} (hs : BootCount total done s)
    (hok : Mimik.Pm.pageLoop (pmTryLockPage env fuel) join pages s paddr acc = .ok (r, s'))
    (hfree : 0 < s'.freePages) :
    BootCount total (done ∪ {i | i ∈ (addrs pages paddr).map pageOf}) s' := by
  induction pages generalizing s paddr acc done with
  | zero =>
    cases hok
    have hnone : done ∪ {i | i ∈ (addrs 0 paddr).map pageOf} = done := by simp [addrs]
    rw [hnone]
    exact hs
  | succ pages ih =>
    obtain ⟨⟨locked, s₁⟩, hlock, hrest⟩ := Except.bind_eq_ok_iff.mp hok
    obtain ⟨_, -, -, hfst⟩ := tryLockPage_noPage (keepsNoPage env fuel) hs.booting.noPage hlock
    have hearly := pageLoop_noPage _ _ _ _ _ _ hfst.noPage hrest
    have hs₁ := hs.lock (keepsNoPage env fuel) hfuel hlock
      (lt_of_lt_of_le hfree (freePages_le hearly.grow))
    have hall := ih hs₁ hrest
    have hset : insert (pageOf paddr) done ∪
        {i | i ∈ (addrs pages (wrap64 (paddr + pageSize))).map pageOf} =
        done ∪ {i | i ∈ (addrs (pages + 1) paddr).map pageOf} := by
      ext i
      simp only [addrs, List.map_cons, List.mem_cons, Set.mem_union, Set.mem_insert_iff,
        Set.mem_ofPred_eq]
      tauto
    rw [hset] at hall
    exact hall

/-- The memory map during `pm_init`. -/
theorem BootCount.computeMemSize {total : ℕ} {done : Set ℕ} (hfuel : bitmapSize ≤ fuel)
    (memMap : List MemSegment) (hs : BootCount total done s)
    (hok : Mimik.Pm.computeMemSize env fuel memMap s = .ok s') (hfree : 0 < s'.freePages) :
    BootCount (total + (memMap.map (·.length)).sum)
      (done ∪ {i | i ∈ (segmentAddrs memMap).map pageOf}) s' := by
  induction memMap generalizing s total done with
  | nil =>
    cases hok
    have hnone : done ∪ {i | i ∈ (segmentAddrs []).map pageOf} = done := by simp [segmentAddrs]
    rw [hnone]
    exact hs
  | cons segment memMap ih =>
    obtain ⟨s₁, hseg, hrest⟩ := Except.bind_eq_ok_iff.mp hok
    have hstart : BootCount (total + segment.length) done (s.addFree segment.length) := by
      obtain ⟨⟨⟨c, hready⟩, hsync, hpage, hhanded⟩, hc, hlt, hfunds, hfar, hbits, halone⟩ := hs
      refine ⟨⟨⟨c, ⟨hready.toShape.congr rfl rfl rfl, hready.lt, hready.free, hready.below⟩⟩,
        hsync, hpage, hhanded⟩, ⟨hc.unset, hc.used⟩, ?_, ?_, hfar, hbits,
        ⟨halone.tail, halone.clean⟩⟩
      · show wrap64 (s.memInfo.free + segment.length) < 2 ^ 64
        rw [wrap64]
        omega
      · show wrap64 (wrap64 (s.memInfo.free + segment.length) + s.memInfo.used) = _
        simp only [wrap64] at hfunds ⊢
        omega
    have hset : done ∪ {i | i ∈ (segmentAddrs (segment :: memMap)).map pageOf} =
        done ∪ {i | i ∈ ((if segment.type = .reserved ∧ toBitmap segment.addr = 0 then
          rangeAddrs segment.addr segment.length else [])).map pageOf} ∪
          {i | i ∈ (segmentAddrs memMap).map pageOf} := by
      ext i
      simp only [segmentAddrs, List.flatMap_cons, List.map_append, List.mem_append, Set.mem_union,
        Set.mem_ofPred_eq, or_assoc]
    rw [hset, List.map_cons, List.sum_cons, ← Nat.add_assoc]
    split at hseg
    next hcond =>
      obtain ⟨⟨r, s₂⟩, hlock, hret⟩ := Except.bind_eq_ok_iff.mp hseg
      cases hret
      obtain ⟨_, hloop⟩ := pageRange_eq_loop hlock
      have hearly := pageLoop_noPage _ _ _ _ _ _ hstart.booting.noPage hloop
      have hearly' := computeMemSize_noPage _ _ _ hearly.noPage hrest
      have hs₁ := hstart.pageLoop hfuel _ hloop
        (lt_of_lt_of_le hfree (freePages_le hearly'.grow))
      rw [if_pos hcond]
      exact ih hs₁ hrest
    next hcond =>
      cases hseg
      have hnone : done ∪ {i | i ∈ ([] : List ℕ).map pageOf} = done := by simp
      rw [if_neg hcond, hnone]
      exact ih hstart hrest

/-- The first bitmap, just made, counts its pages. -/
theorem bootCount_initFirstBitmap : BootCount 0 ∅ initFirstBitmap := by
  obtain ⟨-, -, hclear, hother⟩ := bitmapFrom_spec (fun _ _ => 0) bitmapSize
    MapPtr.pagesBitmap0 (by rw [bitmapSize_eq]; omega)
  have hall : initFirstBitmap.freeSet = Finset.range bitmapSize := by
    rw [PmState.freeSet]
    apply Finset.filter_true_of_mem
    intro i hi
    exact hclear i (Finset.mem_range.mp hi)
  have hfree : initFirstBitmap.freePages = bitmapSize := by
    rw [PmState.freePages, hall, Finset.card_range]
  refine ⟨booting_initFirstBitmap, ⟨?_, ?_⟩, Nat.two_pow_pos 64, rfl, fun _ _ => rfl, ?_, rfl,
    fun page i => congrFun (hother (.page page) (by simp)) i⟩
  · intro b hb
    cases hb
    exact hfree.symm
  · have htotal := lockedPages_add_freePages initFirstBitmap
    have hzero : initFirstBitmap.lockedPages = 0 := by omega
    rw [hzero, Nat.zero_mul]
    rfl
  · intro i hi
    have hbit : initFirstBitmap.pageBit i = false := hclear i hi
    rw [hbit]
    simp

/-- The pages that `pm_init` locks for the memory map and the kernel. -/
def bootPages (env : PmEnv) (memMap : List MemSegment) : Set ℕ :=
  {i | i ∈ (bootAddrs env memMap).map pageOf}

/-- What `pm_init` leaves besides a manager in order: the counters, and the pages locked. -/
structure InitCount (env : PmEnv) (memMap : List MemSegment) (s : PmState) : Prop where
  inCount : InCount s
  free_lt : s.memInfo.free < 2 ^ 64
  funds : wrap64 (s.memInfo.free + s.memInfo.used) = wrap64 (memMap.map (·.length)).sum
  far : ∀ i, bitmapSize ≤ i → s.isLocked i = false
  bits : ∃ c < bitmapSize, c ∉ bootPages env memMap ∧ (∀ i < c, i ∈ bootPages env memMap) ∧
    ∀ i < bitmapSize, s.pageBit i = true ↔ i = c ∨ i ∈ bootPages env memMap
  alone : Alone s

/-- **`pm_init`** leaves the manager in order and counting, when a page of the first 128 MiB
is left free: the pages of the memory map, of the kernel, and the lowest page besides are
locked. -/
theorem pmInit_count (hfuel : bitmapSize < fuel) {memMap : List MemSegment}
    (hinit : pmInit env fuel memMap = .ok s) (hfree : 0 < s.freePages) :
    InitCount env memMap s := by
  obtain ⟨s₁, hmem, hok⟩ := Except.bind_eq_ok_iff.mp hinit
  obtain ⟨⟨r, s₂⟩, hkernel, hok⟩ := Except.bind_eq_ok_iff.mp hok
  obtain ⟨⟨page, s₃⟩, hreq, hret⟩ := Except.bind_eq_ok_iff.mp hok
  cases hret
  obtain ⟨_, hloop⟩ := pageRange_eq_loop hkernel
  have hearly₁ := computeMemSize_noPage _ _ _ booting_initFirstBitmap.noPage hmem
  have hearly₂ := pageLoop_noPage _ _ _ _ _ _ hearly₁.noPage hloop
  have hgrow₃ : s₃.freePages ≤ s₂.freePages :=
    freePages_le (pmRequestPage_noPage env fuel _ _ _ hearly₂.noPage hreq).2
  have hfree₂ : 0 < s₂.freePages := lt_of_lt_of_le hfree hgrow₃
  have hfree₁ : 0 < s₁.freePages := lt_of_lt_of_le hfree₂ (freePages_le hearly₂.grow)
  have hs₂ := (bootCount_initFirstBitmap.computeMemSize hfuel.le memMap hmem hfree₁).pageLoop
    hfuel.le _ hloop hfree₂
  have hdone : ∅ ∪ {i | i ∈ (segmentAddrs memMap).map pageOf} ∪ {i | i ∈ (rangeAddrs
      env.layoutPaddrStart (sub64 env.layoutPaddrEnd env.layoutPaddrStart)).map pageOf} =
      bootPages env memMap := by
    ext i
    simp only [bootPages, bootAddrs, List.map_append, List.mem_append, Set.mem_union,
      Set.mem_ofPred_eq, Set.empty_union]
  rw [← rangeAddrs, hdone, Nat.zero_add] at hs₂
  obtain ⟨c, hready⟩ := hs₂.booting.ready
  have hroom : 1 < s₂.freePages := by
    obtain ⟨fuel, rfl⟩ := Nat.exists_eq_add_of_le' (Nat.one_le_of_lt hfuel)
    exact freePages_of_request hready hs₂.booting.noPage hreq hfree
  obtain ⟨hreturns, hstops⟩ :=
    InCount.pmRequestPage env hfuel ⟨hs₂.booting.ready, hs₂.counted⟩ hready hroom
  rcases Nat.lt_or_ge s₂.memInfo.free pageSize with hlack | henough
  · rw [hstops hlack] at hreq
    cases hreq
  obtain ⟨s₄, hok₄, ⟨⟨c₄, hready₄⟩, hc₄⟩, hset, hinfo, hhist⟩ := hreturns henough
  rw [hreq] at hok₄
  cases hok₄
  have hfunds := funds_pageLocked (c * pageSize) hs₂.free_lt
  have halone := hs₂.alone.of_setsBits hset
  refine ⟨⟨⟨c₄, ⟨hready₄.toShape.congr rfl rfl rfl, hready₄.lt, hready₄.free, hready₄.below⟩⟩,
    hc₄.unset, hc₄.used⟩, ?_, ?_, fun i hi => ?_,
    ⟨c, hready.lt, ?_, fun i hi => ?_, fun i hi => ?_⟩, halone.tail, halone.clean⟩
  · show s₃.memInfo.free < 2 ^ 64
    rw [hinfo]
    exact hfunds.1
  · show wrap64 (s₃.memInfo.free + s₃.memInfo.used) = _
    rw [hinfo, hfunds.2]
    exact hs₂.funds
  · have hlt := hready.lt
    refine (isLocked_cons (s := s₂) hhist i).trans ?_
    rw [pageOf_mul, if_neg (by omega)]
    exact hs₂.far i hi
  · rw [← hs₂.bits c hready.lt, hready.free]
    simp
  · rw [← hs₂.bits i (lt_trans hi hready.lt)]
    exact hready.below i hi
  · have hbit : s₃.pageBit i = if i = c then true else s₂.pageBit i := by
      have h := hset.bits i
      simpa only [List.map_cons, List.map_nil, pageOf_mul, List.mem_singleton] using h
    show s₃.pageBit i = true ↔ _
    rw [hbit, ← hs₂.bits i hi]
    by_cases heq : i = c
    · simp [heq]
    · simp [heq]

/-! ## Runs -/

/-- The operation is on addresses below 128 MiB and leaves a page of the first bitmap
unlocked. -/
def LeavesFree (s : PmState) : PmEvent → Prop
  | .tryLockPage paddr => toBitmap paddr = 0 ∧ ∃ i ∈ s.freeSet, i ≠ pageOf paddr
  | .tryLockPages paddr bytes => (∀ a ∈ rangeAddrs paddr bytes, toBitmap a = 0) ∧
      ∃ i ∈ s.freeSet, ∀ a ∈ rangeAddrs paddr bytes, i ≠ pageOf a
  | .tryReleasePage paddr => toBitmap paddr = 0
  | .tryReleasePages paddr bytes => ∀ a ∈ rangeAddrs paddr bytes, toBitmap a = 0
  | .requestPage => 1 < s.freePages
  | .requestPages _ | .requestBytes _ => False

/-- **One operation** returns and leaves the manager in order and counting, unless it is a
request that stops for lack of memory. -/
theorem InCount.step (env : PmEnv) (hfuel : bitmapSize < fuel) (hs : InCount s) {e : PmEvent}
    (he : LeavesFree s e) :
    (∃ s', pmStep env fuel s e = .ok s' ∧ InCount s') ∨
      (e = .requestPage ∧ s.memInfo.free < pageSize ∧ pmStep env fuel s e =
        .error (.assertion "0 && \"unimplemented: \" \"swapping\"")) := by
  have hresult : ∀ {α : Type} {x : Except Fault (α × PmState)} {r : α} {s' : PmState},
      x = .ok (r, s') → Prod.snd <$> x = .ok s' := by
    rintro α x r s' rfl
    rfl
  cases e with
  | tryLockPage paddr =>
    obtain ⟨r, s', hok, hs', -⟩ := hs.pmTryLockPage env hfuel.le he.1 he.2
    exact .inl ⟨s', hresult hok, hs'⟩
  | tryLockPages paddr bytes =>
    obtain ⟨hnear, i, hi, hspare⟩ := he
    obtain ⟨r, s', hok, hs', -⟩ := hs.pageRange (Mimik.Pm.pmTryLockPage env fuel) (· && ·)
      true (fun s => i ∈ s.freeSet) (fun a => toBitmap a = 0 ∧ i ≠ pageOf a)
      (by
        intro s a hs hkeep hallowed
        obtain ⟨r, s', hok, hs', hbits⟩ :=
          hs.pmTryLockPage env hfuel.le hallowed.1 ⟨i, hkeep, hallowed.2⟩
        refine ⟨r, s', hok, hs', ?_, hbits⟩
        rw [PmState.mem_freeSet] at hkeep ⊢
        refine ⟨hkeep.1, ?_⟩
        rw [hbits.bits i, if_neg (by simpa using hallowed.2)]
        exact hkeep.2)
      bytes hi fun a ha => ⟨hnear a ha, hspare a ha⟩
    exact .inl ⟨s', hresult hok, hs'⟩
  | tryReleasePage paddr =>
    obtain ⟨r, s', hok, hs', -⟩ := hs.pmTryReleasePage env fuel he
    exact .inl ⟨s', hresult hok, hs'⟩
  | tryReleasePages paddr bytes =>
    obtain ⟨r, s', hok, hs', -⟩ := hs.pageRange (Mimik.Pm.pmTryReleasePage env fuel) (· || ·)
      false (fun _ => True) (fun a => toBitmap a = 0)
      (by
        intro s a hs _ hallowed
        obtain ⟨r, s', hok, hs', hbits⟩ := hs.pmTryReleasePage env fuel hallowed
        exact ⟨r, s', hok, hs', trivial, hbits⟩)
      bytes trivial he
    exact .inl ⟨s', hresult hok, hs'⟩
  | requestPage =>
    obtain ⟨c, hready⟩ := hs.ready
    obtain ⟨hreturns, hstops⟩ := hs.pmRequestPage env hfuel hready he
    rcases Nat.lt_or_ge s.memInfo.free pageSize with hlack | henough
    · refine .inr ⟨rfl, hlack, ?_⟩
      rw [pmStep, hstops hlack]
      rfl
    · obtain ⟨s', hok, hs', -⟩ := hreturns henough
      exact .inl ⟨s', hresult hok, hs'⟩
  | requestPages num => exact absurd he id
  | requestBytes bytes => exact absurd he id

/-- The cursor of the manager: `first_free_bitmap` is the first bitmap, whose `first_free`
is its lowest free page `c`; `unset` counts the free pages and `mem_info.used` the
locked ones. -/
structure CursorAt (s : PmState) (c : ℕ) : Prop where
  bitmap : ∃ b, s.deref s.firstFreeBitmap = .ok b ∧ b.id = 0 ∧ b.super.map = .pagesBitmap0 ∧
    b.firstFree = c ∧ b.super.unset = s.freePages
  lt : c < bitmapSize
  free : s.pageBit c = false
  below : ∀ i < c, s.pageBit i = true
  used : s.memInfo.used = s.lockedPages * pageSize

theorem InCount.cursorAt (hs : InCount s) (hready : Ready s c) : CursorAt s c where
  bitmap := by
    obtain ⟨b, rest, hlist, hb, -⟩ := hready.bitmaps
    refine ⟨b, ?_, hb.id, hb.map, hb.firstFree, hs.counted.unset b (by rw [hlist]; rfl)⟩
    simp [PmState.deref, hready.first, hlist, hb.id]
  lt := hready.lt
  free := hready.free
  below := hready.below
  used := hs.counted.used

/-- **The lowest free page.**  In every run of requests, locks and releases below 128 MiB
that starts at `pm_init` and leaves a page of the first bitmap unlocked after each step,
the cursor is on the lowest unlocked page and the counters agree with the bits; the
next request returns that page or stops for lack of memory, and no other operation fails
to return. -/
theorem cursor_of_run (env : PmEnv) (fuel : ℕ) (hfuel : bitmapSize < fuel)
    (memMap : List MemSegment) (s₀ : PmState) (hinit : pmInit env fuel memMap = .ok s₀)
    (hfree : 0 < s₀.freePages) (es : List PmEvent) (s : PmState)
    (hrun : GuardedRun.Run (pmStep env fuel) LeavesFree s₀ es s) :
    ∃ c, CursorAt s c ∧
      (LeavesFree s .requestPage → pageSize ≤ s.memInfo.free →
        ∃ s', Mimik.Pm.pmRequestPage env fuel s = .ok (c * pageSize, s')) ∧
      ∀ e, LeavesFree s e → (∃ s', pmStep env fuel s e = .ok s') ∨
        (e = .requestPage ∧ s.memInfo.free < pageSize ∧ pmStep env fuel s e =
          .error (.assertion "0 && \"unimplemented: \" \"swapping\"")) := by
  have hs : InCount s := by
    refine hrun.invariant (fun s e s' hs he hstep => ?_) (pmInit_count hfuel hinit hfree).inCount
    rcases hs.step env hfuel he with ⟨s₁, hok, hs₁⟩ | ⟨-, -, hstop⟩
    · rw [hstep] at hok
      cases hok
      exact hs₁
    · rw [hstep] at hstop
      cases hstop
  obtain ⟨c, hready⟩ := hs.ready
  refine ⟨c, hs.cursorAt hready, fun hroom hmem => ?_, fun e he => ?_⟩
  · obtain ⟨s', hok, -⟩ := (hs.pmRequestPage env hfuel hready hroom).1 hmem
    exact ⟨s', hok⟩
  · rcases hs.step env hfuel he with ⟨s', hok, -⟩ | hstop
    · exact .inl ⟨s', hok⟩
    · exact .inr hstop

/-- The cursor after `pm_init` on the small machine and a request. -/
theorem cursor_of_run_flat : ∃ s₀ s c, pmInit flatEnv 40000 flatMap = .ok s₀ ∧
    pmStep flatEnv 40000 s₀ .requestPage = .ok s ∧ CursorAt s c := by
  obtain ⟨s₀, -, hinit, hroom, -⟩ := flat_run
  obtain ⟨hfree, -⟩ := room_of_roomTest hroom
  have htest : ((pmInit flatEnv 40000 flatMap).toOption.any fun s₀ =>
      (pmStep flatEnv 40000 s₀ .requestPage).toOption.any fun s => s.handed != []) = true := by
    decide +kernel
  rw [hinit] at htest
  obtain ⟨s, hstep, -⟩ := Except.exists_of_any (x := pmStep flatEnv 40000 s₀ .requestPage) htest
  obtain ⟨c, hcursor, -⟩ := cursor_of_run flatEnv 40000 (by rw [bitmapSize_eq]; decide) flatMap s₀
    hinit (by omega) [.requestPage] s (.cons hfree hstep (.nil s))
  exact ⟨s₀, s, c, hinit, hstep, hcursor⟩

end Mimik.Pm
