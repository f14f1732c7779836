/-
# Locks are real

A page is locked exactly when the manager says so, as long as no bitmap is asked for twice:
for all pages that the first bitmap has bits for, and for one call beyond them.  Every
further call beyond the first 128 MiB makes another bitmap, since `create_bitmap` gives each
the index 0 and no lookup finds it again; and the objects of two such bitmaps overlap, since
`mm_alloc` hands out chunks of 48 bytes for their 64.

In these runs the manager works on the first bitmap (`Ready`), until its last free page is
locked, and from then on on the bitmap behind it (`Elsewhere`), whatever is released.
-/
import Mimik.PmFill

namespace Mimik.Pm

section Locks

attribute [local irreducible] bitmapSize wrap64 sub64

variable {env : PmEnv} {req : RequestPage} {fuel rounds : ℕ} {s s' s₁ : PmState}
  {c id page paddr : ℕ} {b : MemBitmap} {state : Bool}

/-! ## What a call says -/

/-- The heap and the pages that a new bitmap needs are available: the page for its bits, the
pages that `mm_alloc` takes, and the page that is requested for the bitmap after it. -/
def BackingAvailable (env : PmEnv) (s : PmState) : PmEvent → Prop
  | .tryLockPage paddr | .tryReleasePage paddr => toBitmap paddr ≠ 0 →
    s.nextBitmapPage ≠ 0 ∧ env.bitmapCost s.allocCalls ≤ s.freePages ∧
      env.bitmapCost s.allocCalls * pageSize ≤ s.memInfo.free
  | _ => False

/-- The call returns, says whether the page was free (to lock) or locked (to release),
and leaves it locked or free. -/
def TellsTruth (env : PmEnv) (fuel : ℕ) (s : PmState) : PmEvent → Prop
  | .tryLockPage paddr => ∃ r s', pmTryLockPage env fuel s paddr = .ok (r, s') ∧
      (r = true ↔ s.isLocked (pageOf paddr) = false) ∧ s'.isLocked (pageOf paddr) = true
  | .tryReleasePage paddr => ∃ r s', pmTryReleasePage env fuel s paddr = .ok (r, s') ∧
      (r = true ↔ s.isLocked (pageOf paddr) = true) ∧ s'.isLocked (pageOf paddr) = false
  | _ => False

/-- There is a bitmap behind the first one: a page beyond the first 128 MiB was locked or
released before. -/
def HasLater (s : PmState) : Prop := s.memBitmaps.tail ≠ []

/-- The page is one of the first 128 MiB, or no page beyond them was locked or released
before; and the call does not lock the last free page of the first bitmap while there is no
other. -/
def Tracked (s : PmState) : PmEvent → Prop
  | .tryLockPage paddr => if toBitmap paddr = 0 then
      s.isLocked (pageOf paddr) = true ∨ 1 < s.freePages ∨ HasLater s
    else ¬ HasLater s
  | .tryReleasePage paddr => toBitmap paddr = 0 ∨ ¬ HasLater s
  | _ => False

/-- What a call on a page of the first bitmap does to the bits and to the history. -/
structure Answers (s s' : PmState) (page : ℕ) (state : Bool) : Prop where
  bits : ∀ j, s'.pageBit j = if j = page then state else s.pageBit j
  history : s'.history =
    if s.pageBit page = state then s.history else (page, state) :: s.history

/-- The last of the history counts for its page. -/
theorem isLocked_of_cons (hhist : s'.history = (page, state) :: s.history) :
    s'.isLocked page = state :=
  (isLocked_cons hhist page).trans (if_pos rfl)

/-- Other pages are as they were. -/
theorem Answers.isLocked_of_ne (h : Answers s s' page state) {i : ℕ} (hi : i ≠ page) :
    s'.isLocked i = s.isLocked i := by
  have hhist := h.history
  split at hhist
  next => exact isLocked_congr hhist i
  next => exact (isLocked_cons hhist i).trans (if_neg hi)

/-- Such a call keeps history and bits together. -/
theorem Answers.isLocked (h : Answers s s' page state) (hsync : Synced s)
    (hpage : page < bitmapSize) (i : ℕ) :
    s'.isLocked i = if i = page then state else s.isLocked i := by
  split
  next hi =>
    have hhist := h.history
    rw [hi]
    split at hhist
    next hsame => rw [isLocked_congr hhist, hsync page hpage, hsame]
    next => exact isLocked_of_cons hhist
  next hi => exact h.isLocked_of_ne hi

theorem Answers.synced (h : Answers s s' page state) (hsync : Synced s)
    (hpage : page < bitmapSize) : Synced s' := by
  intro i hi
  rw [h.isLocked hsync hpage, h.bits, hsync i hi]

/-! ## Work on a later bitmap -/

/-- The manager works on the bitmap `b` behind the first one, and this one has a free page at
its `first_free` or above. -/
structure Elsewhere (s : PmState) (c id : ℕ) (b : MemBitmap) : Prop where
  shape : Shape { s with firstFreeBitmap := .node 0 } c
  first : s.firstFreeBitmap = .node id
  pos : id ≠ 0
  found : s.memBitmaps.tail.find? (·.id == id) = some b
  size : b.super.size = bitmapSize
  map : ∃ page, b.super.map = .page page
  free : ∃ j, b.firstFree ≤ j ∧ j < bitmapSize ∧ bitAt s.maps b.super.map j = false

/-- What does not concern the ring or its bytes. -/
theorem Elsewhere.congr (hs : Elsewhere s c id b) (hlist : s'.memBitmaps = s.memBitmaps)
    (hfirst : s'.firstFreeBitmap = s.firstFreeBitmap) (hcalls : s'.allocCalls = s.allocCalls)
    (hmaps : ∀ page, s'.maps (.page page) = s.maps (.page page)) : Elsewhere s' c id b where
  shape := hs.shape.congr rfl hlist hcalls
  first := hfirst.trans hs.first
  pos := hs.pos
  found := hlist ▸ hs.found
  size := hs.size
  map := hs.map
  free := by
    obtain ⟨page, hmap⟩ := hs.map
    obtain ⟨j, hle, hlt, hclear⟩ := hs.free
    refine ⟨j, hle, hlt, ?_⟩
    rw [hmap] at hclear ⊢
    rw [bitAt, hmaps]
    exact hclear

/-- The pointer leads to that bitmap. -/
theorem Elsewhere.deref (hs : Elsewhere s c id b) : s.deref (.node id) = .ok b :=
  hs.shape.deref_later hs.pos hs.found

/-- Its index is 0, as that of every bitmap. -/
theorem Elsewhere.index (hs : Elsewhere s c id b) : b.index = 0 ∧ b.id = id := by
  obtain ⟨b₀, rest, hlist, -, hrest⟩ := hs.shape.bitmaps
  have hmem := List.mem_of_find?_eq_some hs.found
  have htail : s.memBitmaps.tail = rest := congrArg List.tail hlist
  rw [htail] at hmem
  exact ⟨(hrest b hmem).index, by simpa using List.find?_some hs.found⟩

/-- There is such a bitmap. -/
theorem Elsewhere.hasLater (hs : Elsewhere s c id b) : HasLater s := by
  intro hnil
  have hfound := hs.found
  rw [hnil] at hfound
  cases hfound

/-- A bitmap behind the first one is found again when it was written to. -/
theorem find_modify {f : MemBitmap → MemBitmap} (hf : ∀ b, (f b).id = b.id)
    (hfound : s.memBitmaps.tail.find? (·.id == id) = some b) :
    (s.modify id f).memBitmaps.tail.find? (·.id == id) = some (f b) := by
  have hid : b.id = id := by simpa using List.find?_some hfound
  have htail : (s.modify id f).memBitmaps.tail = s.memBitmaps.tail.map fun b =>
      if b.id = id then f b else b := by
    rw [PmState.modify, ← List.map_tail]
  have hkeep : ((fun b : MemBitmap => b.id == id) ∘ fun b : MemBitmap =>
      if b.id = id then f b else b) = fun b => b.id == id := by
    funext b'
    rw [Function.comp_apply]
    split
    next => rw [hf]
    next => rfl
  rw [htail, List.find?_map, hkeep, hfound, Option.map_some, if_pos hid]

/-- Moving its `first_free`, not past its last free page. -/
theorem Elsewhere.setFirstFree (hs : Elsewhere s c id b) {v : ℕ}
    (hfree : ∃ j, v ≤ j ∧ j < bitmapSize ∧ bitAt s.maps b.super.map j = false) :
    Elsewhere (s.setFirstFree id v) c id { b with firstFree := v } where
  shape := by
    have hmoved := hs.shape.modify_later hs.pos (f := fun b => { b with firstFree := v })
      fun b' hb' => ⟨hb'.id_pos, hb'.id_le, hb'.index, hb'.map⟩
    exact hmoved.congr rfl rfl rfl
  first := hs.first
  pos := hs.pos
  found := find_modify (fun _ => rfl) hs.found
  size := hs.size
  map := hs.map
  free := hfree

/-- The manager turns to the second bitmap of the ring. -/
theorem Shape.elsewhere (hs : Shape s c) (hsparse : Sparse s) {rest : List MemBitmap}
    (htail : s.memBitmaps.tail = b :: rest) :
    Elsewhere { s with firstFreeBitmap := .node b.id } c b.id b := by
  have hmem : b ∈ s.memBitmaps.tail := by rw [htail]; exact List.mem_cons_self
  obtain ⟨b₀, rest₀, hlist, -, hrest⟩ := hs.bitmaps
  have hpos : 0 < b.id := by
    rw [hlist, List.tail_cons] at hmem
    exact (hrest b hmem).id_pos
  obtain ⟨page, hmap⟩ := hsparse.map b hmem
  refine ⟨hs.congr hs.first.symm rfl rfl, rfl, hpos.ne', ?_, hsparse.size b hmem, ⟨page, hmap⟩, ?_⟩
  · show s.memBitmaps.tail.find? _ = _
    rw [htail]
    simp
  · -- at most one of its pages is locked
    have hlarge : 1 < bitmapSize := by rw [bitmapSize_eq]; decide
    rw [hsparse.firstFree b hmem, hmap]
    cases hzero : bitAt s.maps (.page page) 0 with
    | false => exact ⟨0, le_rfl, by omega, hzero⟩
    | true =>
      refine ⟨1, Nat.zero_le 1, hlarge, ?_⟩
      by_contra hone
      have := hsparse.bits page 0 1 (by omega) hlarge hzero (by simpa using hone)
      omega

/-! ## Calls on the first bitmap while the manager works on a later one -/

/-- `try_set_page` does not look at `first_free_bitmap` when the bitmap exists. -/
theorem trySetPage_pointer (env : PmEnv) (req : RequestPage) (ref : BitmapRef)
    (hfind : findBitmapByIndex s (toBitmap paddr) = some b) (state : Bool) {r : Bool}
    (hset : trySetPage env req s paddr state = .ok (r, s')) :
    trySetPage env req { s with firstFreeBitmap := ref } paddr state =
      .ok (r, { s' with firstFreeBitmap := ref }) := by
  have hfind' : findBitmapByIndex { s with firstFreeBitmap := ref } (toBitmap paddr) = some b :=
    hfind
  rw [trySetPage, hfind] at hset
  simp only [bind, Except.bind, pure, Except.pure] at hset
  cases hderef : s.deref (.node b.id) with
  | error f =>
    rw [hderef] at hset
    cases hset
  | ok b₁ =>
    have hderef' : PmState.deref { s with firstFreeBitmap := ref } (.node b.id) = .ok b₁ := hderef
    rw [hderef] at hset
    cases hset
    rw [trySetPage, hfind']
    simp only [bind, Except.bind, pure, Except.pure, hderef']
    rfl

/-- **`try_set_page` in the first 128 MiB** leaves the later bitmap alone. -/
theorem Elsewhere.trySetPage (env : PmEnv) (req : RequestPage) (hs : Elsewhere s c id b)
    (hpaddr : toBitmap paddr = 0) (state : Bool) :
    ∃ s', Mimik.Pm.trySetPage env req s paddr state =
        .ok (s.pageBit (pageOf paddr) == !state, s') ∧ Elsewhere s' c id b ∧ SameRest s s' ∧
      (∀ j, s'.pageBit j = if j = pageOf paddr then state else s.pageBit j) := by
  obtain ⟨s₁, hset, hshape, hsame, hbits, hmaps, htail⟩ :=
    trySetPage_first env req hs.shape hpaddr state
  obtain ⟨b₀, hfind, -⟩ := (hs.shape.findBitmapByIndex (toBitmap paddr)).1 hpaddr
  have hset' := trySetPage_pointer env req s.firstFreeBitmap hfind state hset
  refine ⟨{ s₁ with firstFreeBitmap := s.firstFreeBitmap }, hset', ?_,
    ⟨hsame.memInfo, hsame.nextBitmapPage, hsame.allocCalls, hsame.history, hsame.handed⟩, hbits⟩
  obtain ⟨pageNo, hmap⟩ := hs.map
  obtain ⟨j, hle, hlt, hclear⟩ := hs.free
  refine ⟨hshape.congr hshape.first.symm rfl rfl, hs.first, hs.pos, ?_, hs.size, ⟨pageNo, hmap⟩,
    j, hle, hlt, ?_⟩
  · show s₁.memBitmaps.tail.find? _ = _
    rw [htail]
    exact hs.found
  · rw [hmap] at hclear ⊢
    exact (congrArg (fun bytes => (bytes (j / 8)).getLsbD (j % 8)) (hmaps pageNo)).trans hclear

/-- **A lock.**  The search for the next free page goes on in the later bitmap and finds one. -/
theorem Elsewhere.lock (env : PmEnv) (req : RequestPage) (hrounds : bitmapSize ≤ rounds)
    (hs : Elsewhere s c id b) (hpaddr : toBitmap paddr = 0) :
    ∃ s' b', tryLockPage env req rounds s paddr = .ok (!s.pageBit (pageOf paddr), s') ∧
      Elsewhere s' c id b' ∧ Answers s s' (pageOf paddr) true := by
  obtain ⟨s₁, hset, hs₁, hsame, hbits⟩ := hs.trySetPage env req hpaddr true
  cases hbit : s.pageBit (pageOf paddr) with
  | true =>
    rw [hbit] at hset
    refine ⟨s₁, b, ?_, hs₁, hbits, ?_⟩
    · rw [tryLockPage, hset]
      rfl
    · rw [hbit, if_pos rfl, hsame.history]
  | false =>
    rw [hbit] at hset
    have hderef : s₁.deref s₁.firstFreeBitmap = .ok b := hs₁.first ▸ hs₁.deref
    obtain ⟨hindex, hid⟩ := hs₁.index
    -- the lowest free page from `first_free` on
    have hex : ∃ j, b.firstFree ≤ j ∧ j < bitmapSize ∧ bitAt s₁.maps b.super.map j = false :=
      hs₁.free
    obtain ⟨hle, hlt, hclear⟩ := Nat.find_spec hex
    have hbelow : ∀ i, b.firstFree ≤ i → i < Nat.find hex →
        bitAt s₁.maps b.super.map i = true := by
      intro i hi hj
      have hmin := Nat.find_min hex hj
      by_contra hne
      exact hmin ⟨hi, lt_trans hj hlt, by simpa using hne⟩
    have hscan := findFirstFreeIndex_scan env req (by rw [bitmapSize_eq]; decide) rounds s₁ b
      hderef hs₁.size rfl (lt_of_le_of_lt hle hlt) hle hlt.le (fun _ => hclear) hbelow (by omega)
    rw [decide_eq_true hlt, hid] at hscan
    have hrun : tryLockPage env req rounds s paddr = .ok (true,
        (if Nat.find hex = b.firstFree then s₁
          else s₁.setFirstFree id (Nat.find hex)).pageLocked paddr) := by
      rw [tryLockPage, hset]
      simp only [bind, Except.bind, Bool.not_true, beq_self_eq_true, if_true, hderef, hindex,
        hpaddr, hscan, pure, Except.pure]
    have hmoved := hs₁.setFirstFree ⟨_, le_rfl, hlt, hclear⟩
    have hanswers : ∀ s₂, (∀ j, s₂.pageBit j = s₁.pageBit j) →
        s₂.history = (pageOf paddr, true) :: s₁.history →
        Answers s s₂ (pageOf paddr) true := by
      intro s₂ hbits₂ hhist
      refine ⟨fun j => (hbits₂ j).trans (hbits j), ?_⟩
      rw [hbit, if_neg Bool.false_ne_true, hhist, hsame.history]
    split at hrun
    next => exact ⟨_, b, hrun, hs₁.congr rfl rfl rfl fun _ => rfl, hanswers _ (fun _ => rfl) rfl⟩
    next =>
      exact ⟨_, _, hrun, hmoved.congr rfl rfl rfl fun _ => rfl, hanswers _ (fun _ => rfl) rfl⟩

/-- **A release.**  It can move `first_free` of the later bitmap down. -/
theorem Elsewhere.release (env : PmEnv) (req : RequestPage) (hs : Elsewhere s c id b)
    (hpaddr : toBitmap paddr = 0) :
    ∃ s' b', tryReleasePage env req s paddr = .ok (s.pageBit (pageOf paddr), s') ∧
      Elsewhere s' c id b' ∧ Answers s s' (pageOf paddr) false := by
  obtain ⟨s₁, hset, hs₁, hsame, hbits⟩ := hs.trySetPage env req hpaddr false
  cases hbit : s.pageBit (pageOf paddr) with
  | false =>
    rw [hbit] at hset
    refine ⟨s₁, b, ?_, hs₁, hbits, ?_⟩
    · rw [tryReleasePage, hset]
      rfl
    · rw [hbit, if_pos rfl, hsame.history]
  | true =>
    rw [hbit] at hset
    have hderef : s₁.deref s₁.firstFreeBitmap = .ok b := hs₁.first ▸ hs₁.deref
    obtain ⟨hindex, hid⟩ := hs₁.index
    have hrun : tryReleasePage env req s paddr = .ok (true,
        (if toIndex paddr < b.firstFree then s₁.setFirstFree id (toIndex paddr)
          else s₁).pageReleased paddr) := by
      rw [tryReleasePage, hset]
      simp only [bind, Except.bind, Bool.not_false, beq_self_eq_true, if_true, hderef, hindex,
        hpaddr, lt_irrefl, if_false, pure, Except.pure, true_and, hid]
    have hanswers : ∀ s₂, (∀ j, s₂.pageBit j = s₁.pageBit j) →
        s₂.history = (pageOf paddr, false) :: s₁.history →
        Answers s s₂ (pageOf paddr) false := by
      intro s₂ hbits₂ hhist
      refine ⟨fun j => (hbits₂ j).trans (hbits j), ?_⟩
      rw [hbit, if_neg (by decide), hhist, hsame.history]
    split at hrun
    next hlow =>
      obtain ⟨j, hle, hlt, hclear⟩ := hs₁.free
      have hmoved := hs₁.setFirstFree (v := toIndex paddr) ⟨j, by omega, hlt, hclear⟩
      exact ⟨_, _, hrun, hmoved.congr rfl rfl rfl fun _ => rfl, hanswers _ (fun _ => rfl) rfl⟩
    next => exact ⟨_, b, hrun, hs₁.congr rfl rfl rfl fun _ => rfl, hanswers _ (fun _ => rfl) rfl⟩

/-! ## Calls on the first bitmap while the manager works on it -/

/-- The manager works on the first bitmap, or behind it. -/
def Works (s : PmState) : Prop :=
  (∃ c, Ready s c ∧ Sparse s) ∨ ∃ c id b, Elsewhere s c id b

/-- **The lock of the last free page** of the first bitmap turns to the second. -/
theorem lock_last (env : PmEnv) (req : RequestPage) (hs : Shape s c) (hsparse : Sparse s)
    (hpaddr : toBitmap paddr = 0) (hlast : s.freeSet = {pageOf paddr}) (hc : c ≤ bitmapSize)
    (hrounds : bitmapSize < rounds) {rest : List MemBitmap}
    (htail : s.memBitmaps.tail = b :: rest) :
    ∃ s' c' b', tryLockPage env req rounds s paddr = .ok (true, s') ∧
      Elsewhere s' c' b.id b' ∧ Answers s s' (pageOf paddr) true ∧
      (b'.super = b.super ∧ b'.firstFree ≤ 2) ∧
      ∀ page, s'.maps (.page page) = s.maps (.page page) := by
  have hfree : s.pageBit (pageOf paddr) = false :=
    (PmState.mem_freeSet.mp (hlast ▸ Finset.mem_singleton_self _)).2
  obtain ⟨s₁, ⟨hshape, hsame, hfull, hbits, hmaps, htail₁⟩, hlock⟩ :=
    tryLockPage_filled env req rounds hs hpaddr hlast
  have hsparse₁ : Sparse s₁ := hsparse.congr htail₁ hmaps
  replace htail₁ := htail₁.trans htail
  have hmem : b ∈ s₁.memBitmaps.tail := by rw [htail₁]; exact List.mem_cons_self
  have hanswers : ∀ s₂ : PmState, s₂.maps = s₁.maps → s₂.history = s₁.history →
      Answers s (s₂.pageLocked paddr) (pageOf paddr) true := by
    intro s₂ hmaps₂ hhist₂
    refine ⟨fun j => ?_, ?_⟩
    · rw [← hbits j]
      exact congrArg (fun maps => bitAt maps .pagesBitmap0 j) hmaps₂
    · rw [hfree, if_neg Bool.false_ne_true, PmState.pageLocked_history, hhist₂, hsame.history]
  rcases Nat.lt_or_eq_of_le hc with hlt | rfl
  · have hon := (hshape.setFirstFree bitmapSize).elsewhere
      (hsparse₁.congr (hshape.modify_tail _) fun _ => rfl) ((hshape.modify_tail _).trans htail₁)
    rw [hlock, searchNext_cons hshape hfull hsparse₁ hlt hrounds htail₁]
    exact ⟨_, _, b, rfl, hon.congr rfl rfl rfl fun _ => rfl, hanswers _ rfl rfl,
      ⟨rfl, (hsparse₁.firstFree b hmem).trans_le (Nat.zero_le 2)⟩, hmaps⟩
  · obtain ⟨j, hj, hclear, hsearch⟩ :=
      @searchNext_end env req _ _ hshape hsparse₁ hrounds _ _ htail₁
    have hlarge : 2 < bitmapSize := by rw [bitmapSize_eq]; decide
    have hon := (hshape.elsewhere hsparse₁ htail₁).setFirstFree (v := j)
      ⟨j, le_rfl, by omega, hclear⟩
    rw [hlock, hsearch]
    exact ⟨_, _, _, rfl, hon.congr rfl rfl rfl fun _ => rfl, hanswers _ rfl rfl, ⟨rfl, hj⟩, hmaps⟩

/-- The ring behind the first bitmap is the same, and so are its bytes. -/
theorem Works.of_first (hs : Ready s c) (hsparse : Sparse s₁)
    (htail : s.memBitmaps.tail = s₁.memBitmaps.tail)
    (hmaps : ∀ page, s.maps (.page page) = s₁.maps (.page page)) :
    Works s ∧ (HasLater s ↔ HasLater s₁) :=
  ⟨.inl ⟨c, hs, hsparse.congr htail hmaps⟩, by rw [HasLater, HasLater, htail]⟩

/-- Writing the bit that is there changes none. -/
theorem bits_of_same (hbits : ∀ j, s₁.pageBit j = if j = page then state else s.pageBit j)
    (hbit : s.pageBit page = state) (j : ℕ) : s₁.pageBit j = s.pageBit j := by
  rw [hbits]
  split
  next hj => rw [hj, hbit]
  next => rfl

/-- **A lock in the first 128 MiB** tells the truth. -/
theorem Works.lock (env : PmEnv) (req : RequestPage) (hrounds : bitmapSize < rounds)
    (hs : Works s) (hpaddr : toBitmap paddr = 0)
    (htracked : s.pageBit (pageOf paddr) = true ∨ 1 < s.freePages ∨ HasLater s) :
    ∃ s', tryLockPage env req rounds s paddr = .ok (!s.pageBit (pageOf paddr), s') ∧
      Answers s s' (pageOf paddr) true ∧ Works s' ∧ (HasLater s' ↔ HasLater s) := by
  rcases hs with ⟨c, hready, hsparse⟩ | ⟨c, id, b, hs⟩
  · obtain ⟨s₁, hset, hshape, hsame, hbits, hmaps, htail⟩ :=
      trySetPage_first env req hready.toShape hpaddr true
    cases hbit : s.pageBit (pageOf paddr) with
    | true =>
      rw [hbit] at hset
      refine ⟨s₁, ?_, ⟨hbits, ?_⟩, Works.of_first
        (hready.of_bits hshape (bits_of_same hbits hbit)) hsparse htail hmaps⟩
      · rw [tryLockPage, hset]
        rfl
      · rw [hbit, if_pos rfl, hsame.history]
    | false =>
      have hpage := toBitmap_eq_zero_iff.mp hpaddr
      by_cases hroom : 1 < s.freePages
      · obtain ⟨s₂, j, hset₂, hready', hlock⟩ := tryLockPage_first_eq env req hready.toShape
          (fun i hi _ => hready.below i hi) hrounds.le hpaddr hbit hroom
        rw [hset, hbit] at hset₂
        cases hset₂
        have hshape' : Shape ((s₁.setFirstFree 0 j).pageLocked paddr) j :=
          hready'.toShape.congr rfl rfl rfl
        refine ⟨_, hlock, ⟨hbits, ?_⟩, Works.of_first
          ⟨hshape', hready'.lt, hready'.free, hready'.below⟩ hsparse
          ((hshape.modify_tail _).trans htail) hmaps⟩
        rw [hbit, if_neg Bool.false_ne_true]
        exact congrArg _ hsame.history
      · -- the page is the last free one
        have hmem : pageOf paddr ∈ s.freeSet := PmState.mem_freeSet.mpr ⟨hpage, hbit⟩
        have hcard : s.freeSet.card ≤ 1 := Nat.le_of_not_lt hroom
        have hlast : s.freeSet = {pageOf paddr} := by
          refine Finset.eq_singleton_iff_unique_mem.mpr ⟨hmem, fun i hi => ?_⟩
          exact Finset.card_le_one.mp hcard i hi _ hmem
        have hlater : HasLater s := by
          rcases htracked with hlocked | hroom' | hlater
          · rw [hbit] at hlocked
            cases hlocked
          · exact absurd hroom' hroom
          · exact hlater
        obtain ⟨b, rest, hring⟩ := List.exists_cons_of_ne_nil hlater
        obtain ⟨s', c', b', hok, hs', hanswers, -⟩ := lock_last env req hready.toShape hsparse
          hpaddr hlast hready.lt.le hrounds hring
        exact ⟨s', hok, hanswers, .inr ⟨c', b.id, b', hs'⟩, iff_of_true hs'.hasLater hlater⟩
  · obtain ⟨s', b', hok, hs', hanswers⟩ := hs.lock env req hrounds.le hpaddr
    exact ⟨s', hok, hanswers, .inr ⟨c, id, b', hs'⟩, iff_of_true hs'.hasLater hs.hasLater⟩

/-- **A release in the first 128 MiB** tells the truth. -/
theorem Works.release (env : PmEnv) (req : RequestPage) (hs : Works s)
    (hpaddr : toBitmap paddr = 0) :
    ∃ s', tryReleasePage env req s paddr = .ok (s.pageBit (pageOf paddr), s') ∧
      Answers s s' (pageOf paddr) false ∧ Works s' ∧ (HasLater s' ↔ HasLater s) := by
  rcases hs with ⟨c, hready, hsparse⟩ | ⟨c, id, b, hs⟩
  · obtain ⟨s₁, hset, hshape, hsame, hbits, hmaps, htail⟩ :=
      trySetPage_first env req hready.toShape hpaddr false
    cases hbit : s.pageBit (pageOf paddr) with
    | false =>
      rw [hbit] at hset
      refine ⟨s₁, ?_, ⟨hbits, ?_⟩, Works.of_first
        (hready.of_bits hshape (bits_of_same hbits hbit)) hsparse htail hmaps⟩
      · rw [tryReleasePage, hset]
        rfl
      · rw [hbit, if_pos rfl, hsame.history]
    | true =>
      obtain ⟨s₂, j, hset₂, hready', hrelease⟩ :=
        tryReleasePage_first_eq env req hready hpaddr hbit
      rw [hset, hbit] at hset₂
      cases hset₂
      have hshape' : Shape ((s₁.setFirstFree 0 j).pageReleased paddr) j :=
        hready'.toShape.congr rfl rfl rfl
      refine ⟨_, hrelease, ⟨hbits, ?_⟩, Works.of_first
        ⟨hshape', hready'.lt, hready'.free, hready'.below⟩ hsparse
        ((hshape.modify_tail _).trans htail) hmaps⟩
      rw [hbit, if_neg (by decide)]
      exact congrArg _ hsame.history
  · obtain ⟨s', b', hok, hs', hanswers⟩ := hs.release env req hpaddr
    exact ⟨s', hok, hanswers, .inr ⟨c, id, b', hs'⟩, iff_of_true hs'.hasLater hs.hasLater⟩

/-! ## The first call beyond 128 MiB -/

/-- The bitmap behind the first one is clear, and its `first_free` is close to the start. -/
structure AtStart (s : PmState) (b : MemBitmap) : Prop where
  clear : ∀ i < bitmapSize, bitAt s.maps b.super.map i = false
  firstFree : b.firstFree ≤ 2

/-- From `s` to `s'`, the history has followed the bits of the first bitmap. -/
structure Follows (s s' : PmState) : Prop where
  synced : Synced s → Synced s'
  far : ∀ i, bitmapSize ≤ i → s'.isLocked i = s.isLocked i

/-- **`create_bitmap` takes the last pages** of the first bitmap: the new one is found when the
last of them is locked. -/
theorem createBitmap_last (hfuel : bitmapSize + 1 < fuel) (hs : Ready s c) (hsparse : Sparse s)
    (hnone : ¬ HasLater s) (hnext : s.nextBitmapPage ≠ 0)
    (hcost : env.bitmapCost s.allocCalls = s.freePages)
    (hmem : env.bitmapCost s.allocCalls * pageSize ≤ s.memInfo.free) (index : ℕ) :
    ∃ id s' c' b, createBitmap env (pmRequestPage env fuel) s index = .ok (id, s') ∧
      Elsewhere s' c' id b ∧ AtStart s' b ∧ Follows s s' := by
  obtain ⟨fuel, rfl⟩ := Nat.exists_eq_add_of_le' (Nat.one_le_of_lt hfuel)
  have hreq : RequestOk (pmRequestPage env (fuel + 1)) := requestOk (by omega)
  have hpages : env.bitmapCost s.allocCalls = env.heapPages s.allocCalls + 1 := rfl
  rw [hpages, Nat.add_mul, Nat.one_mul] at hmem
  have hheap : env.heapPages s.allocCalls < s.freePages := by omega
  -- the object
  obtain ⟨hreturns, hpost⟩ := mmAllocBitmap_spec hreq hs hheap
  obtain ⟨⟨id, s₁⟩, halloc⟩ := hreturns (by omega)
  obtain ⟨rfl, htook, hcalls, hnext₁, htail, hfree⟩ := hpost id s₁ halloc
  have hsparse₁ := hsparse.mmAllocBitmap hreq hs hheap halloc
  obtain ⟨c₁, hs₁⟩ := htook.ready
  -- its place in the ring
  obtain ⟨hready, htook', -⟩ := linkBitmap_spec (s.allocCalls + 1) hs₁ (Nat.succ_pos _) hcalls.ge
    (htail ▸ hs.id_ne)
  obtain ⟨-, hring, -, hclear, -⟩ :=
    linkBitmap_shape (s.allocCalls + 1) hs₁.toShape (Nat.succ_pos _) hcalls.ge
  have hsparse₂ := hsparse₁.linkBitmap hs₁.toShape (Nat.succ_pos _) hcalls.ge
  rw [htail, not_not.mp hnone, List.nil_append] at hring
  -- the last page
  have hall := htook.trans htook'
  have hcount := hall.pages
  have hlast : (linkBitmap s₁ .head (s.allocCalls + 1)).freeSet = {c₁} := by
    have hone : (linkBitmap s₁ .head (s.allocCalls + 1)).freeSet.card ≤ 1 := by
      show (linkBitmap s₁ .head (s.allocCalls + 1)).freePages ≤ 1
      omega
    have hmem : c₁ ∈ (linkBitmap s₁ .head (s.allocCalls + 1)).freeSet :=
      PmState.mem_freeSet.mpr ⟨hready.lt, hready.free⟩
    exact Finset.eq_singleton_iff_unique_mem.mpr
      ⟨hmem, fun i hi => Finset.card_le_one.mp hone i hi _ hmem⟩
  have hpage : pageOf (c₁ * pageSize) = c₁ := pageOf_mul c₁
  have hnear : toBitmap (c₁ * pageSize) = 0 := by
    rw [toBitmap_eq_zero_iff, hpage]
    exact hready.lt
  have hrounds : bitmapSize < fuel := by omega
  obtain ⟨s₃, c', b', hlock, hs₃, hanswers, ⟨hsuper, hcursor⟩, hmaps⟩ := lock_last env
    (pmRequestPage env fuel) (hready.toShape.setFirstFree (c₁ + 1))
    (hsparse₂.congr (hready.toShape.modify_tail _) fun _ => rfl) hnear
    (by rw [hpage]; exact hlast) hready.lt hrounds
    ((hready.toShape.modify_tail _).trans hring)
  have hrequest : pmRequestPage env (fuel + 1) (linkBitmap s₁ .head (s.allocCalls + 1)) =
      .ok (c₁ * pageSize, { s₃ with handed := c₁ * pageSize :: s₃.handed }) := by
    rw [pmRequestPage_ready env fuel hready (show pageSize ≤ s₁.memInfo.free by omega), hlock]
    rfl
  refine ⟨s.allocCalls + 1, { s₃ with
      handed := c₁ * pageSize :: s₃.handed, nextBitmapPage := c₁ * pageSize }, c', b', ?_,
    hs₃.congr rfl rfl rfl fun _ => rfl, ⟨fun i hi => ?_, hcursor⟩, fun hsync => ?_,
    fun i hi => ?_⟩
  · have hpage : (s₁.nextBitmapPage != 0) = true := by
      rw [hnext₁]
      simpa using hnext
    rw [createBitmap, hs.find_above index]
    simp only [bind, Except.bind, halloc, hpage, assert_true, hrequest, pure, Except.pure]
  · have hmap : b'.super.map = .page s₁.nextBitmapPage := congrArg Bitmap.map hsuper
    rw [hmap]
    exact (congrArg (fun bytes => (bytes (i / 8)).getLsbD (i % 8)) (hmaps _)).trans (hclear i hi)
  · have hsync₃ := hanswers.synced (hall.synced hsync) (hpage.symm ▸ hready.lt)
    exact hsync₃
  · have hne : i ≠ pageOf (c₁ * pageSize) := by
      have hlt := hready.lt
      omega
    exact (hanswers.isLocked_of_ne hne).trans (hall.far i hi)

/-- Setting a page of the later bitmap leaves it another free one. -/
theorem Elsewhere.set (hs : Elsewhere s c id b) (hstart : AtStart s b) (hindex : page < bitmapSize)
    (state : Bool) : ∃ sts super maps, bitmapSet s.maps b.super page state = (sts, super, maps) ∧
      (sts = success ↔ state = true) ∧
      Elsewhere { s.modify id (fun b => { b with super := super }) with maps := maps } c id
        { b with super := super } ∧ ∀ j, bitAt maps .pagesBitmap0 j = s.pageBit j := by
  obtain ⟨sts, super, maps, hset, hmap, hsize, hsts, hbits, hother⟩ :=
    bitmapSet_spec s.maps b.super state (hs.size.symm ▸ hindex)
  obtain ⟨pageNo, hpage⟩ := hs.map
  have hfirst : ∀ j, bitAt maps .pagesBitmap0 j = s.pageBit j := by
    intro j
    have hbytes := hother .pagesBitmap0 (by rw [hpage]; simp)
    exact congrArg (fun bytes => (bytes (j / 8)).getLsbD (j % 8)) hbytes
  refine ⟨sts, super, maps, hset, ?_, ?_, hfirst⟩
  · rw [hsts, hstart.clear page hindex]
    cases state <;> simp
  · have hmoved := hs.shape.modify_later hs.pos (f := fun b => { b with super := super })
      fun b' hb' => ⟨hb'.id_pos, hb'.id_le, hb'.index, by rw [hmap, hpage]; simp⟩
    refine ⟨hmoved.congr rfl rfl rfl, hs.first, hs.pos, ?_, hsize.trans hs.size,
      ⟨pageNo, hmap.trans hpage⟩, ?_⟩
    · exact find_modify (f := fun b => { b with super := super }) (fun _ => rfl) hs.found
    · -- one of the pages 2 and 3 is not the one that is set
      have hlarge : 3 < bitmapSize := by rw [bitmapSize_eq]; decide
      have hcursor : b.firstFree ≤ 2 := hstart.firstFree
      by_cases htwo : page = 2
      · refine ⟨3, Nat.le_succ_of_le hcursor, hlarge, ?_⟩
        rw [hmap, hbits, if_neg (by omega), hstart.clear 3 hlarge]
      · refine ⟨2, hcursor, by omega, ?_⟩
        rw [hmap, hbits, if_neg (Ne.symm htwo), hstart.clear 2 (by omega)]

/-- A call beyond the first 128 MiB leaves a bitmap there. -/
theorem trySetPage_hasLater (hfuel : bitmapSize < fuel) (hs : Ready s c)
    (hpaddr : toBitmap paddr ≠ 0) (hroom : env.bitmapCost s.allocCalls < s.freePages) {r : Bool}
    (hok : trySetPage env (pmRequestPage env fuel) s paddr state = .ok (r, s')) :
    HasLater s' := by
  rw [trySetPage, (hs.findBitmapByIndex _).2 hpaddr] at hok
  obtain ⟨⟨id, s₁⟩, hcreate, hok⟩ := Except.bind_eq_ok_iff.mp hok
  obtain ⟨-, -, -, b, page, hfound, -⟩ :=
    (createBitmap_spec (requestOk hfuel) hs (toBitmap paddr) hroom).2 id s₁ hcreate
  obtain ⟨b₁, -, hret⟩ := Except.bind_eq_ok_iff.mp hok
  rcases hset : bitmapSet s₁.maps b₁.super (toIndex paddr) state with ⟨sts, super, maps⟩
  simp only [hset] at hret
  cases hret
  intro hnil
  have hfound' := find_modify (f := fun b => { b with super := super }) (fun _ => rfl) hfound
  rw [show (s₁.modify id fun b => { b with super := super }).memBitmaps.tail = [] from hnil]
    at hfound'
  cases hfound'

/-- **The first `try_set_page` beyond the first 128 MiB** succeeds exactly when the page is to be
locked. -/
theorem trySetPage_far (hfuel : bitmapSize + 1 < fuel) (hs : Works s) (hnone : ¬ HasLater s)
    (hpaddr : toBitmap paddr ≠ 0) (hnext : s.nextBitmapPage ≠ 0)
    (hcost : env.bitmapCost s.allocCalls ≤ s.freePages)
    (hmem : env.bitmapCost s.allocCalls * pageSize ≤ s.memInfo.free) (state : Bool) :
    ∃ s', trySetPage env (pmRequestPage env fuel) s paddr state = .ok (state, s') ∧
      Works s' ∧ HasLater s' ∧ Follows s s' := by
  rcases hs with ⟨c, hready, hsparse⟩ | ⟨c, id, b, hs⟩
  · rcases Nat.lt_or_eq_of_le hcost with hroom | hlast
    · have hreq : RequestOk (pmRequestPage env fuel) := requestOk (by omega)
      obtain ⟨hreturns, hpost⟩ := trySetPage_later hreq hready hpaddr state hroom
      obtain ⟨⟨r, s'⟩, hok⟩ := hreturns hnext hmem
      obtain ⟨rfl, htook, -⟩ := hpost r s' hok
      obtain ⟨c', hready'⟩ := htook.ready
      exact ⟨s', hok, .inl ⟨c', hready', hsparse.trySetPage hreq hready hpaddr hroom hok⟩,
        trySetPage_hasLater (by omega) hready hpaddr hroom hok, htook.synced, htook.far⟩
    · obtain ⟨id, s₁, c', b, hcreate, hs₁, hstart, hfollows⟩ :=
        createBitmap_last hfuel hready hsparse hnone hnext hlast hmem (toBitmap paddr)
      obtain ⟨sts, super, maps, hset, hsts, hs', hbits⟩ := hs₁.set hstart (toIndex_lt paddr) state
      refine ⟨_, ?_, .inr ⟨c', id, _, hs'⟩, hs'.hasLater, fun hsync i hi => ?_, hfollows.far⟩
      · rw [trySetPage, (hready.findBitmapByIndex _).2 hpaddr]
        simp only [bind, Except.bind, hcreate, hs₁.deref, hset, pure, Except.pure, Except.ok.injEq,
          Prod.mk.injEq, and_true]
        rw [Bool.eq_iff_iff, beq_iff_eq, hsts]
      · exact (hfollows.synced hsync i hi).trans (hbits i).symm
  · exact absurd hs.hasLater hnone

/-- **A lock there** succeeds. -/
theorem Works.lock_far (hfuel : bitmapSize + 1 < fuel) (hs : Works s) (hnone : ¬ HasLater s)
    (hpaddr : toBitmap paddr ≠ 0) (hnext : s.nextBitmapPage ≠ 0)
    (hcost : env.bitmapCost s.allocCalls ≤ s.freePages)
    (hmem : env.bitmapCost s.allocCalls * pageSize ≤ s.memInfo.free) :
    ∃ s', pmTryLockPage env fuel s paddr = .ok (true, s') ∧ Works s' ∧ HasLater s' ∧
      (Synced s → Synced s') ∧ s'.isLocked (pageOf paddr) = true := by
  obtain ⟨s₁, hset, hs₁, hlater, hfollows⟩ :=
    trySetPage_far hfuel hs hnone hpaddr hnext hcost hmem true
  have hhist := PmState.pageLocked_history s₁ paddr
  have hfar : ∀ i < bitmapSize, i ≠ pageOf paddr := by
    rintro i hi rfl
    exact hpaddr (toBitmap_eq_zero_iff.mpr hi)
  have hsync : Synced s → Synced (s₁.pageLocked paddr) := by
    intro hsync i hi
    rw [isLocked_cons hhist, if_neg (hfar i hi)]
    exact hfollows.synced hsync i hi
  obtain ⟨b, hderef, hindex⟩ : ∃ b, s₁.deref s₁.firstFreeBitmap = .ok b ∧ b.index = 0 := by
    rcases hs₁ with ⟨c, hready, -⟩ | ⟨c, id, b, hs₁⟩
    · obtain ⟨b, hderef, hb⟩ := hready.deref
      exact ⟨b, hready.first ▸ hderef, hb.index⟩
    · exact ⟨b, hs₁.first ▸ hs₁.deref, hs₁.index.1⟩
  refine ⟨s₁.pageLocked paddr, ?_, ?_, hlater, hsync, isLocked_of_cons hhist⟩
  · rw [pmTryLockPage, tryLockPage, hset]
    simp only [bind, Except.bind, if_true, hderef, hindex, if_neg (Ne.symm hpaddr), pure,
      Except.pure]
  · rcases hs₁ with ⟨c, hready, hsparse⟩ | ⟨c, id, b, hs₁⟩
    · exact .inl ⟨c, ⟨hready.toShape.congr rfl rfl rfl, hready.lt, hready.free, hready.below⟩,
        hsparse.congr rfl fun _ => rfl⟩
    · exact .inr ⟨c, id, b, hs₁.congr rfl rfl rfl fun _ => rfl⟩

/-- **A release there** fails. -/
theorem Works.release_far (hfuel : bitmapSize + 1 < fuel) (hs : Works s) (hnone : ¬ HasLater s)
    (hpaddr : toBitmap paddr ≠ 0) (hnext : s.nextBitmapPage ≠ 0)
    (hcost : env.bitmapCost s.allocCalls ≤ s.freePages)
    (hmem : env.bitmapCost s.allocCalls * pageSize ≤ s.memInfo.free) :
    ∃ s', pmTryReleasePage env fuel s paddr = .ok (false, s') ∧ Works s' ∧ HasLater s' ∧
      Follows s s' := by
  obtain ⟨s₁, hset, hs₁, hlater, hfollows⟩ :=
    trySetPage_far hfuel hs hnone hpaddr hnext hcost hmem false
  refine ⟨s₁, ?_, hs₁, hlater, hfollows⟩
  rw [pmTryReleasePage, tryReleasePage, hset]
  rfl

/-! ## Runs -/

/-- The manager is in order: it works, its history agrees with the bits of the first bitmap, and
without another bitmap no page beyond is locked. -/
structure InOrder (s : PmState) : Prop where
  works : Works s
  synced : Synced s
  far : ¬ HasLater s → ∀ i, bitmapSize ≤ i → s.isLocked i = false

/-- A call on a page of the first bitmap keeps it so. -/
theorem InOrder.of_answers (hs : InOrder s) (hpaddr : toBitmap paddr = 0)
    (h : Answers s s' (pageOf paddr) state) (hworks : Works s')
    (hlater : HasLater s' ↔ HasLater s) : InOrder s' where
  works := hworks
  synced := h.synced hs.synced (toBitmap_eq_zero_iff.mp hpaddr)
  far hnone i hi := by
    have hpage := toBitmap_eq_zero_iff.mp hpaddr
    rw [h.isLocked_of_ne (by omega)]
    exact hs.far (fun h => hnone (hlater.mpr h)) i hi

/-- **A tracked call** tells the truth and leaves the manager in order. -/
theorem InOrder.call (hfuel : bitmapSize + 1 < fuel) (hs : InOrder s) {e : PmEvent}
    (he : BackingAvailable env s e) (htracked : Tracked s e) :
    TellsTruth env fuel s e ∧ ∀ s', pmStep env fuel s e = .ok s' → InOrder s' := by
  cases e with
  | tryLockPage paddr =>
    by_cases hnear : toBitmap paddr = 0
    · rw [Tracked, if_pos hnear] at htracked
      have hpage := toBitmap_eq_zero_iff.mp hnear
      rw [hs.synced _ hpage] at htracked
      obtain ⟨s₁, hok, hanswers, hworks, hlater⟩ :=
        hs.works.lock env (pmRequestPage env fuel) (by omega : bitmapSize < fuel) hnear htracked
      have hlocked := hanswers.isLocked hs.synced hpage (pageOf paddr)
      rw [if_pos rfl] at hlocked
      refine ⟨⟨_, s₁, hok, by rw [hs.synced _ hpage]; simp, hlocked⟩, fun s' hstep => ?_⟩
      rw [pmStep, pmTryLockPage, hok] at hstep
      cases hstep
      exact hs.of_answers hnear hanswers hworks hlater
    · rw [Tracked, if_neg hnear] at htracked
      obtain ⟨hnext, hcost, hmem⟩ := he hnear
      obtain ⟨s₁, hok, hworks, hlater, hsync, hlocked⟩ :=
        hs.works.lock_far hfuel htracked hnear hnext hcost hmem
      have hfree := hs.far htracked (pageOf paddr)
        (Nat.le_of_not_lt fun h => hnear (toBitmap_eq_zero_iff.mpr h))
      refine ⟨⟨true, s₁, hok, by simp [hfree], hlocked⟩, fun s' hstep => ?_⟩
      rw [pmStep, hok] at hstep
      cases hstep
      exact ⟨hworks, hsync hs.synced, fun hnone => absurd hlater hnone⟩
  | tryReleasePage paddr =>
    by_cases hnear : toBitmap paddr = 0
    · have hpage := toBitmap_eq_zero_iff.mp hnear
      obtain ⟨s₁, hok, hanswers, hworks, hlater⟩ :=
        hs.works.release env (pmRequestPage env fuel) hnear
      have hlocked := hanswers.isLocked hs.synced hpage (pageOf paddr)
      rw [if_pos rfl] at hlocked
      refine ⟨⟨_, s₁, hok, by rw [hs.synced _ hpage], hlocked⟩, fun s' hstep => ?_⟩
      rw [pmStep, pmTryReleasePage, hok] at hstep
      cases hstep
      exact hs.of_answers hnear hanswers hworks hlater
    · have hnone := htracked.resolve_left hnear
      obtain ⟨hnext, hcost, hmem⟩ := he hnear
      obtain ⟨s₁, hok, hworks, hlater, hfollows⟩ :=
        hs.works.release_far hfuel hnone hnear hnext hcost hmem
      have hfar : bitmapSize ≤ pageOf paddr :=
        Nat.le_of_not_lt fun h => hnear (toBitmap_eq_zero_iff.mpr h)
      have hfree := hs.far hnone (pageOf paddr) hfar
      refine ⟨⟨false, s₁, hok, by simp [hfree], (hfollows.far _ hfar).trans hfree⟩,
        fun s' hstep => ?_⟩
      rw [pmStep, hok] at hstep
      cases hstep
      exact ⟨hworks, hfollows.synced hs.synced, fun hnone => absurd hlater hnone⟩
  | _ => exact absurd he id

/-- **The lock state is real while calls are tracked.**  In every run of locks and releases that
follows `pm_init`, with the heap and the pages for a new bitmap available, every call tells the
truth, when those before it and the call itself concern pages of the first 128 MiB, or are the
first beyond them, and none locks the last free page of the first bitmap without another. -/
theorem tellsTruth_of_run (env : PmEnv) (fuel : ℕ) (hfuel : bitmapSize + 1 < fuel)
    (memMap : List MemSegment) (s₀ : PmState) (hinit : pmInit env fuel memMap = .ok s₀)
    (hfree : 0 < s₀.freePages) (es : List PmEvent) (s : PmState)
    (hrun : GuardedRun.Run (pmStep env fuel)
      (fun s e => BackingAvailable env s e ∧ Tracked s e) s₀ es s)
    (e : PmEvent) (he : BackingAvailable env s e) (htracked : Tracked s e) :
    TellsTruth env fuel s e := by
  have hsmall : bitmapSize < fuel := by omega
  have hboot := pmInit_spec hsmall hinit hfree
  have hcount := pmInit_count hsmall hinit hfree
  obtain ⟨c, hready⟩ := hboot.ready
  have hstart : InOrder s₀ := ⟨.inl ⟨c, hready, hcount.alone.sparse⟩, hboot.synced,
    fun _ => hcount.far⟩
  have hs : InOrder s :=
    hrun.invariant (fun _ _ _ hs he hstep => (hs.call hfuel he.1 he.2).2 _ hstep) hstart
  exact (hs.call hfuel he htracked).1

end Locks

/-! ## Runs on a small machine -/

/-- Where `roomTest` holds, a bitmap can be made. -/
theorem backingAvailable_of_roomTest {s : PmState} (htest : roomTest s = true) :
    BackingAvailable flatEnv s (.tryLockPage (2 ^ 27)) := by
  obtain ⟨hroom, hnext, hmem⟩ := room_of_roomTest htest
  have hcost : flatEnv.bitmapCost s.allocCalls = 1 := rfl
  intro _
  rw [hcost, Nat.one_mul]
  exact ⟨hnext, hroom.le, hmem⟩

/-- After a lock of the page at 128 MiB, the first one beyond the first bitmap, a lock of a page
of the first bitmap tells the truth. -/
theorem tellsTruth_of_run_flat : ∃ s₀ s, pmInit flatEnv 40000 flatMap = .ok s₀ ∧
    pmStep flatEnv 40000 s₀ (.tryLockPage (2 ^ 27)) = .ok s ∧
    TellsTruth flatEnv 40000 s (.tryLockPage 0x5000) := by
  obtain ⟨s₀, s, hinit, htest₀, hstep, htest, -⟩ := flat_run
  have hfree := (room_of_roomTest htest₀).1
  have hfuel : bitmapSize + 1 < 40000 := by decide
  have hnone : ¬ HasLater s₀ :=
    not_not.mpr (pmInit_count (by omega) hinit (by omega)).alone.tail
  have hfirst : Tracked s₀ (.tryLockPage (2 ^ 27)) := by
    rw [Tracked, if_neg (by decide)]
    exact hnone
  have hsecond : Tracked s (.tryLockPage 0x5000) := by
    rw [Tracked, if_pos (by decide)]
    exact .inr (.inl (room_of_roomTest htest).1)
  exact ⟨s₀, s, hinit, hstep, tellsTruth_of_run flatEnv 40000 hfuel flatMap s₀ hinit (by omega)
    [.tryLockPage (2 ^ 27)] s (.cons ⟨backingAvailable_of_roomTest htest₀, hfirst⟩ hstep (.nil s))
    (.tryLockPage 0x5000) (fun hfar => absurd (by decide) hfar) hsecond⟩

/-- **The page at 128 MiB can be locked twice.**  So it is not true that the lock state
is real for all pages. -/
theorem not_tellsTruth_twice :
    ¬ ∀ env fuel memMap s₀, bitmapSize + 1 < fuel → pmInit env fuel memMap = .ok s₀ →
      0 < s₀.freePages → ∀ es s, GuardedRun.Run (pmStep env fuel) (BackingAvailable env) s₀ es s →
      ∀ e, BackingAvailable env s e → TellsTruth env fuel s e := by
  intro hall
  have htest : ((pmInit flatEnv 40000 flatMap).toOption.any fun s₀ => roomTest s₀ &&
      (pmStep flatEnv 40000 s₀ (.tryLockPage (2 ^ 27))).toOption.any fun s₁ => roomTest s₁ &&
        s₁.isLocked (pageOf (2 ^ 27)) &&
          (pmTryLockPage flatEnv 40000 s₁ (2 ^ 27)).toOption.any fun p => p.1) = true := by
    decide +kernel
  obtain ⟨s₀, hinit, htest⟩ := Except.exists_of_any htest
  rw [Bool.and_eq_true] at htest
  obtain ⟨s₁, hstep, htest₁⟩ := Except.exists_of_any htest.2
  simp only [Bool.and_eq_true] at htest₁
  obtain ⟨⟨hroom, hlocked⟩, hsecond⟩ := htest₁
  obtain ⟨⟨r, s₂⟩, hok, hr⟩ := Except.exists_of_any hsecond
  have hfree := (room_of_roomTest htest.1).1
  obtain ⟨r', s', hok', htruth, -⟩ := hall flatEnv 40000 flatMap s₀ (by decide) hinit (by omega)
    [.tryLockPage (2 ^ 27)] s₁
    (.cons (backingAvailable_of_roomTest htest.1) hstep (.nil s₁)) (.tryLockPage (2 ^ 27))
    (backingAvailable_of_roomTest hroom)
  rw [hok] at hok'
  cases hok'
  rw [htruth.mp hr] at hlocked
  cases hlocked

end Mimik.Pm
