/-
# Filling the first bitmap

When the last free page of the first bitmap is locked, `find_first_free_bitmap` looks
through the ring for another bitmap.  Behind the first one there are only bitmaps that a
call beyond the first 128 MiB has left, all with `first_free` 0 (`Sparse`); where there
is none, the ring holds just its head, or the search asks the full manager for a new
bitmap and never returns.  `movesOn_iff` says when the switch works.
-/
import Mimik.PmCursor

namespace Mimik.Pm

section Fill

attribute [local irreducible] bitmapSize wrap64 sub64

variable {env : PmEnv} {req : RequestPage} {fuel rounds : ℕ} {s s' s₁ : PmState} {c paddr : ℕ}

/-! ## The bitmaps behind the first one -/

/-- The bitmaps behind the first one were made for one page each: `first_free` is where it
was, and a page of bits has at most one of them set. -/
structure Sparse (s : PmState) : Prop where
  firstFree : ∀ b ∈ s.memBitmaps.tail, b.firstFree = 0
  size : ∀ b ∈ s.memBitmaps.tail, b.super.size = bitmapSize
  unset : ∀ b ∈ s.memBitmaps.tail, 0 < b.super.unset
  map : ∀ b ∈ s.memBitmaps.tail, ∃ page, b.super.map = .page page
  bits : ∀ page i j, i < bitmapSize → j < bitmapSize → bitAt s.maps (.page page) i = true →
    bitAt s.maps (.page page) j = true → i = j

/-- Bitmaps that are left alone stay sparse. -/
theorem Sparse.congr (hs : Sparse s) (htail : s'.memBitmaps.tail = s.memBitmaps.tail)
    (hmaps : ∀ page, s'.maps (.page page) = s.maps (.page page)) : Sparse s' where
  firstFree := htail ▸ hs.firstFree
  size := htail ▸ hs.size
  unset := htail ▸ hs.unset
  map := htail ▸ hs.map
  bits page i j hi hj hbi hbj := by
    rw [bitAt, hmaps, ← bitAt] at hbi hbj
    exact hs.bits page i j hi hj hbi hbj

theorem Sparse.of_quiet (hs : Sparse s) (h : NoNewBitmap s s') : Sparse s' :=
  hs.congr h.tail h.maps

/-- The first bitmap alone is sparse. -/
theorem Alone.sparse (hs : Alone s) : Sparse s where
  firstFree b hb := by rw [hs.tail] at hb; cases hb
  size b hb := by rw [hs.tail] at hb; cases hb
  unset b hb := by rw [hs.tail] at hb; cases hb
  map b hb := by rw [hs.tail] at hb; cases hb
  bits page i j _ _ hbi _ := by
    rw [bitAt, hs.clean page (i / 8)] at hbi
    simp at hbi

/-- A new bitmap is clear. -/
theorem Sparse.linkBitmap (hs : Sparse s) (hshape : Shape s c) {id : ℕ} (hpos : 0 < id)
    (hle : id ≤ s.allocCalls) : Sparse (Mimik.Pm.linkBitmap s .head id) := by
  obtain ⟨-, htail, -, hclear, hother⟩ := linkBitmap_shape id hshape hpos hle
  have hnew : ∀ (P : MemBitmap → Prop), (∀ b ∈ s.memBitmaps.tail, P b) → P (newBitmap s id) →
      ∀ b ∈ (Mimik.Pm.linkBitmap s .head id).memBitmaps.tail, P b := by
    intro P hold hnew b hb
    rw [htail] at hb
    rcases List.mem_append.mp hb with hb | hb
    · exact hold b hb
    · rwa [List.mem_singleton.mp hb]
  have hsize : 0 < bitmapSize := by rw [bitmapSize_eq]; decide
  refine ⟨hnew _ hs.firstFree rfl, hnew _ hs.size rfl, hnew _ hs.unset hsize,
    hnew _ hs.map ⟨_, rfl⟩, fun page i j hi hj hbi hbj => ?_⟩
  by_cases hpage : page = s.nextBitmapPage
  · subst hpage
    rw [hclear i hi] at hbi
    cases hbi
  · have hsame : (Mimik.Pm.linkBitmap s .head id).maps (.page page) = s.maps (.page page) :=
      hother _ (by simpa using hpage)
    rw [bitAt, hsame, ← bitAt] at hbi hbj
    exact hs.bits page i j hi hj hbi hbj

/-- The object of a new bitmap. -/
theorem Sparse.mmAllocBitmap (hs : Sparse s) (hreq : RequestOk req) (hready : Ready s c) {id : ℕ}
    (hroom : env.heapPages s.allocCalls < s.freePages)
    (halloc : Mimik.Pm.mmAllocBitmap env req s = .ok (id, s')) : Sparse s' := by
  obtain ⟨s₂, hheap, hret⟩ := Except.bind_eq_ok_iff.mp halloc
  cases hret
  have hready₀ : Ready { s with allocCalls := s.allocCalls + 1 } c :=
    ⟨hready.toShape.called, hready.lt, hready.free, hready.below⟩
  have hs₀ : Sparse { s with allocCalls := s.allocCalls + 1 } := hs.congr rfl fun _ => rfl
  obtain ⟨-, hquiet, -⟩ :=
    (heapRequests_spec hreq _ _ c hready₀ (show _ < s.freePages from hroom)).2 _ hheap
  exact hs₀.of_quiet hquiet

/-- **`create_bitmap`** leaves the bitmaps sparse. -/
theorem Sparse.createBitmap (hs : Sparse s) (hreq : RequestOk req) (hready : Ready s c)
    {index id : ℕ} (hroom : env.bitmapCost s.allocCalls < s.freePages)
    (hok : Mimik.Pm.createBitmap env req s index = .ok (id, s')) : Sparse s' := by
  have hcost : env.bitmapCost s.allocCalls = env.heapPages s.allocCalls + 1 := rfl
  rw [Mimik.Pm.createBitmap, hready.find_above index] at hok
  obtain ⟨⟨id', s₁⟩, halloc, hok⟩ := Except.bind_eq_ok_iff.mp hok
  obtain ⟨_, -, hok⟩ := Except.bind_eq_ok_iff.mp hok
  obtain ⟨⟨a, s₃⟩, hreqok, hret⟩ := Except.bind_eq_ok_iff.mp hok
  cases hret
  obtain ⟨rfl, htook, hcalls, -, htail, -⟩ :=
    (mmAllocBitmap_spec hreq hready (by omega)).2 _ _ halloc
  obtain ⟨c₁, hready₁⟩ := htook.ready
  have hs₁ := hs.mmAllocBitmap hreq hready (by omega) halloc
  obtain ⟨hready₂, htook', -⟩ := linkBitmap_spec (s.allocCalls + 1) hready₁ (Nat.succ_pos _)
    hcalls.ge (htail ▸ hready.id_ne)
  have hpages := (htook.trans htook').pages
  obtain ⟨-, hquiet, -⟩ := hreq.took hready₂ (by omega) hreqok
  have hs₃ : Sparse s₃ :=
    (hs₁.linkBitmap hready₁.toShape (Nat.succ_pos _) hcalls.ge).of_quiet hquiet
  exact hs₃.congr rfl fun _ => rfl

/-- **`try_set_page` beyond the first 128 MiB** sets at most the one bit. -/
theorem Sparse.trySetPage (hs : Sparse s) (hreq : RequestOk req) (hready : Ready s c)
    (hpaddr : toBitmap paddr ≠ 0) {state r : Bool}
    (hroom : env.bitmapCost s.allocCalls < s.freePages)
    (hok : Mimik.Pm.trySetPage env req s paddr state = .ok (r, s')) : Sparse s' := by
  rw [Mimik.Pm.trySetPage, (hready.findBitmapByIndex _).2 hpaddr] at hok
  obtain ⟨⟨id, s₁⟩, hcreate, hok⟩ := Except.bind_eq_ok_iff.mp hok
  have hs₁ := hs.createBitmap hreq hready hroom hcreate
  obtain ⟨hid, htook, -, b, page, hlookup, hsize, hunset, hmap, hclear⟩ :=
    (createBitmap_spec hreq hready (toBitmap paddr) hroom).2 id s₁ hcreate
  obtain ⟨c₁, hready₁⟩ := htook.ready
  obtain ⟨b₁, hderef, hok⟩ := Except.bind_eq_ok_iff.mp hok
  rw [hready₁.deref_later hid hlookup] at hderef
  cases hderef
  have hindex := toIndex_lt paddr
  have hcount := bitmapSet_unset s₁.maps b.super (toIndex paddr) state
  obtain ⟨sts, super, maps, hbitmap, hmap', hsize', -, hbits, hother⟩ :=
    bitmapSet_spec s₁.maps b.super state (hsize.symm ▸ hindex)
  rw [hmap] at hmap' hbits hother
  simp only [hbitmap] at hok hcount
  cases hok
  have hpos : 0 < super.unset := by
    rw [hcount, hunset, pred64, wrap64_of_lt (by rw [bitmapSize_eq]; decide), bitmapSize_eq]
    split
    next => split <;> decide
    next => decide
  obtain ⟨b₀, rest, hlist, hb₀, -⟩ := hready₁.bitmaps
  have htail : (s₁.modify id fun b => { b with super := super }).memBitmaps.tail =
      s₁.memBitmaps.tail.map fun b => if b.id = id then { b with super := super } else b := by
    rw [PmState.modify, ← List.map_tail]
  have hmember : ∀ (P : MemBitmap → Prop), (∀ b ∈ s₁.memBitmaps.tail, P b) →
      (∀ b ∈ s₁.memBitmaps.tail, P { b with super := super }) →
      ∀ b ∈ (s₁.modify id fun b => { b with super := super }).memBitmaps.tail, P b := by
    intro P hold hnew b' hb'
    rw [htail] at hb'
    obtain ⟨b₂, hb₂, rfl⟩ := List.mem_map.mp hb'
    split
    next => exact hnew b₂ hb₂
    next => exact hold b₂ hb₂
  refine ⟨hmember _ hs₁.firstFree hs₁.firstFree,
    hmember _ hs₁.size fun _ _ => hsize'.trans hsize, hmember _ hs₁.unset fun _ _ => hpos,
    hmember _ hs₁.map fun _ _ => ⟨page, hmap'⟩, fun page' i j hi hj hbi hbj => ?_⟩
  by_cases hpage : page' = page
  · subst hpage
    have hone : ∀ k < bitmapSize, bitAt maps (.page page') k = true → k = toIndex paddr := by
      intro k hk hbit
      rw [hbits] at hbit
      split at hbit
      next heq => exact heq
      next => rw [hclear k hk] at hbit; cases hbit
    exact (hone i hi hbi).trans (hone j hj hbj).symm
  · have hsame : maps (.page page') = s₁.maps (.page page') := hother _ (by simpa using hpage)
    refine hs₁.bits page' i j hi hj ?_ ?_
    · rw [bitAt, ← hsame]; exact hbi
    · rw [bitAt, ← hsame]; exact hbj

/-! ## Runs in which the first bitmap suffices -/

/-- The manager works on the first bitmap, and the others are sparse. -/
structure Tidy (s : PmState) : Prop where
  keeps : Keeps ∅ s
  sparse : Sparse s

/-- A lock. -/
theorem Tidy.lock (hfuel : bitmapSize < fuel) (hs : Tidy s) {r : Bool}
    (hroom : env.cost 1 s.allocCalls [paddr] < s.freePages)
    (hok : pmTryLockPage env fuel s paddr = .ok (r, s')) :
    PageStep env ∅ 1 s s' paddr ∧ Sparse s' := by
  refine ⟨hs.keeps.lock hfuel hroom hok, ?_⟩
  obtain ⟨c, hready⟩ := hs.keeps.ready
  rw [pmTryLockPage] at hok
  by_cases hnear : toBitmap paddr = 0
  · simp only [PmEnv.cost, if_pos hnear] at hroom
    cases hbit : s.pageBit (pageOf paddr) with
    | true =>
      obtain ⟨s₁, hok₁, -, hquiet, -⟩ :=
        tryLockPage_locked env (pmRequestPage env fuel) fuel hready hnear hbit
      rw [hok₁] at hok
      cases hok
      exact hs.sparse.of_quiet hquiet
    | false =>
      obtain ⟨s₁, hok₁, -, hquiet, -⟩ := tryLockPage_first env (pmRequestPage env fuel)
        hready.toShape (fun i hi _ => hready.below i hi) hfuel.le hnear hbit (by omega)
      rw [hok₁] at hok
      cases hok
      exact hs.sparse.of_quiet hquiet
  · simp only [PmEnv.cost, if_neg hnear, Nat.add_zero] at hroom
    obtain ⟨⟨r₁, s₁⟩, hset, -⟩ := Except.bind_eq_ok_iff.mp hok
    obtain ⟨rfl, htook, -⟩ :=
      (trySetPage_later (requestOk hfuel) hready hnear true hroom).2 r₁ s₁ hset
    obtain ⟨c₁, hready₁⟩ := htook.ready
    rw [tryLockPage_later_eq hnear hset hready₁.toShape] at hok
    cases hok
    exact (hs.sparse.trySetPage (requestOk hfuel) hready hnear hroom hset).congr rfl fun _ => rfl

/-- A release. -/
theorem Tidy.release (hfuel : bitmapSize < fuel) (hs : Tidy s) {r : Bool}
    (hroom : env.cost 0 s.allocCalls [paddr] < s.freePages)
    (hok : pmTryReleasePage env fuel s paddr = .ok (r, s')) :
    PageStep env ∅ 0 s s' paddr ∧ Sparse s' := by
  refine ⟨hs.keeps.release hfuel (Set.notMem_empty _) hroom hok, ?_⟩
  obtain ⟨c, hready⟩ := hs.keeps.ready
  rw [pmTryReleasePage] at hok
  by_cases hnear : toBitmap paddr = 0
  · cases hbit : s.pageBit (pageOf paddr) with
    | false =>
      obtain ⟨s₁, hok₁, -, hquiet, -⟩ :=
        tryReleasePage_free env (pmRequestPage env fuel) hready hnear hbit
      rw [hok₁] at hok
      cases hok
      exact hs.sparse.of_quiet hquiet
    | true =>
      obtain ⟨s₁, hok₁, -, -, -, -, hquiet⟩ :=
        tryReleasePage_first env (pmRequestPage env fuel) hready hnear hbit
      rw [hok₁] at hok
      cases hok
      exact hs.sparse.of_quiet hquiet
  · simp only [PmEnv.cost, if_neg hnear, Nat.add_zero] at hroom
    obtain ⟨⟨r₁, s₁⟩, hset, hok⟩ := Except.bind_eq_ok_iff.mp hok
    obtain ⟨rfl, -⟩ := (trySetPage_later (requestOk hfuel) hready hnear false hroom).2 r₁ s₁ hset
    cases hok
    exact hs.sparse.trySetPage (requestOk hfuel) hready hnear hroom hset

/-- A range. -/
theorem Tidy.pageLoop {op : PmState → ℕ → Except Fault (Bool × PmState)}
    {join : Bool → Bool → Bool} {own : ℕ}
    (hop : ∀ s s' paddr r, Tidy s → env.cost own s.allocCalls [paddr] < s.freePages →
      op s paddr = .ok (r, s') → PageStep env ∅ own s s' paddr ∧ Sparse s')
    (pages : ℕ) {acc r : Bool} (hs : Tidy s)
    (hroom : env.cost own s.allocCalls (addrs pages paddr) < s.freePages)
    (hok : Mimik.Pm.pageLoop op join pages s paddr acc = .ok (r, s')) : Tidy s' := by
  refine (pageLoop_rule (fun as s => Tidy s ∧ env.cost own s.allocCalls as < s.freePages) ?_
    pages ⟨hs, hroom⟩ hok).1
  rintro a as s s' r ⟨hs, hroom⟩ hfst
  rw [cost_cons] at hroom
  obtain ⟨hstep, hsparse⟩ := hop s s' a r hs (by omega) hfst
  have hleft := hstep.room
  refine ⟨⟨hstep.keeps, hsparse⟩, ?_⟩
  rw [hstep.allocCalls]
  omega

/-- Pages in a row. -/
theorem Tidy.requestPages (hfuel : bitmapSize < fuel) (hs : Tidy s) {num a : ℕ}
    (hrow : HasRun s (max num 1)) (hroom : max num 1 < s.freePages)
    (hok : pmRequestPages env fuel s num = .ok (a, s')) : Tidy s' := by
  refine ⟨hs.keeps.requestPages hfuel hrow hroom hok, ?_⟩
  obtain ⟨c, hready⟩ := hs.keeps.ready
  obtain ⟨start, r, s₁, ⟨hfit, -⟩, -, hloop, rfl⟩ := requestPages_row hfuel hready hrow hok
  have hcost := cost_row env 1 (max num 1) start s.allocCalls hfit
  have hs₁ := hs.pageLoop (fun _ _ _ _ hs hroom hok => hs.lock hfuel hroom hok) _
    (by rw [hcost]; omega) hloop
  exact hs₁.sparse.congr rfl fun _ => rfl

/-- **One operation**, when the first bitmap suffices for it. -/
theorem Tidy.step (hfuel : bitmapSize < fuel) (hs : Tidy s) {e : PmEvent}
    (hroom : FirstBitmapSuffices env s e) (hstep : pmStep env fuel s e = .ok s') : Tidy s' := by
  have hresult : ∀ {α : Type} {x : Except Fault (α × PmState)}, Prod.snd <$> x = .ok s' →
      ∃ r, x = .ok (r, s') := by
    intro α x hx
    cases x with
    | error f => cases hx
    | ok p => cases hx; exact ⟨p.1, rfl⟩
  cases e with
  | tryLockPage paddr =>
    obtain ⟨r, hok⟩ := hresult hstep
    obtain ⟨hpage, hsparse⟩ := hs.lock hfuel hroom hok
    exact ⟨hpage.keeps, hsparse⟩
  | tryLockPages paddr bytes =>
    obtain ⟨r, hok⟩ := hresult hstep
    obtain ⟨_, hloop⟩ := pageRange_eq_loop hok
    exact hs.pageLoop (fun _ _ _ _ hs hroom hok => hs.lock hfuel hroom hok) _ hroom hloop
  | tryReleasePage paddr =>
    obtain ⟨r, hok⟩ := hresult hstep
    obtain ⟨hpage, hsparse⟩ := hs.release hfuel hroom hok
    exact ⟨hpage.keeps, hsparse⟩
  | tryReleasePages paddr bytes =>
    obtain ⟨r, hok⟩ := hresult hstep
    obtain ⟨_, hloop⟩ := pageRange_eq_loop hok
    exact hs.pageLoop (fun _ _ _ _ hs hroom hok => hs.release hfuel hroom hok) _ hroom hloop
  | requestPage =>
    obtain ⟨r, hok⟩ := hresult hstep
    obtain ⟨c, hready⟩ := hs.keeps.ready
    obtain ⟨htook, hquiet, -⟩ := (requestOk hfuel).took hready hroom hok
    exact ⟨hs.keeps.of_took htook, hs.sparse.of_quiet hquiet⟩
  | requestPages num =>
    obtain ⟨r, hok⟩ := hresult hstep
    exact hs.requestPages hfuel hroom.1 hroom.2 hok
  | requestBytes bytes =>
    obtain ⟨r, hok⟩ := hresult hstep
    exact hs.requestPages hfuel hroom.1 hroom.2 hok

/-! ## A full first bitmap -/

/-- Every page of the first bitmap is locked. -/
def Full (s : PmState) : Prop := ∀ i < bitmapSize, s.pageBit i = true

/-- A request never returns while every page of the first bitmap is locked. -/
def StuckWhenFull (req : RequestPage) : Prop :=
  ∀ s c, Shape s c → Full s → ∀ r, req s ≠ .ok r

/-- Then no bitmap is made. -/
theorem createBitmap_full (hreq : StuckWhenFull req) (hs : Shape s c) (hfull : Full s)
    (index : ℕ) (r : ℕ × PmState) : createBitmap env req s index ≠ .ok r := by
  intro hok
  rw [createBitmap, hs.find_above index] at hok
  obtain ⟨⟨id, s₁⟩, halloc, hok⟩ := Except.bind_eq_ok_iff.mp hok
  obtain ⟨_, -, hok⟩ := Except.bind_eq_ok_iff.mp hok
  obtain ⟨⟨a, s₃⟩, hreqok, -⟩ := Except.bind_eq_ok_iff.mp hok
  obtain ⟨s₂, hheap, hret⟩ := Except.bind_eq_ok_iff.mp halloc
  cases hret
  cases hpages : env.heapPages s.allocCalls with
  | zero =>
    rw [hpages] at hheap
    cases hheap
    obtain ⟨hshape, -, hbits, -⟩ := linkBitmap_shape (s.allocCalls + 1) hs.called
      (Nat.succ_pos _) le_rfl
    exact hreq _ c hshape (fun i hi => (hbits i).trans (hfull i hi)) _ hreqok
  | succ n =>
    rw [hpages] at hheap
    obtain ⟨p, hfst, -⟩ := Except.bind_eq_ok_iff.mp hheap
    exact hreq _ c hs.called hfull _ hfst

/-- **A request to a full manager never returns**: the page at `first_free` is locked, or it
is beyond the bitmap, and then a bitmap must be made for it. -/
theorem stuckWhenFull (env : PmEnv) : ∀ fuel : ℕ, StuckWhenFull (pmRequestPage env fuel) := by
  intro fuel
  induction fuel with
  | zero => intro s c _ _ r hok; cases hok
  | succ fuel ih =>
    intro s c hs hfull r hok
    obtain ⟨_, -, hok⟩ := Except.bind_eq_ok_iff.mp hok
    obtain ⟨b, hderef, hok⟩ := Except.bind_eq_ok_iff.mp hok
    obtain ⟨⟨locked, s₁⟩, hlock, hok⟩ := Except.bind_eq_ok_iff.mp hok
    obtain ⟨_, hassert, -⟩ := Except.bind_eq_ok_iff.mp hok
    rw [assert_eq_ok] at hassert
    subst hassert
    obtain ⟨b₀, hderef₀, hb₀⟩ := hs.deref
    rw [hs.first, hderef₀] at hderef
    cases hderef
    simp only [hb₀.id, hb₀.index, hb₀.firstFree] at hlock
    have hmoved := hs.setFirstFree (wrap64 (c + 1))
    obtain ⟨⟨set, s₂⟩, hset, hlock⟩ := Except.bind_eq_ok_iff.mp hlock
    by_cases hnear : toBitmap (toPaddr 0 c) = 0
    · obtain ⟨s₃, hset₃, -⟩ :=
        trySetPage_first env (pmRequestPage env fuel) hmoved hnear true
      have hbit := hfull _ (toBitmap_eq_zero_iff.mp hnear)
      rw [hset₃] at hset
      cases hset
      simp only [show (s.setFirstFree 0 (wrap64 (c + 1))).pageBit _ = true from hbit,
        Bool.not_true, Bool.true_beq, Bool.false_eq_true, if_false] at hlock
      cases hlock
    · rw [trySetPage, (hmoved.findBitmapByIndex _).2 hnear] at hset
      obtain ⟨p, hcreate, -⟩ := Except.bind_eq_ok_iff.mp hset
      exact createBitmap_full ih hmoved hfull _ _ hcreate

/-- The ring after the first bitmap. -/
theorem Shape.ringFrom (hs : Shape s c) :
    Mimik.Pm.ringFrom s.memBitmaps s.firstFreeBitmap = s.memBitmaps.tail.map some ++ [none] := by
  obtain ⟨b, rest, hlist, hb, -⟩ := hs.bitmaps
  rw [hs.first, hlist, Mimik.Pm.ringFrom]
  simp [hb.id]

/-- **`find_first_free_bitmap`** takes the second bitmap of the ring. -/
theorem findFirstFreeBitmap_cons (hs : Shape s c) (hsparse : Sparse s) {b : MemBitmap}
    {rest : List MemBitmap} (htail : s.memBitmaps.tail = b :: rest) :
    findFirstFreeBitmap env req s = .ok { s with firstFreeBitmap := .node b.id } := by
  have hunset : 0 < b.super.unset := hsparse.unset b (by rw [htail]; exact List.mem_cons_self)
  rw [findFirstFreeBitmap, hs.ringFrom, htail, List.map_cons, List.cons_append, searchRing]
  simp only [Option.map_some, Option.getD_some, hunset, if_true]

/-- Where there is none, it takes the head of the ring, or never returns. -/
theorem findFirstFreeBitmap_nil (hreq : StuckWhenFull req) (hs : Shape s c) (hfull : Full s)
    (htail : s.memBitmaps.tail = []) (hok : findFirstFreeBitmap env req s = .ok s') :
    s'.firstFreeBitmap = .head := by
  rw [findFirstFreeBitmap, hs.ringFrom, htail, List.map_nil, List.nil_append] at hok
  simp only [searchRing, Option.map_none, Option.getD_none, Option.all_none, if_true] at hok
  by_cases hunset : 0 < env.headUnset
  · rw [if_pos hunset] at hok
    cases hok
    rfl
  · rw [if_neg hunset] at hok
    obtain ⟨p, hcreate, -⟩ := Except.bind_eq_ok_iff.mp hok
    exact absurd hcreate (createBitmap_full hreq hs hfull _ _)

/-! ## The switch -/

/-- `first_free_bitmap` is an element of the ring that has an unlocked page, and the page at
its `first_free` is unlocked. -/
def OnFree (s : PmState) : Prop :=
  ∃ b ∈ s.memBitmaps, s.deref s.firstFreeBitmap = .ok b ∧ 0 < b.super.unset ∧
    b.firstFree < b.super.size ∧ bitAt s.maps b.super.map b.firstFree = false

/-- The head of the ring is no element of it. -/
theorem not_onFree_head (hhead : s.firstFreeBitmap = .head) : ¬ OnFree s := by
  rintro ⟨b, -, hderef, -⟩
  rw [hhead] at hderef
  cases hderef

/-- An element behind the first one, found through its number. -/
theorem Shape.deref_second (hs : Shape s c) {b : MemBitmap} {rest : List MemBitmap}
    (htail : s.memBitmaps.tail = b :: rest) : s.deref (.node b.id) = .ok b := by
  obtain ⟨b₀, rest₀, hlist, -, hrest⟩ := hs.bitmaps
  rw [hlist, List.tail_cons] at htail
  have hpos := (hrest b (by rw [htail]; exact List.mem_cons_self)).id_pos
  refine hs.deref_later hpos.ne' ?_
  rw [hlist, List.tail_cons, htail]
  simp

/-- The search of `pm_try_lock_page` for the next free page. -/
def searchNext (env : PmEnv) (req : RequestPage) (rounds : ℕ) (s : PmState) :
    Except Fault PmState := do
  let (found, s) ← findFirstFreeIndex env req rounds s
  if found then pure s else findFirstFreeBitmap env req s

/-- It finds the first page of the second bitmap, which may be locked. -/
theorem searchNext_cons (hs : Shape s c) (hfull : Full s) (hsparse : Sparse s)
    (hc : c < bitmapSize) (hrounds : bitmapSize < rounds) {b : MemBitmap} {rest : List MemBitmap}
    (htail : s.memBitmaps.tail = b :: rest) :
    searchNext env req rounds s =
      .ok { s.setFirstFree 0 bitmapSize with firstFreeBitmap := .node b.id } := by
  obtain ⟨b₀, hderef₀, hb₀⟩ := hs.deref
  have hscan := findFirstFreeIndex_scan env req (by rw [bitmapSize_eq]; decide) rounds s b₀
    (hs.first ▸ hderef₀) hb₀.size hb₀.map (hb₀.firstFree ▸ hc) (hb₀.firstFree ▸ hc.le) le_rfl
    (fun h => absurd h (lt_irrefl _)) (fun i _ hi => hfull i hi) (by omega)
  rw [hb₀.firstFree, if_neg hc.ne', hb₀.id, decide_eq_false (lt_irrefl _)] at hscan
  have hsparse' : Sparse (s.setFirstFree 0 bitmapSize) :=
    hsparse.congr (hs.modify_tail _) fun _ => rfl
  rw [searchNext, hscan]
  exact findFirstFreeBitmap_cons (hs.setFirstFree bitmapSize) hsparse'
    ((hs.modify_tail _).trans htail)

/-- From behind the first bitmap, `find_first_free_index` goes on in another one. -/
theorem findFirstFreeIndex_end (hs : Shape s bitmapSize) (rounds : ℕ) :
    findFirstFreeIndex env req (rounds + 1) s = (do
      let s ← findFirstFreeBitmap env req s
      let b ← s.deref s.firstFreeBitmap
      let firstFree := wrap64 (b.firstFree + 1)
      let s := s.setFirstFree b.id firstFree
      if firstFree < b.super.size then findFirstFreeIndex env req rounds s
      else return (false, s)) := by
  obtain ⟨b₀, hderef₀, hb₀⟩ := hs.deref
  have hget : bitmapGet s.maps b₀.super bitmapSize = -einval :=
    bitmapGet_of_le (by rw [hb₀.size])
  rw [findFirstFreeIndex, hs.first, hderef₀]
  simp only [bind, Except.bind, hb₀.firstFree, hget]
  rfl

/-- The state in which the manager works on the bitmap `id`, with its `first_free` at `j`. -/
def PmState.movedTo (s : PmState) (id j : ℕ) : PmState :=
  { s with firstFreeBitmap := .node id }.setFirstFree id j

/-- From behind the first bitmap, it goes on to a free page of the second. -/
theorem searchNext_end (hs : Shape s bitmapSize) (hsparse : Sparse s)
    (hrounds : bitmapSize < rounds) {b : MemBitmap} {rest : List MemBitmap}
    (htail : s.memBitmaps.tail = b :: rest) :
    ∃ j ≤ 2, bitAt s.maps b.super.map j = false ∧
      searchNext env req rounds s = .ok (s.movedTo b.id j) := by
  have hlarge : 2 < bitmapSize ∧ bitmapSize < 2 ^ 64 := by rw [bitmapSize_eq]; decide
  obtain ⟨rounds, rfl⟩ := Nat.exists_eq_add_of_le' (Nat.one_le_of_lt hrounds)
  have hmem : b ∈ s.memBitmaps.tail := by rw [htail]; exact List.mem_cons_self
  have hderef : s.deref (.node b.id) = .ok b := hs.deref_second htail
  have hsize := hsparse.size b hmem
  have hone : wrap64 (b.firstFree + 1) = 1 := by
    rw [hsparse.firstFree b hmem, Nat.zero_add]
    exact wrap64_of_lt (by decide)
  -- the state in which the search goes on in the second bitmap
  have hderef₁ : (s.movedTo b.id 1).deref (s.movedTo b.id 1).firstFreeBitmap =
      .ok { b with firstFree := 1 } := deref_setFirstFree hderef
  have hindex : findFirstFreeIndex env req (rounds + 1) s =
      findFirstFreeIndex env req rounds (s.movedTo b.id 1) := by
    have hderef' : PmState.deref { s with firstFreeBitmap := .node b.id } (.node b.id) = .ok b :=
      hderef
    rw [findFirstFreeIndex_end hs, findFirstFreeBitmap_cons hs hsparse htail]
    simp only [bind, Except.bind, hderef', hone, hsize]
    rw [if_pos (show 1 < bitmapSize by omega)]
    rfl
  -- at most one page of this bitmap is locked
  obtain ⟨page, hmap⟩ := hsparse.map b hmem
  obtain ⟨j, hj, hclear, hbelow⟩ : ∃ j, (j = 1 ∨ j = 2) ∧
      bitAt s.maps b.super.map j = false ∧
      ∀ i, 1 ≤ i → i < j → bitAt s.maps b.super.map i = true := by
    rw [hmap]
    cases hbit : bitAt s.maps (.page page) 1 with
    | false => exact ⟨1, .inl rfl, hbit, fun i hi hlt => by omega⟩
    | true =>
      refine ⟨2, .inr rfl, ?_, fun i hi hlt => ?_⟩
      · by_contra hset
        have := hsparse.bits page 1 2 (by omega) (by omega) hbit (by simpa using hset)
        omega
      · obtain rfl : i = 1 := by omega
        exact hbit
  have hscan := findFirstFreeIndex_scan env req hlarge.2 rounds (s.movedTo b.id 1)
    { b with firstFree := 1 } hderef₁ hsize rfl (by simp only; omega) (by simp only; omega)
    (by omega) (fun _ => hclear) hbelow (by simp only; omega)
  rw [decide_eq_true (show j < bitmapSize by omega)] at hscan
  have hmoved : (if j = 1 then s.movedTo b.id 1 else (s.movedTo b.id 1).setFirstFree b.id j) =
      s.movedTo b.id j := by
    split
    next heq => rw [heq]
    next => exact setFirstFree_setFirstFree _ b.id 1 j
  refine ⟨j, by omega, hclear, ?_⟩
  rw [searchNext, hindex, hscan]
  exact congrArg Except.ok hmoved

/-- Where there is no second bitmap, it finds the head of the ring at most. -/
theorem searchNext_nil (hreq : StuckWhenFull req) (hs : Shape s c) (hfull : Full s)
    (hc : c ≤ bitmapSize) (hrounds : bitmapSize < rounds) (htail : s.memBitmaps.tail = [])
    (hok : searchNext env req rounds s = .ok s') : s'.firstFreeBitmap = .head := by
  rcases Nat.lt_or_eq_of_le hc with hlt | rfl
  · obtain ⟨b₀, hderef₀, hb₀⟩ := hs.deref
    have hscan := findFirstFreeIndex_scan env req (by rw [bitmapSize_eq]; decide) rounds s b₀
      (hs.first ▸ hderef₀) hb₀.size hb₀.map (hb₀.firstFree ▸ hlt) (hb₀.firstFree ▸ hlt.le) le_rfl
      (fun h => absurd h (lt_irrefl _)) (fun i _ hi => hfull i hi) (by omega)
    rw [hb₀.firstFree, if_neg hlt.ne', hb₀.id, decide_eq_false (lt_irrefl _)] at hscan
    rw [searchNext, hscan] at hok
    exact findFirstFreeBitmap_nil hreq (hs.setFirstFree bitmapSize) hfull
      ((hs.modify_tail _).trans htail) hok
  · obtain ⟨rounds, rfl⟩ := Nat.exists_eq_add_of_le' (Nat.one_le_of_lt hrounds)
    rw [searchNext, findFirstFreeIndex_end hs] at hok
    obtain ⟨_, hindex, -⟩ := Except.bind_eq_ok_iff.mp hok
    obtain ⟨s₂, hfind, hindex⟩ := Except.bind_eq_ok_iff.mp hindex
    obtain ⟨b, hderef, -⟩ := Except.bind_eq_ok_iff.mp hindex
    rw [findFirstFreeBitmap_nil hreq hs hfull htail hfind] at hderef
    cases hderef

/-- What the lock of the last free page leaves before the search for the next one. -/
structure Filled (s s₁ : PmState) (c paddr : ℕ) : Prop where
  shape : Shape s₁ c
  same : SameRest s s₁
  full : Full s₁
  bits : ∀ j, s₁.pageBit j = if j = pageOf paddr then true else s.pageBit j
  maps : ∀ page, s₁.maps (.page page) = s.maps (.page page)
  tail : s₁.memBitmaps.tail = s.memBitmaps.tail

/-- The lock of the last free page, up to that search. -/
theorem tryLockPage_filled (env : PmEnv) (req : RequestPage) (rounds : ℕ) (hs : Shape s c)
    (hpaddr : toBitmap paddr = 0) (hlast : s.freeSet = {pageOf paddr}) :
    ∃ s₁, Filled s s₁ c paddr ∧ tryLockPage env req rounds s paddr = (do
      let s₂ ← searchNext env req rounds s₁
      return (true, s₂.pageLocked paddr)) := by
  have hfree : s.pageBit (pageOf paddr) = false :=
    (PmState.mem_freeSet.mp (hlast ▸ Finset.mem_singleton_self _)).2
  obtain ⟨s₁, hset, hshape, hsame, hbits, hmaps, htail⟩ := trySetPage_first env req hs hpaddr true
  have hfull : Full s₁ := by
    intro i hi
    rw [hbits]
    split
    next => rfl
    next hne =>
      by_contra hclear
      have hmem : i ∈ s.freeSet := PmState.mem_freeSet.mpr ⟨hi, by simpa using hclear⟩
      rw [hlast] at hmem
      exact hne (Finset.mem_singleton.mp hmem)
  obtain ⟨b₀, hderef₀, hb₀⟩ := hshape.deref
  refine ⟨s₁, ⟨hshape, hsame, hfull, hbits, hmaps, htail⟩, ?_⟩
  rw [tryLockPage, hset, hfree, searchNext]
  simp only [bind, Except.bind, Bool.not_true, beq_self_eq_true, if_true, hshape.first, hderef₀,
    hb₀.index, hpaddr]

/-- **The lock of the last free page**, with `first_free` at it or behind it, is followed by
a switch to a free page exactly when there is a second bitmap and its first page is free,
or `first_free` is at the end of the first bitmap. -/
theorem tryLockPage_fill (env : PmEnv) (hreq : StuckWhenFull req) (hs : Shape s c)
    (hsparse : Sparse s)
    (hpaddr : toBitmap paddr = 0) (hlast : s.freeSet = {pageOf paddr})
    (hcursor : c ≤ bitmapSize) (hrounds : bitmapSize < rounds) :
    (∃ s', tryLockPage env req rounds s paddr = .ok (true, s') ∧ OnFree s') ↔
      ∃ b rest, s.memBitmaps.tail = b :: rest ∧
        (bitAt s.maps b.super.map 0 = false ∨ c = bitmapSize) := by
  obtain ⟨s₁, ⟨hshape, -, hfull, -, hmaps, htail⟩, hlock⟩ :=
    tryLockPage_filled env req rounds hs hpaddr hlast
  have hsparse₁ : Sparse s₁ := hsparse.congr htail hmaps
  rw [hlock]
  cases hring : s.memBitmaps.tail with
  | nil =>
    refine iff_of_false ?_ (by simp)
    rintro ⟨s', hok, hon⟩
    obtain ⟨s₂, hsearch, hret⟩ := Except.bind_eq_ok_iff.mp hok
    cases hret
    exact not_onFree_head (searchNext_nil hreq hshape hfull hcursor hrounds
      (htail.trans hring) hsearch) hon
  | cons b rest =>
    have htail₁ := htail.trans hring
    rcases Nat.lt_or_eq_of_le hcursor with hlt | rfl
    · rw [searchNext_cons hshape hfull hsparse₁ hlt hrounds htail₁]
      have hmem : b ∈ s₁.memBitmaps.tail := by rw [htail₁]; exact List.mem_cons_self
      have hderef : (s₁.setFirstFree 0 bitmapSize).deref (.node b.id) = .ok b :=
        (hshape.setFirstFree bitmapSize).deref_second ((hshape.modify_tail _).trans htail₁)
      obtain ⟨page, hmap⟩ := hsparse₁.map b hmem
      have hbit : bitAt s₁.maps b.super.map b.firstFree = bitAt s.maps b.super.map 0 := by
        rw [hsparse₁.firstFree b hmem, hmap, bitAt, hmaps, ← bitAt]
      constructor
      · rintro ⟨s', hok, b', -, hderef', -, -, hclear⟩
        cases hok
        have heq : b' = b := Except.ok.inj (hderef'.symm.trans hderef)
        subst heq
        exact ⟨b', rest, rfl, .inl (hbit.symm.trans hclear)⟩
      · rintro ⟨b', rest', hcons, hclear⟩
        cases hcons
        have hderef' : PmState.deref (PmState.pageLocked
            { s₁.setFirstFree 0 bitmapSize with firstFreeBitmap := .node b.id } paddr)
            (.node b.id) = .ok b := hderef
        refine ⟨_, rfl, b, mem_of_deref hderef', hderef', hsparse₁.unset b hmem, ?_,
          hbit.trans (hclear.resolve_right hlt.ne)⟩
        rw [hsparse₁.firstFree b hmem, hsparse₁.size b hmem]
        exact Nat.zero_lt_of_lt hlt
    · obtain ⟨j, hj, hclear, hsearch⟩ :=
        @searchNext_end env req _ _ hshape hsparse₁ hrounds _ _ htail₁
      have hmem : b ∈ s₁.memBitmaps.tail := by rw [htail₁]; exact List.mem_cons_self
      have hderef : ((s₁.movedTo b.id j).pageLocked paddr).deref (.node b.id) =
          .ok { b with firstFree := j } := deref_setFirstFree (hshape.deref_second htail₁)
      have hlt : j < b.super.size := by
        rw [hsparse₁.size b hmem, bitmapSize_eq]
        omega
      refine iff_of_true ⟨(s₁.movedTo b.id j).pageLocked paddr, ?_, _, mem_of_deref hderef, hderef,
        hsparse₁.unset b hmem, hlt, hclear⟩ ⟨b, rest, rfl, .inr rfl⟩
      rw [hsearch]
      rfl

/-- A lock of a free page, if it returns, has succeeded. -/
theorem tryLockPage_true (hs : Shape s c) (hpaddr : toBitmap paddr = 0)
    (hfree : s.pageBit (pageOf paddr) = false) {r : Bool}
    (hok : tryLockPage env req rounds s paddr = .ok (r, s')) : r = true := by
  obtain ⟨⟨set, s₁⟩, hset, hrest⟩ := Except.bind_eq_ok_iff.mp hok
  obtain ⟨s₂, hset₂, -⟩ := trySetPage_first env req hs hpaddr true
  rw [hfree] at hset₂
  rw [hset₂] at hset
  cases hset
  simp only [Bool.not_true, beq_self_eq_true, if_true] at hrest
  obtain ⟨b, -, hrest⟩ := Except.bind_eq_ok_iff.mp hrest
  obtain ⟨s₃, -, hret⟩ := Except.bind_eq_ok_iff.mp hrest
  cases hret
  rfl

/-! ## The last free page -/

/-- The operation locks the last free page of `first_free_bitmap`, and more memory is
counted as free. -/
def Fills (s : PmState) : PmEvent → Prop
  | .tryLockPage paddr => ∃ b, s.deref s.firstFreeBitmap = .ok b ∧ toBitmap paddr = b.index ∧
      ∀ i < b.super.size, bitAt s.maps b.super.map i = false ↔ i = toIndex paddr
  | .requestPage => pageSize ≤ s.memInfo.free ∧ ∃ b, s.deref s.firstFreeBitmap = .ok b ∧
      ∀ i < b.super.size, bitAt s.maps b.super.map i = false ↔ i = b.firstFree
  | _ => False

/-- The operation returns, with `first_free_bitmap` on a free page. -/
def MovesOn (env : PmEnv) (fuel : ℕ) (s : PmState) (e : PmEvent) : Prop :=
  ∃ s', pmStep env fuel s e = .ok s' ∧ OnFree s'

/-- An earlier call beyond the first 128 MiB has left a second bitmap, and the first page of
this one is not locked, or a request takes the last page of the first 128 MiB. -/
def HasNext (s : PmState) (e : PmEvent) : Prop :=
  ∃ b rest, s.memBitmaps.tail = b :: rest ∧ (bitAt s.maps b.super.map 0 = false ∨
    e = .requestPage ∧ s.pageBit (bitmapSize - 1) = false)

/-- What the last free page is, when the manager works on the first bitmap. -/
theorem freeSet_of_last {b : MemBitmap} {i : ℕ} (hb : IsFirst c b) (hi : i < bitmapSize)
    (hlast : ∀ j < b.super.size, bitAt s.maps b.super.map j = false ↔ j = i) :
    s.freeSet = {i} := by
  rw [hb.size, hb.map] at hlast
  ext j
  rw [PmState.mem_freeSet, Finset.mem_singleton]
  constructor
  · rintro ⟨hj, hclear⟩
    exact (hlast j hj).mp hclear
  · rintro rfl
    exact ⟨hi, (hlast j hi).mpr rfl⟩

/-- The state that an operation leaves. -/
theorem exists_snd_iff {α : Type} {x : Except Fault (α × PmState)} {P : PmState → Prop} :
    (∃ s', Prod.snd <$> x = .ok s' ∧ P s') ↔ ∃ r s', x = .ok (r, s') ∧ P s' := by
  constructor
  · rintro ⟨s', hx, hs'⟩
    cases x with
    | error f => cases hx
    | ok p => cases hx; exact ⟨p.1, p.2, rfl, hs'⟩
  · rintro ⟨r, s', rfl, hs'⟩
    exact ⟨s', rfl, hs'⟩

/-- **A lock** of the last free page. -/
theorem Tidy.lock_movesOn (env : PmEnv) (hfuel : bitmapSize < fuel) (hs : Tidy s)
    (he : Fills s (.tryLockPage paddr)) :
    MovesOn env fuel s (.tryLockPage paddr) ↔ HasNext s (.tryLockPage paddr) := by
  obtain ⟨c, hready⟩ := hs.keeps.ready
  obtain ⟨b₀, hderef₀, hb₀⟩ := hready.deref
  obtain ⟨b, hderef, hbitmap, hlast⟩ := he
  rw [hready.first, hderef₀] at hderef
  cases hderef
  rw [hb₀.index] at hbitmap
  rw [toIndex_eq_pageOf hbitmap] at hlast
  have hset := freeSet_of_last hb₀ (toBitmap_eq_zero_iff.mp hbitmap) hlast
  have hfree : s.pageBit (pageOf paddr) = false :=
    (PmState.mem_freeSet.mp (hset ▸ Finset.mem_singleton_self _)).2
  have hfill := tryLockPage_fill env (stuckWhenFull env fuel) hready.toShape hs.sparse hbitmap
    hset hready.lt.le hfuel
  have hnext : HasNext s (.tryLockPage paddr) ↔ ∃ b rest, s.memBitmaps.tail = b :: rest ∧
      (bitAt s.maps b.super.map 0 = false ∨ c = bitmapSize) := by
    simp only [HasNext, hready.lt.ne, reduceCtorEq, false_and]
  rw [hnext, ← hfill, MovesOn, pmStep, exists_snd_iff]
  constructor
  · rintro ⟨r, s', hok, hon⟩
    obtain rfl := tryLockPage_true hready.toShape hbitmap hfree hok
    exact ⟨s', hok, hon⟩
  · rintro ⟨s', hok, hon⟩
    exact ⟨true, s', hok, hon⟩

/-- A request moves `first_free` behind the page, and locks the page. -/
theorem pmRequestPage_ready (env : PmEnv) (fuel : ℕ) (hready : Ready s c)
    (hmem : pageSize ≤ s.memInfo.free) : pmRequestPage env (fuel + 1) s = (do
      let (locked, s₁) ← tryLockPage env (pmRequestPage env fuel) fuel
        (s.setFirstFree 0 (c + 1)) (c * pageSize)
      assert locked "pm_try_lock_page(paddr)"
      return (c * pageSize, { s₁ with handed := c * pageSize :: s₁.handed })) := by
  obtain ⟨b₀, hderef₀, hb₀⟩ := hready.deref
  have hc : wrap64 (c + 1) = c + 1 := by
    have := hready.lt
    rw [bitmapSize_eq] at this
    exact wrap64_of_lt (by omega)
  rw [pmRequestPage, hready.first]
  simp only [hmem, decide_true, assert_true, bind, Except.bind, hderef₀, hb₀.index,
    hb₀.firstFree, toPaddr_zero hready.lt, hc, hb₀.id]

/-- **A request** for the last free page. -/
theorem Tidy.request_movesOn (env : PmEnv) (hfuel : bitmapSize + 1 < fuel) (hs : Tidy s)
    (he : Fills s .requestPage) : MovesOn env fuel s .requestPage ↔ HasNext s .requestPage := by
  obtain ⟨fuel, rfl⟩ := Nat.exists_eq_add_of_le' (Nat.one_le_of_lt hfuel)
  obtain ⟨c, hready⟩ := hs.keeps.ready
  obtain ⟨b₀, hderef₀, hb₀⟩ := hready.deref
  obtain ⟨hmem, b, hderef, hlast⟩ := he
  rw [hready.first, hderef₀] at hderef
  cases hderef
  rw [hb₀.firstFree] at hlast
  have hset := freeSet_of_last hb₀ hready.lt hlast
  have hpage : pageOf (c * pageSize) = c := pageOf_mul c
  have hnear : toBitmap (c * pageSize) = 0 := by
    rw [toBitmap_eq_zero_iff, hpage]
    exact hready.lt
  -- `first_free` is behind the page when it is locked
  have hmoved := hready.toShape.setFirstFree (c + 1)
  have hsparse : Sparse (s.setFirstFree 0 (c + 1)) :=
    hs.sparse.congr (hready.toShape.modify_tail _) fun _ => rfl
  have hfill := tryLockPage_fill env (stuckWhenFull env fuel) hmoved hsparse hnear
    (by rw [hpage]; exact hset) hready.lt (show bitmapSize < fuel by omega)
  have hend : c + 1 = bitmapSize ↔ s.pageBit (bitmapSize - 1) = false := by
    have hlt := hready.lt
    constructor
    · intro heq
      rw [← heq, Nat.add_sub_cancel]
      exact hready.free
    · intro hclear
      have hlow : ¬ c < bitmapSize - 1 := by
        intro hlow
        have hlastFree : bitmapSize - 1 ∈ s.freeSet :=
          PmState.mem_freeSet.mpr ⟨by omega, hclear⟩
        rw [hset, Finset.mem_singleton] at hlastFree
        omega
      omega
  have hnext : HasNext s .requestPage ↔
      ∃ b rest, (s.setFirstFree 0 (c + 1)).memBitmaps.tail = b :: rest ∧
        (bitAt (s.setFirstFree 0 (c + 1)).maps b.super.map 0 = false ∨ c + 1 = bitmapSize) := by
    have htail : (s.setFirstFree 0 (c + 1)).memBitmaps.tail = s.memBitmaps.tail :=
      hready.toShape.modify_tail _
    simp only [HasNext, htail, hend, true_and]
    rfl
  have hrequest := pmRequestPage_ready env fuel hready hmem
  rw [hnext, ← hfill, MovesOn, pmStep, hrequest, exists_snd_iff]
  constructor
  · rintro ⟨r, s', hok, hon⟩
    obtain ⟨⟨locked, s₁⟩, hlock, hret⟩ := Except.bind_eq_ok_iff.mp hok
    obtain ⟨_, hlocked, hret⟩ := Except.bind_eq_ok_iff.mp hret
    rw [assert_eq_ok] at hlocked
    cases hlocked
    cases hret
    exact ⟨s₁, hlock, hon⟩
  · rintro ⟨s₁, hlock, hon⟩
    refine ⟨c * pageSize, { s₁ with handed := c * pageSize :: s₁.handed }, ?_, hon⟩
    rw [hlock]
    rfl

/-- **Filling the first bitmap.**  In every state that a run from `pm_init` reaches while the
first bitmap suffices, a lock or a request of its last free page returns with
`first_free_bitmap` on a free page exactly when a second bitmap can take over.  More fuel
for the call does not help. -/
theorem movesOn_iff (env : PmEnv) (fuel : ℕ) (hfuel : bitmapSize < fuel)
    (memMap : List MemSegment) (s₀ : PmState) (hinit : pmInit env fuel memMap = .ok s₀)
    (hfree : 0 < s₀.freePages) (es : List PmEvent) (s : PmState)
    (hrun : GuardedRun.Run (pmStep env fuel) (FirstBitmapSuffices env) s₀ es s) (e : PmEvent)
    (he : Fills s e) (callFuel : ℕ) (hcall : bitmapSize + 1 < callFuel) :
    MovesOn env callFuel s e ↔ HasNext s e := by
  have hstart : Tidy s₀ := by
    have hkeeps : Keeps ∅ s₀ := (pmInit_spec hfuel hinit hfree).keeps fun i hi => by cases hi
    exact ⟨hkeeps, (pmInit_count hfuel hinit hfree).alone.sparse⟩
  have hs : Tidy s :=
    hrun.invariant (fun _ _ _ hs he hstep => hs.step hfuel he hstep) hstart
  cases e with
  | tryLockPage paddr => exact hs.lock_movesOn env (by omega) he
  | requestPage => exact hs.request_movesOn env hcall he
  | _ => exact absurd he id

end Fill

/-! ## A machine with more memory -/

/-- 256 MiB of memory. -/
def wideMap : List MemSegment := [{ type := .available, addr := 0, length := 2 ^ 28 }]

/-- After all pages of the first 128 MiB but the last were locked, the lock of this one fills
the first bitmap, and there is no other. -/
theorem wide_run : ∃ s₀ s, pmInit flatEnv 40000 wideMap = .ok s₀ ∧ 0 < s₀.freePages ∧
    GuardedRun.Run (pmStep flatEnv 40000) (FirstBitmapSuffices flatEnv) s₀
      [.tryLockPages (2 * pageSize) (32765 * pageSize)] s ∧ Tidy s ∧
    Fills s (.tryLockPage (32767 * pageSize)) ∧ s.memBitmaps.tail = [] := by
  have hfuel : bitmapSize < 40000 := by rw [bitmapSize_eq]; decide
  have htest : ((pmInit flatEnv 40000 wideMap).toOption.any fun s₀ => !s₀.pageBit 5) = true := by
    decide +kernel
  obtain ⟨s₀, hinit, hbit⟩ := Except.exists_of_any htest
  have hclear : s₀.pageBit 5 = false := by simpa using hbit
  have hfree : 0 < s₀.freePages := Finset.card_pos.mpr
    ⟨5, PmState.mem_freeSet.mpr ⟨by rw [bitmapSize_eq]; decide, hclear⟩⟩
  have hcount := pmInit_count hfuel hinit hfree
  -- the pages 0 and 1 are locked
  have hboot : bootPages flatEnv wideMap = {0} := by
    have haddrs : bootAddrs flatEnv wideMap = [0] := by decide
    ext i
    simp [bootPages, haddrs, pageOf]
  have hbits : ∀ i < bitmapSize, s₀.pageBit i = true ↔ i < 2 := by
    obtain ⟨c, -, hc, hbelow, hbits⟩ := hcount.bits
    rw [hboot] at hc hbelow
    have hc₁ : c = 1 := by
      have hle : ¬ 1 < c := fun h => absurd (hbelow 1 h) (by simp)
      have hne : c ≠ 0 := fun h => hc h
      omega
    intro i hi
    rw [hbits i hi, hboot, hc₁, Set.mem_singleton_iff]
    omega
  have hpages : rangeAddrs (2 * pageSize) (32765 * pageSize) = addrs 32765 (2 * pageSize) := by
    rw [rangeAddrs, if_neg (by decide), show pagesOf (32765 * pageSize) = 32765 by decide]
  have hfit : 2 + 32765 ≤ bitmapSize := by rw [bitmapSize_eq]; decide
  have hlast : 32767 ∈ s₀.freeSet := by
    refine PmState.mem_freeSet.mpr ⟨by rw [bitmapSize_eq]; decide, ?_⟩
    by_contra hset
    have := (hbits 32767 (by rw [bitmapSize_eq]; decide)).mp (by simpa using hset)
    omega
  have hallowed : ∀ a ∈ rangeAddrs (2 * pageSize) (32765 * pageSize),
      toBitmap a = 0 ∧ 32767 ≠ pageOf a := by
    intro a ha
    rw [hpages] at ha
    obtain ⟨k, hk, rfl⟩ := mem_addrs_row hfit ha
    rw [toBitmap_eq_zero_iff, pageOf_mul]
    omega
  obtain ⟨r, s, hok, hs, hset⟩ := hcount.inCount.pageRange (pmTryLockPage flatEnv 40000)
    (· && ·) true (fun s => 32767 ∈ s.freeSet) (fun a => toBitmap a = 0 ∧ 32767 ≠ pageOf a)
    (by
      rintro s a hs hkeep ⟨hnear, hne⟩
      obtain ⟨r, s', hok, hs', hset⟩ := hs.pmTryLockPage flatEnv hfuel.le hnear ⟨_, hkeep, hne⟩
      refine ⟨r, s', hok, hs', ?_, hset⟩
      rw [PmState.mem_freeSet] at hkeep ⊢
      refine ⟨hkeep.1, ?_⟩
      rw [hset.bits, if_neg (by simpa using hne)]
      exact hkeep.2)
    (32765 * pageSize) hlast hallowed
  have hrow : ∀ i, i ∈ (rangeAddrs (2 * pageSize) (32765 * pageSize)).map pageOf ↔
      2 ≤ i ∧ i < 32767 := by
    intro i
    rw [hpages, addrs_row hfit, List.map_map, List.mem_map]
    simp only [Function.comp_apply, pageOf_mul, exists_eq_right, List.mem_range'_1]
  have hfill : ∀ i < bitmapSize, s.pageBit i = false ↔ i = 32767 := by
    intro i hi
    rw [hset.bits i]
    rw [bitmapSize_eq] at hi
    by_cases hmid : 2 ≤ i ∧ i < 32767
    · rw [if_pos ((hrow i).mpr hmid)]
      simp
      omega
    · rw [if_neg (fun h => hmid ((hrow i).mp h))]
      by_cases hlow : i < 2
      · simp [(hbits i (by rw [bitmapSize_eq]; exact hi)).mpr hlow]
        omega
      · obtain rfl : i = 32767 := by omega
        simp [(PmState.mem_freeSet.mp hlast).2]
  have hsuffices : FirstBitmapSuffices flatEnv s₀
      (.tryLockPages (2 * pageSize) (32765 * pageSize)) := by
    rw [FirstBitmapSuffices, hpages, cost_row _ _ _ _ _ hfit]
    have hsub : (Finset.range bitmapSize \ Finset.range 2) ⊆ s₀.freeSet := by
      intro i hi
      rw [Finset.mem_sdiff, Finset.mem_range, Finset.mem_range] at hi
      refine PmState.mem_freeSet.mpr ⟨hi.1, ?_⟩
      by_contra hlocked
      exact hi.2 ((hbits i hi.1).mp (by simpa using hlocked))
    have hle := Finset.card_le_card hsub
    rw [Finset.card_sdiff_of_subset (by rw [bitmapSize_eq]; simp), Finset.card_range,
      Finset.card_range, bitmapSize_eq] at hle
    exact lt_of_lt_of_le (by decide) hle
  have hstep : pmStep flatEnv 40000 s₀ (.tryLockPages (2 * pageSize) (32765 * pageSize)) =
      .ok s := by
    rw [pmStep, pmTryLockPages, hok]
    rfl
  have hkeeps : Keeps ∅ s₀ := (pmInit_spec hfuel hinit hfree).keeps fun i hi => by cases hi
  have htidy₀ : Tidy s₀ := ⟨hkeeps, hcount.alone.sparse⟩
  have htidy : Tidy s := htidy₀.step hfuel hsuffices hstep
  refine ⟨s₀, s, hinit, hfree, .cons hsuffices hstep (.nil s), htidy, ?_,
    hset.tail.trans hcount.alone.tail⟩
  obtain ⟨c, hready⟩ := htidy.keeps.ready
  obtain ⟨b, hderef, hb⟩ := hready.deref
  refine ⟨b, hready.first ▸ hderef, ?_, ?_⟩
  · rw [hb.index]
    decide
  · rw [hb.size, hb.map, show toIndex (32767 * pageSize) = 32767 by decide]
    exact hfill

/-- In that state the call does what the ring allows. -/
theorem movesOn_iff_wide : ∃ s, Fills s (.tryLockPage (32767 * pageSize)) ∧
    (MovesOn flatEnv 40000 s (.tryLockPage (32767 * pageSize)) ↔
      HasNext s (.tryLockPage (32767 * pageSize))) := by
  obtain ⟨s₀, s, hinit, hfree, hrun, -, hfills, -⟩ := wide_run
  exact ⟨s, hfills, movesOn_iff flatEnv 40000 (by decide) wideMap s₀ hinit hfree _ s hrun _ hfills
    40000 (by decide)⟩

/-- **The lock of the last free page below 128 MiB does not find a free page**, however much
fuel it gets. -/
theorem not_movesOn_last :
    ¬ ∀ env fuel memMap s₀, bitmapSize < fuel → pmInit env fuel memMap = .ok s₀ →
      0 < s₀.freePages → ∀ es s,
      GuardedRun.Run (pmStep env fuel) (FirstBitmapSuffices env) s₀ es s →
      ∀ e, Fills s e → ∃ bound, ∀ callFuel, bound ≤ callFuel → MovesOn env callFuel s e := by
  intro hall
  obtain ⟨s₀, s, hinit, hfree, hrun, hs, hfills, htail⟩ := wide_run
  obtain ⟨bound, hmoves⟩ :=
    hall flatEnv 40000 wideMap s₀ (by decide) hinit hfree _ s hrun _ hfills
  have hfuel : bitmapSize < max bound 40000 := lt_of_lt_of_le (by decide) (le_max_right _ _)
  obtain ⟨b, rest, hcons, -⟩ :=
    (hs.lock_movesOn flatEnv hfuel hfills).mp (hmoves _ (le_max_left _ _))
  rw [htail] at hcons
  cases hcons

end Mimik.Pm
