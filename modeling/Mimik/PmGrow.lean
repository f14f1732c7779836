/-
# A request unlocks nothing

Whatever state the allocator is in, `pm_request_page` and what it calls clear no bit of the
first bitmap: `try_set_page` sets one, and a new bitmap has its bits elsewhere.  So a
request that returns and leaves a free page has found two of them, and was served
in order (`InCount.of_request`).
-/
import Mimik.PmFill

namespace Mimik.Pm

attribute [local irreducible] bitmapSize wrap64 sub64

variable {env : PmEnv} {req : RequestPage} {fuel rounds : ℕ} {s s' s₁ s₂ : PmState} {c paddr : ℕ}

/-! ## Bits that are set stay set -/

/-- No bit of the first bitmap is cleared. -/
def OnlyLocks (s s' : PmState) : Prop := ∀ i, s.pageBit i = true → s'.pageBit i = true

/-- No request clears one. -/
def RequestLocks (req : RequestPage) : Prop := ∀ s a s', req s = .ok (a, s') → OnlyLocks s s'

theorem OnlyLocks.trans (h : OnlyLocks s s₁) (h' : OnlyLocks s₁ s₂) : OnlyLocks s s₂ :=
  fun i hi => h' i (h i hi)

theorem OnlyLocks.of_maps (h : s'.maps = s.maps) : OnlyLocks s s' := by
  intro i hi
  rw [PmState.pageBit, h]
  exact hi

theorem heapRequests_onlyLocks (hreq : RequestLocks req) (n : ℕ)
    (hok : heapRequests req n s = .ok s') : OnlyLocks s s' := by
  induction n generalizing s with
  | zero =>
    cases hok
    exact .of_maps rfl
  | succ n ih =>
    obtain ⟨⟨a, s₁⟩, hfst, hrest⟩ := Except.bind_eq_ok_iff.mp hok
    exact (hreq s a s₁ hfst).trans (ih hrest)

theorem linkBitmap_onlyLocks (s : PmState) (ref : BitmapRef) (id : ℕ) :
    OnlyLocks s (linkBitmap s ref id) := by
  obtain ⟨-, -, -, hother⟩ := bitmapFrom_spec s.maps bitmapSize
    (MapPtr.page s.nextBitmapPage) (by rw [bitmapSize_eq]; omega)
  intro i hi
  exact (congrArg (fun bytes => (bytes (i / 8)).getLsbD (i % 8))
    (hother .pagesBitmap0 (by simp))).trans hi

theorem createBitmap_onlyLocks (hreq : RequestLocks req) (index : ℕ) {r : ℕ}
    (hok : createBitmap env req s index = .ok (r, s')) : OnlyLocks s s' := by
  obtain ⟨⟨id, s₁⟩, halloc, hok⟩ := Except.bind_eq_ok_iff.mp hok
  obtain ⟨s₂, hheap, hret⟩ := Except.bind_eq_ok_iff.mp halloc
  cases hret
  obtain ⟨_, -, hok⟩ := Except.bind_eq_ok_iff.mp hok
  obtain ⟨⟨page, s₃⟩, hpage, hret⟩ := Except.bind_eq_ok_iff.mp hok
  cases hret
  have hheap' : OnlyLocks { s with allocCalls := s.allocCalls + 1 } s₁ :=
    heapRequests_onlyLocks hreq _ hheap
  have hlink : OnlyLocks s₁ s₃ := (linkBitmap_onlyLocks s₁ _ _).trans (hreq _ _ _ hpage)
  exact fun i hi => hlink i (hheap' i hi)

theorem findFirstFreeBitmap_onlyLocks (hreq : RequestLocks req)
    (hok : findFirstFreeBitmap env req s = .ok s') : OnlyLocks s s' := by
  rw [findFirstFreeBitmap] at hok
  split at hok
  next =>
    cases hok
    exact .of_maps rfl
  next => cases hok
  next =>
    obtain ⟨r, hcreate, hret⟩ := Except.bind_eq_ok_iff.mp hok
    cases hret
    exact fun i hi => createBitmap_onlyLocks hreq _ hcreate i hi

theorem findFirstFreeIndex_onlyLocks (hreq : RequestLocks req) (rounds : ℕ) {r : Bool}
    (hok : findFirstFreeIndex env req rounds s = .ok (r, s')) : OnlyLocks s s' := by
  induction rounds generalizing s with
  | zero => cases hok
  | succ rounds ih =>
    obtain ⟨b, -, hok⟩ := Except.bind_eq_ok_iff.mp hok
    simp only at hok
    split at hok
    next =>
      cases hok
      exact .of_maps rfl
    next =>
      obtain ⟨s₁, hmove, hok⟩ := Except.bind_eq_ok_iff.mp hok
      have hs₁ : OnlyLocks s s₁ := by
        split at hmove
        next =>
          obtain ⟨_, -, hmove⟩ := Except.bind_eq_ok_iff.mp hmove
          exact findFirstFreeBitmap_onlyLocks hreq hmove
        next =>
          cases hmove
          exact .of_maps rfl
      obtain ⟨b₁, -, hok⟩ := Except.bind_eq_ok_iff.mp hok
      split at hok
      next =>
        have hrest : OnlyLocks (s₁.setFirstFree b₁.id (wrap64 (b₁.firstFree + 1))) s' := ih hok
        exact fun i hi => hrest i (hs₁ i hi)
      next =>
        cases hok
        exact hs₁

theorem trySetPage_onlyLocks (hreq : RequestLocks req) {r : Bool}
    (hok : trySetPage env req s paddr true = .ok (r, s')) : OnlyLocks s s' := by
  obtain ⟨⟨id, s₁⟩, hfind, hok⟩ := Except.bind_eq_ok_iff.mp hok
  have hs₁ : OnlyLocks s s₁ := by
    split at hfind
    next =>
      cases hfind
      exact .of_maps rfl
    next => exact createBitmap_onlyLocks hreq _ hfind
  obtain ⟨b, -, hok⟩ := Except.bind_eq_ok_iff.mp hok
  rcases hset : bitmapSet s₁.maps b.super (toIndex paddr) true with ⟨sts, super, maps⟩
  simp only [hset] at hok
  cases hok
  intro i hi
  replace hi := hs₁ i hi
  rcases Nat.lt_or_ge (toIndex paddr) b.super.size with hlt | hle
  · obtain ⟨_, _, _, heq, -, -, -, hbits, hother⟩ := bitmapSet_spec s₁.maps b.super true hlt
    rw [hset] at heq
    cases heq
    by_cases hmap : b.super.map = .pagesBitmap0
    · rw [hmap] at hbits
      refine (hbits i).trans ?_
      rw [show bitAt s₁.maps .pagesBitmap0 i = true from hi, ite_self]
    · exact (congrArg (fun bytes => (bytes (i / 8)).getLsbD (i % 8))
        (hother .pagesBitmap0 (Ne.symm hmap))).trans hi
  · rw [bitmapSet, if_pos hle] at hset
    cases hset
    exact hi

/-- What follows `try_set_page` clears no bit either. -/
theorem tryLockPage_onlyLocks (hreq : RequestLocks req) {r : Bool}
    (hok : tryLockPage env req rounds s paddr = .ok (r, s')) :
    ∃ s₁, trySetPage env req s paddr true = .ok (r, s₁) ∧ OnlyLocks s₁ s' := by
  obtain ⟨⟨set, s₁⟩, hset, hok⟩ := Except.bind_eq_ok_iff.mp hok
  cases set with
  | false =>
    cases hok
    exact ⟨_, hset, .of_maps rfl⟩
  | true =>
    simp only [if_true] at hok
    obtain ⟨b, -, hok⟩ := Except.bind_eq_ok_iff.mp hok
    obtain ⟨s₂, hsearch, hret⟩ := Except.bind_eq_ok_iff.mp hok
    cases hret
    refine ⟨s₁, hset, fun i hi => ?_⟩
    split at hsearch
    next =>
      obtain ⟨⟨found, s₃⟩, hindex, hsearch⟩ := Except.bind_eq_ok_iff.mp hsearch
      have hs₃ := findFirstFreeIndex_onlyLocks hreq _ hindex i hi
      cases found with
      | true =>
        cases hsearch
        exact hs₃
      | false => exact findFirstFreeBitmap_onlyLocks hreq hsearch i hs₃
    next =>
      cases hsearch
      exact hi

/-- **A request unlocks nothing.** -/
theorem requestLocks (env : PmEnv) (fuel : ℕ) : RequestLocks (pmRequestPage env fuel) := by
  induction fuel with
  | zero =>
    intro s a s' hok
    cases hok
  | succ fuel ih =>
    intro s a s' hok
    obtain ⟨_, -, hok⟩ := Except.bind_eq_ok_iff.mp hok
    obtain ⟨b, -, hok⟩ := Except.bind_eq_ok_iff.mp hok
    obtain ⟨⟨locked, s₁⟩, hlock, hok⟩ := Except.bind_eq_ok_iff.mp hok
    obtain ⟨_, -, hret⟩ := Except.bind_eq_ok_iff.mp hok
    cases hret
    obtain ⟨s₂, hset, hrest⟩ := tryLockPage_onlyLocks ih hlock
    exact fun i hi => hrest i (trySetPage_onlyLocks ih hset i hi)

/-! ## Requests that leave a free page -/

/-- A request that returns and leaves a free page was one of two or more. -/
theorem InCount.room_of_request (hs : InCount s) {a : ℕ}
    (hok : Mimik.Pm.pmRequestPage env fuel s = .ok (a, s')) (hleft : 0 < s'.freePages) :
    1 < s.freePages := by
  cases fuel with
  | zero => cases hok
  | succ fuel =>
    obtain ⟨c, hready⟩ := hs.ready
    obtain ⟨b, hderef, hb⟩ := hready.deref
    obtain ⟨_, -, hok⟩ := Except.bind_eq_ok_iff.mp hok
    obtain ⟨b', hderef', hok⟩ := Except.bind_eq_ok_iff.mp hok
    rw [hready.first, hderef] at hderef'
    cases hderef'
    obtain ⟨⟨locked, s₁⟩, hlock, hok⟩ := Except.bind_eq_ok_iff.mp hok
    obtain ⟨_, -, hret⟩ := Except.bind_eq_ok_iff.mp hok
    cases hret
    have hpage : pageOf (c * pageSize) = c := pageOf_mul c
    have hnear : toBitmap (c * pageSize) = 0 := by
      rw [toBitmap_eq_zero_iff, hpage]
      exact hready.lt
    rw [hb.index, hb.firstFree, hb.id, toPaddr_zero hready.lt] at hlock
    obtain ⟨s₂, hset, hrest⟩ := tryLockPage_onlyLocks (requestLocks env fuel) hlock
    obtain ⟨s₃, hset₃, -, -, hbits, -⟩ := trySetPage_first env (Mimik.Pm.pmRequestPage env fuel)
      (hready.toShape.setFirstFree (wrap64 (c + 1))) hnear true
    rw [hset₃] at hset
    cases hset
    have hsubset : s₁.freeSet ⊆ s.freeSet.erase c := by
      intro i hi
      rw [PmState.mem_freeSet] at hi
      rw [Finset.mem_erase, PmState.mem_freeSet]
      have hclear : s₂.pageBit i = false := by
        by_contra hset
        rw [hrest i (by simpa using hset)] at hi
        cases hi.2
      rw [hbits, hpage] at hclear
      split at hclear
      next => cases hclear
      next hne => exact ⟨hne, hi.1, hclear⟩
    have hmem : c ∈ s.freeSet := PmState.mem_freeSet.mpr ⟨hready.lt, hready.free⟩
    have hle := Finset.card_le_card hsubset
    rw [Finset.card_erase_of_mem hmem] at hle
    have hleft' : 0 < s₁.freeSet.card := hleft
    show 1 < s.freeSet.card
    omega

/-- **A request in order.**  It returned the lowest free page, and locked this page only. -/
theorem InCount.of_request (hfuel : bitmapSize < fuel) (hs : InCount s) {a : ℕ}
    (hok : Mimik.Pm.pmRequestPage env fuel s = .ok (a, s')) (hleft : 0 < s'.freePages) :
    ∃ c, Ready s c ∧ a = c * pageSize ∧ InCount s' ∧ SetsBits s s' [a] true := by
  obtain ⟨c, hready⟩ := hs.ready
  obtain ⟨hreturns, hstops⟩ :=
    hs.pmRequestPage env hfuel hready (hs.room_of_request hok hleft)
  rcases Nat.lt_or_ge s.memInfo.free pageSize with hlack | henough
  · rw [hstops hlack] at hok
    cases hok
  · obtain ⟨s₁, hreq, hcount, hbits, -⟩ := hreturns henough
    rw [hreq] at hok
    cases hok
    exact ⟨c, hready, rfl, hcount, hbits⟩

end Mimik.Pm
