/-
# Rows of pages (`pm_request_pages`)

`pm_request_pages` looks for a row of free pages in `first_free_bitmap`, from `first_free`
on.  Its loop ends with the bitmap: the branch that goes on with the next one is not
reached.  What it has counted then, the free pages at the end of the bitmap, it takes for
the whole row, and locks as many pages as were asked for, in whatever bitmaps they are.

So it finds the rows that start in `first_free_bitmap` or right behind it, and no others;
and where there is none, the pages that it locks can be pages that no bitmap tracked.  When
the locks use up the bitmap that is searched, the search has to go on in the ring
(`PmOnward.lean`).  The states are those of `PmRange.lean`.
-/
import Mimik.PmOnward

namespace Mimik.Pm

-- `BITMAP_SIZE` is never to be counted down, nor a machine word
attribute [local irreducible] bitmapSize wrap64 sub64

/-! ## Rows -/

/-- The `num` pages from `p` on are tracked and free. -/
def PmState.FreeRow (s : PmState) (p num : ℕ) : Prop :=
  ∀ q, InRow p num q → s.Tracks q ∧ s.locked q = false

/-- The lowest row of free pages that starts in the bitmap, or right behind it, starts at `i`. -/
structure LowestRow (s : PmState) (first : MemBitmap) (num i : ℕ) : Prop where
  le : i ≤ bitmapSize
  free : s.FreeRow (first.page i) num
  lowest : ∀ j < i, ¬ s.FreeRow (first.page j) num

/-- The free pages at the end of the bitmap are those from `i` on. -/
structure TailFrom (s : PmState) (first : MemBitmap) (i : ℕ) : Prop where
  le : i ≤ bitmapSize
  free : ∀ j, i ≤ j → j < bitmapSize → s.locked (first.page j) = false
  before : ∀ j, j + 1 = i → s.locked (first.page j) = true

section Search

variable {s : PmState} {first b : MemBitmap} {num : ℕ}

/-- The pages at the end of the search, when all that is below `first_free` is locked. -/
theorem SearchEnd.locked {start : ℕ} (hs : Searching s first)
    (h : SearchEnd s first num first.firstFree start) :
    (∀ i, start ≤ i → i < start + num → i < bitmapSize → s.locked (first.page i) = false) ∧
      (∀ j, j + 1 = start → s.locked (first.page j) = true) ∧
      ∀ i, i + num ≤ bitmapSize → 0 < num → s.FreeRow (first.page i) num → start ≤ i := by
  have hbit : ∀ i < bitmapSize, s.locked (first.page i) = bitAt s.maps first.super.map i :=
    fun i hi => locked_eq hs.found hi
  have hle := h.le
  refine ⟨fun i hi hlt hsize => ?_, fun j hj => ?_, fun i hfit hnum hrow => ?_⟩
  · rw [hbit i hsize]
    exact h.free i hi hlt hsize
  · rcases h.before with hstart | hbefore
    · exact hs.below j (by omega)
    · rw [← hj, Nat.add_sub_cancel] at hbefore
      rw [hbit j (by omega)]
      exact hbefore
  · have hin : ∀ k < num, s.locked (first.page (i + k)) = false := fun k hk =>
      (hrow _ ⟨by rw [MemBitmap.page, MemBitmap.page]; omega,
        by rw [MemBitmap.page, MemBitmap.page]; omega⟩).2
    refine h.lowest i ?_ hfit fun k hk => ?_
    · by_contra hlt
      have hlocked := hin 0 hnum
      rw [Nat.add_zero, MemBitmap.page, hs.below i (by omega)] at hlocked
      cases hlocked
    · rw [← hbit _ (by omega)]
      exact hin k hk

end Search

/-! ## The locks -/

section Locks

variable {env : PmEnv} {fuel : ℕ} {s : PmState} {first : MemBitmap} {num : ℕ}

end Locks

/-! ## Requests -/

section Requests

variable {env : PmEnv} {fuel : ℕ} {s : PmState} {first : MemBitmap} {num : ℕ}

/-- What the results share: a state to search in, the number of pages, and enough free memory. -/
structure Asks (s : PmState) (first : MemBitmap) (num : ℕ) : Prop extends Searching s first where
  pos : 0 < num
  funds : num * pageSize ≤ s.memInfo.free
  counter : s.memInfo.free < 2 ^ 64
  /-- A physical address has 52 bits. -/
  index_lt : ∀ index b, findBitmapByIndex s index = some b → index < 2 ^ 25

/-- The address of a page of the bitmap. -/
theorem Asks.toPaddr (h : Asks s first num) {i : ℕ} (hi : i ≤ bitmapSize) :
    toPaddr first.index i = first.page i * pageSize := by
  have hlt := h.index_lt _ _ h.found
  rw [bitmapSize_eq] at hi
  rw [Mimik.Pm.toPaddr, MemBitmap.page, Nat.shiftLeft_eq, pageSize, bitmapSize_eq,
    wrap64_of_lt (by omega)]
  omega

/-- The state after the return of a row. -/
def PmState.handOver (s : PmState) (paddr num : ℕ) : PmState :=
  { s with
    handed := (List.range (max num 1)).map (fun k => wrap64 (paddr + k * pageSize)) ++ s.handed }

/-- **The run of `pm_request_pages`**: a search in `first_free_bitmap`, and the locks. -/
theorem Asks.run (env : PmEnv) (hfuel : bitmapSize < fuel) (h : Asks s first num) :
    ∃ start, SearchEnd s first num first.firstFree start ∧
      ∀ a s', pmRequestPages env fuel s num = .ok (a, s') ↔ a = first.page start * pageSize ∧
        ∃ s₁, pageLoop (pmTryLockPage env fuel) (· && ·) num s a true = .ok (true, s₁) ∧
          s' = s₁.handOver a num := by
  have hpos := h.pos
  have hfunds := h.funds
  have hcounter := h.counter
  obtain ⟨start, hsearch, hend⟩ : ∃ start, searchPages s num fuel false first first.firstFree
      first.firstFree 0 = .ok (first, start) ∧ SearchEnd s first num first.firstFree start :=
    searchPages_end (h.owns _ _ h.found).size fuel first.firstFree first.firstFree 0 rfl
      (fun k hk => absurd hk (Nat.not_lt_zero k)) (Nat.zero_le _) h.le (by omega)
  refine ⟨start, hend, fun a s' => ?_⟩
  have hbytes : bytesOf num = num * pageSize := wrap64_of_lt (by omega)
  have hpages : pagesOf (num * pageSize) = num := by
    rw [pagesOf, pageSize]
    rw [pageSize] at hfunds
    rw [wrap64_of_lt (by omega)]
    omega
  have hne : num * pageSize ≠ 0 := by
    rw [pageSize]
    omega
  have hrun : pmRequestPages env fuel s num =
      pageLoop (pmTryLockPage env fuel) (· && ·) num s (first.page start * pageSize) true >>=
        fun p => assert p.1 "pm_try_lock_pages(paddr, BYTES(num))" >>= fun _ =>
          .ok (first.page start * pageSize, p.2.handOver (first.page start * pageSize) num) := by
    rw [pmRequestPages, hbytes, decide_eq_true hfunds, assert_true]
    simp only [bind, Except.bind, h.deref, hsearch, h.toPaddr hend.le, pmTryLockPages, pageRange,
      if_neg hne, hpages]
    rfl
  rw [hrun, Except.bind_eq_ok_iff]
  constructor
  · rintro ⟨⟨locked, s₁⟩, hloop, hrest⟩
    obtain ⟨_, hlocked, hret⟩ := Except.bind_eq_ok_iff.mp hrest
    rw [assert_eq_ok] at hlocked
    simp only at hlocked
    cases hret
    exact ⟨rfl, s₁, hlocked ▸ hloop, rfl⟩
  · rintro ⟨rfl, s₁, hloop, rfl⟩
    exact ⟨_, hloop, rfl⟩

/-- A free page of the bitmap is tracked. -/
theorem Asks.free_of_lt (h : Asks s first num) {i q : ℕ} (hi : i < bitmapSize)
    (hfree : s.locked (first.page i) = false) (hq : first.page i = q) :
    s.Tracks q ∧ s.locked q = false := by
  subst hq
  exact ⟨⟨first, by rw [MemBitmap.page, (div_mod_page _ hi).1, h.found]⟩, hfree⟩

/-- What the search finds before the end of the bitmap is a row. -/
theorem Asks.freeRow (h : Asks s first num) {start : ℕ}
    (hend : SearchEnd s first num first.firstFree start) (hfit : start + num ≤ bitmapSize) :
    s.FreeRow (first.page start) num := by
  intro q hq
  obtain ⟨j, rfl⟩ := Nat.exists_eq_add_of_le hq.1
  have hj := hq.2
  refine h.free_of_lt (i := start + j) (by omega) ((hend.locked h.toSearching).1 (start + j)
    (by omega) (by omega) (by omega)) ?_
  rw [MemBitmap.page, MemBitmap.page, Nat.add_assoc]

/-- The search ends at the lowest row of free pages, if one starts in the bitmap or right behind
it. -/
theorem LowestRow.start_eq (h : Asks s first num) {i start : ℕ} (hi : LowestRow s first num i)
    (hend : SearchEnd s first num first.firstFree start) : start = i := by
  obtain ⟨hfree, hbefore, hlowest⟩ := hend.locked h.toSearching
  have hle := hend.le
  have hile := hi.le
  rcases lt_trichotomy start i with hlt | heq | hlt
  · -- the row at `i` would start at `start` already
    refine absurd (fun q hq => ?_) (hi.lowest start hlt)
    by_cases hin : q < first.page bitmapSize
    · obtain ⟨j, rfl⟩ := Nat.exists_eq_add_of_le hq.1
      have hj := hq.2
      rw [MemBitmap.page, MemBitmap.page] at hin
      exact h.free_of_lt (i := start + j) (by omega) (hfree (start + j) (by omega) (by omega)
        (by omega)) (by rw [MemBitmap.page, MemBitmap.page, Nat.add_assoc])
    · have hlo := hq.1
      have hhi := hq.2
      rw [MemBitmap.page] at hin hlo hhi
      exact hi.free q ⟨by rw [MemBitmap.page]; omega, by rw [MemBitmap.page]; omega⟩
  · exact heq
  · have hlocked := hbefore (start - 1) (by omega)
    by_cases hfit : i + num ≤ bitmapSize
    · exact absurd (hlowest i hfit h.pos hi.free) (by omega)
    · rw [(hi.free (first.page (start - 1)) ⟨by rw [MemBitmap.page, MemBitmap.page]; omega,
        by rw [MemBitmap.page, MemBitmap.page]; omega⟩).2] at hlocked
      cases hlocked

/-- The search ends at the tail of the bitmap, when there is no row in it. -/
theorem TailFrom.start_eq (h : Asks s first num) (hnone : ¬ ∃ p, s.FreeRow p num) {i start : ℕ}
    (hi : TailFrom s first i) (hend : SearchEnd s first num first.firstFree start) :
    start = i := by
  obtain ⟨hfree, hbefore, -⟩ := hend.locked h.toSearching
  have hle := hend.le
  have hile := hi.le
  have hshort : bitmapSize < start + num := by
    by_contra hfit
    exact hnone ⟨_, h.freeRow hend (by omega)⟩
  rcases lt_trichotomy start i with hlt | heq | hlt
  · have hlocked := hi.before (i - 1) (by omega)
    rw [hfree (i - 1) (by omega) (by omega) (by omega)] at hlocked
    cases hlocked
  · exact heq
  · have hlocked := hbefore (start - 1) (by omega)
    rw [hi.free (start - 1) (by omega) (by omega)] at hlocked
    cases hlocked

end Requests

/-! ## States -/

section States

variable {s : PmState} {first : MemBitmap} {num : ℕ}

/-- The bitmaps of the ring have different indices, as they have different addresses and
bytes; `first_free_bitmap` is one of them, and what lies below its `first_free` is locked. -/
structure Distinct (s : PmState) (first : MemBitmap) : Prop where
  index : (s.memBitmaps.map (·.index)).Nodup
  id : (s.memBitmaps.map (·.id)).Nodup
  map : (s.memBitmaps.map (·.super.map)).Nodup
  size : ∀ b ∈ s.memBitmaps, b.super.size = bitmapSize
  deref : s.deref s.firstFreeBitmap = .ok first
  le : first.firstFree ≤ bitmapSize
  below : ∀ i < first.firstFree, s.locked (first.page i) = true

/-- A list without repetitions has one element with a given key. -/
theorem find?_eq_of_nodup {α β : Type} [BEq β] [LawfulBEq β] (key : α → β) {l : List α}
    (hnodup : (l.map key).Nodup) {a : α} (ha : a ∈ l) :
    l.find? (key · == key a) = some a := by
  cases hfind : l.find? (key · == key a) with
  | none => exact absurd (List.find?_eq_none.mp hfind a ha) (by simp)
  | some a' =>
    have hkey : key a' = key a := by simpa using List.find?_some hfind
    rw [List.inj_on_of_nodup_map hnodup (List.mem_of_find?_eq_some hfind) ha hkey]

/-- **Bitmaps of different indices** can be searched. -/
theorem Distinct.searching (h : Distinct s first) : Searching s first where
  owns index b hfind := by
    have hb := (findBitmapByIndex_some hfind).1
    refine ⟨?_, fun b' hb' hid => ?_, fun b' hb' hmap => ?_, h.size b hb⟩
    · rw [PmState.deref, find?_eq_of_nodup MemBitmap.id h.id hb]
    · rw [List.inj_on_of_nodup_map h.id hb' hb hid]
    · rw [List.inj_on_of_nodup_map h.map hb' hb hmap]
  deref := h.deref
  found := find?_eq_of_nodup MemBitmap.index h.index (mem_of_deref h.deref)
  le := h.le
  below := h.below

end States

end Mimik.Pm
