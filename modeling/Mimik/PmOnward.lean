/-
# Going on in the ring

When the locks of a row of pages take the last free page of the bitmap that is searched,
`find_first_free_bitmap` turns to the next one of the ring that has an unset bit.  That works
as long as there is one before the head of the ring, which the search would take for a bitmap
too.  `GoesOn` says so of a state and a row, by recursion on the ring: each bitmap that the
locks use up is followed by one with a free page, and so on for this one.

The pages of the row in bitmaps of lower index are locked first, so that they do not count as
free when a bitmap is used up (`FreeBeside`).
-/
import Mimik.PmRange

namespace Mimik.Pm

-- `BITMAP_SIZE` is never to be counted down, nor a machine word
attribute [local irreducible] bitmapSize wrap64 sub64

/-! ## Rows and bitmaps -/

/-- The page of an index of a bitmap. -/
def MemBitmap.page (b : MemBitmap) (i : ℕ) : ℕ := b.index * bitmapSize + i

/-- What the search looks at in a bitmap, but for its bits: the index and `first_free`. -/
def MemBitmap.view (b : MemBitmap) : ℕ × ℕ := (b.index, b.firstFree)

/-- The bitmap of index `x` has a free page, besides those of the row in bitmaps up to `i`. -/
def FreeBeside (locked : ℕ → Bool) (p n i x : ℕ) : Prop :=
  ∃ j < bitmapSize, locked (x * bitmapSize + j) = false ∧
    ¬ (InRow p n (x * bitmapSize + j) ∧ x ≤ i)

/-- The search stays in the bitmap: there is a free page from its `first_free` on besides the row,
or the row has no page in it. -/
def StaysIn (locked : ℕ → Bool) (p n : ℕ) (c : ℕ × ℕ) : Prop :=
  (∃ j, c.2 ≤ j ∧ j < bitmapSize ∧ locked (c.1 * bitmapSize + j) = false ∧
    ¬ InRow p n (c.1 * bitmapSize + j)) ∨ ∀ q, InRow p n q → q / bitmapSize ≠ c.1

/-- **The search goes on** from the bitmap `c`, with `rest` behind it in the ring, while the row is
locked. -/
inductive GoesOn (locked : ℕ → Bool) (p n : ℕ) : ℕ × ℕ → List (ℕ × ℕ) → Prop
  | stays {c rest} (h : StaysIn locked p n c) : GoesOn locked p n c rest
  | moves {c skipped c' rest} (hin : c.2 < bitmapSize)
      (hmeets : ∃ q, InRow p n q ∧ q / bitmapSize = c.1)
      (hskip : ∀ x ∈ skipped, ¬ FreeBeside locked p n c.1 x.1)
      (hnext : FreeBeside locked p n c.1 c'.1) (hon : GoesOn locked p n c' rest) :
      GoesOn locked p n c (skipped ++ c' :: rest)
  | leaves {c skipped c' rest} (hin : c.2 < bitmapSize)
      (hmeets : ∃ q, InRow p n q ∧ q / bitmapSize = c.1)
      (hskip : ∀ x ∈ skipped, ¬ FreeBeside locked p n c.1 x.1)
      (hnext : FreeBeside locked p n c.1 c'.1) (hlow : c'.1 < c.1) :
      GoesOn locked p n c (skipped ++ c' :: rest)

section Rows

variable {locked locked' : ℕ → Bool} {p n i x q : ℕ} {c : ℕ × ℕ} {rest : List (ℕ × ℕ)}

/-- The row without its first page. -/
theorem inRow_tail : InRow (p + 1) n q ↔ InRow p (n + 1) q ∧ q ≠ p := by
  rw [InRow, InRow]
  omega

/-- A page that is free after the first page of the row was locked is another one. -/
theorem free_after (h : ∀ q, locked' q = if q = p then true else locked q) :
    locked' q = false ↔ locked q = false ∧ q ≠ p := by
  rw [h]
  split
  next hq => simp [hq]
  next hq => simp [hq]

/-- The first page of the row lies in a bitmap up to `i` when some page does. -/
theorem FreeBeside.after (h : ∀ q, locked' q = if q = p then true else locked q)
    (hmeets : ∃ q, InRow p (n + 1) q ∧ q / bitmapSize = i) :
    FreeBeside locked' (p + 1) n i x ↔ FreeBeside locked p (n + 1) i x := by
  obtain ⟨q, hq, hi⟩ := hmeets
  have hle : p / bitmapSize ≤ i := hi ▸ Nat.div_le_div_right hq.1
  refine exists_congr fun j => and_congr_right fun hj => ?_
  have hdiv := (div_mod_page x hj).1
  rw [free_after h, inRow_tail]
  constructor
  · rintro ⟨⟨hfree, hne⟩, hout⟩
    exact ⟨hfree, fun hin => hout ⟨⟨hin.1, hne⟩, hin.2⟩⟩
  · rintro ⟨hfree, hout⟩
    refine ⟨⟨hfree, fun heq => hout ⟨heq ▸ ⟨le_rfl, by omega⟩, ?_⟩⟩, fun hin =>
      hout ⟨hin.1.1, hin.2⟩⟩
    rw [← hdiv, heq]
    exact hle

theorem StaysIn.after (h : ∀ q, locked' q = if q = p then true else locked q)
    (hstays : StaysIn locked p (n + 1) c) : StaysIn locked' (p + 1) n c := by
  rcases hstays with ⟨j, hle, hj, hfree, hout⟩ | hother
  · refine .inl ⟨j, hle, hj, (free_after h).mpr ⟨hfree, fun heq => hout ?_⟩, fun hin =>
      hout (inRow_tail.mp hin).1⟩
    exact heq ▸ ⟨le_rfl, by omega⟩
  · exact .inr fun q hq => hother q (inRow_tail.mp hq).1

/-- **The search still goes on** after the first page of the row was locked. -/
theorem GoesOn.after (h : ∀ q, locked' q = if q = p then true else locked q)
    (hon : GoesOn locked p (n + 1) c rest) : GoesOn locked' (p + 1) n c rest := by
  induction hon with
  | stays hstays => exact .stays (hstays.after h)
  | @moves c skipped c' rest hin hmeets hskip hnext _ ih =>
    by_cases hrest : ∃ q, InRow (p + 1) n q ∧ q / bitmapSize = c.1
    · exact .moves hin hrest (fun x hx hfree => hskip x hx ((FreeBeside.after h hmeets).mp hfree))
        ((FreeBeside.after h hmeets).mpr hnext) ih
    · exact .stays (.inr fun q hq heq => hrest ⟨q, hq, heq⟩)
  | @leaves c skipped c' rest hin hmeets hskip hnext hlow =>
    by_cases hrest : ∃ q, InRow (p + 1) n q ∧ q / bitmapSize = c.1
    · exact .leaves hin hrest (fun x hx hfree => hskip x hx ((FreeBeside.after h hmeets).mp hfree))
        ((FreeBeside.after h hmeets).mpr hnext) hlow
    · exact .stays (.inr fun q hq heq => hrest ⟨q, hq, heq⟩)

/-- When the first page of the row was the last free one of the bitmap, the next bitmap with a free
page follows, and the search goes on from there. -/
theorem GoesOn.next (h : ∀ q, locked' q = if q = p then true else locked q)
    (hon : GoesOn locked p (n + 1) c rest) (hp : p / bitmapSize = c.1)
    (hused : ∀ j, c.2 ≤ j → j < bitmapSize → locked' (c.1 * bitmapSize + j) = true) :
    c.2 < bitmapSize ∧ ∃ skipped c' rest', rest = skipped ++ c' :: rest' ∧
      (∀ x ∈ skipped, x.1 ≠ c.1 → ∀ j < bitmapSize, locked' (x.1 * bitmapSize + j) = true) ∧
      (∃ j < bitmapSize, locked' (c'.1 * bitmapSize + j) = false) ∧
      GoesOn locked' (p + 1) n c' rest' := by
  have hfull : ∀ x, x ≠ c.1 → ¬ FreeBeside locked p (n + 1) c.1 x →
      ∀ j < bitmapSize, locked' (x * bitmapSize + j) = true := by
    intro x hne hskip j hj
    by_contra hfree
    rw [Bool.not_eq_true, free_after h] at hfree
    refine hskip ⟨j, hj, hfree.1, fun hin => ?_⟩
    -- a page of the row in a lower bitmap lies below the first one
    have hdiv := (div_mod_page x hj).1
    have hle : c.1 ≤ x := by
      rw [← hp, ← hdiv]
      exact Nat.div_le_div_right hin.1.1
    omega
  have hfree : ∀ {x}, FreeBeside locked p (n + 1) c.1 x →
      ∃ j < bitmapSize, locked' (x * bitmapSize + j) = false := by
    rintro x hx
    obtain ⟨j, hj, hfree, -⟩ :=
      (FreeBeside.after h ⟨p, ⟨le_rfl, by omega⟩, hp⟩).mpr hx
    exact ⟨j, hj, hfree⟩
  cases hon with
  | stays hstays =>
    rcases hstays with ⟨j, hle, hj, hfree, hout⟩ | hother
    · have hclear := (free_after h).mpr ⟨hfree, fun heq => hout (heq ▸ ⟨le_rfl, by omega⟩)⟩
      rw [hused j hle hj] at hclear
      cases hclear
    · exact absurd hp (hother p ⟨le_rfl, by omega⟩)
  | @moves _ skipped c' rest' hin hmeets hskip hnext hon =>
    exact ⟨hin, skipped, c', rest', rfl, fun x hx hne => hfull x.1 hne (hskip x hx), hfree hnext,
      hon.after h⟩
  | @leaves _ skipped c' rest' hin hmeets hskip hnext hlow =>
    refine ⟨hin, skipped, c', rest', rfl, fun x hx hne => hfull x.1 hne (hskip x hx), hfree hnext,
      .stays (.inr fun q hq heq => ?_)⟩
    have hle : c.1 ≤ q / bitmapSize := hp ▸ Nat.div_le_div_right (Nat.le_of_succ_le hq.1)
    omega

end Rows

/-! ## The ring -/

section Ring

variable {env : PmEnv} {req : RequestPage} {rounds n : ℕ} {s s' : PmState} {b first : MemBitmap}
  {g : MemBitmap → MemBitmap} {a : ℕ}

/-- The bitmaps behind one of the ring, up to the head. -/
def PmState.behind (s : PmState) (id : ℕ) : List MemBitmap :=
  (s.memBitmaps.dropWhile (·.id != id)).tail

/-- The pages that a lookup of the index finds unlocked. -/
def PmState.unlockedCount (s : PmState) (index : ℕ) : ℕ :=
  ((Finset.range bitmapSize).filter fun i => s.locked (index * bitmapSize + i) = false).card

theorem unlockedCount_congr {index : ℕ} (h : ∀ i < bitmapSize,
    s'.locked (index * bitmapSize + i) = s.locked (index * bitmapSize + i)) :
    s'.unlockedCount index = s.unlockedCount index := by
  rw [PmState.unlockedCount, PmState.unlockedCount]
  congr 1
  exact Finset.filter_congr fun i hi => by rw [h i (Finset.mem_range.mp hi)]

/-- The bitmaps of the ring have different addresses, a lookup finds each by its index, and each
counts its unset bits. -/
structure CountsUnset (s : PmState) : Prop where
  id : (s.memBitmaps.map (·.id)).Nodup
  found : ∀ b ∈ s.memBitmaps, findBitmapByIndex s b.index = some b
  unset : ∀ b ∈ s.memBitmaps, b.super.unset = s.unlockedCount b.index

/-- Rewriting the ring rewrites what is behind a bitmap. -/
theorem Rewrites.behind (h : Rewrites g s s') (id : ℕ) :
    s'.behind id = (s.behind id).map g := by
  have hsame : ((fun b : MemBitmap => b.id != id) ∘ g) = fun b => b.id != id :=
    funext fun b => by rw [Function.comp_apply, h.id]
  rw [PmState.behind, PmState.behind, h.list, List.dropWhile_map, hsame, List.map_tail]

/-- What is behind a bitmap of the ring. -/
theorem behind_eq (hid : (s.memBitmaps.map (·.id)).Nodup) {pre rest : List MemBitmap}
    (hlist : s.memBitmaps = pre ++ b :: rest) : s.behind b.id = rest := by
  have hpre : ∀ x ∈ pre, (x.id != b.id) = true := by
    intro x hx
    rw [hlist, List.map_append, List.map_cons, List.nodup_append] at hid
    rw [bne_iff_ne]
    exact hid.2.2 _ (List.mem_map_of_mem hx) _ List.mem_cons_self
  rw [PmState.behind, hlist, List.dropWhile_append_of_pos hpre]
  simp

/-- A bitmap of the ring splits it. -/
theorem exists_behind (hid : (s.memBitmaps.map (·.id)).Nodup) (hb : b ∈ s.memBitmaps) :
    ∃ pre, s.memBitmaps = pre ++ b :: s.behind b.id := by
  obtain ⟨pre, rest, hlist⟩ := List.append_of_mem hb
  exact ⟨pre, by rw [behind_eq hid hlist, hlist]⟩

/-- The search passes bitmaps without unset bits. -/
theorem searchRing_onward (env : PmEnv) {skipped rest : List MemBitmap}
    (hskip : ∀ x ∈ skipped, x.super.unset = 0) (hunset : 0 < b.super.unset)
    (more : List (Option MemBitmap)) (prev : Option ℕ) :
    searchRing env ((skipped ++ b :: rest).map some ++ more) prev = .inl (.node b.id) := by
  induction skipped generalizing prev with
  | nil =>
    rw [List.nil_append, List.map_cons, List.cons_append, searchRing]
    simp only [Option.map_some, Option.getD_some, hunset, if_true]
  | cons x skipped ih =>
    have hzero : ¬ 0 < x.super.unset := by
      rw [hskip x List.mem_cons_self]
      exact lt_irrefl 0
    have hrest := fun prev => ih (fun y hy => hskip y (List.mem_cons_of_mem x hy)) prev
    rw [List.cons_append, List.map_cons, List.cons_append, searchRing]
    simp only [Option.map_some, Option.getD_some, hzero, if_false, hrest, ite_self]

/-- **`find_first_free_bitmap`** turns to the next bitmap of the ring that has an unset bit. -/
theorem findFirstFreeBitmap_onward (env : PmEnv) (req : RequestPage) {id : ℕ}
    (hfirst : s.firstFreeBitmap = .node id) {skipped rest : List MemBitmap}
    (hbehind : s.behind id = skipped ++ b :: rest) (hskip : ∀ x ∈ skipped, x.super.unset = 0)
    (hunset : 0 < b.super.unset) :
    findFirstFreeBitmap env req s = .ok { s with firstFreeBitmap := .node b.id } := by
  rw [findFirstFreeBitmap, hfirst, ringFrom]
  rw [PmState.behind] at hbehind
  rw [hbehind, searchRing_onward env hskip hunset]

/-- Rewriting that keeps the counters right. -/
theorem Rewrites.countsUnset (h : Rewrites g s s') (hs : CountsUnset s)
    (hunset : ∀ b ∈ s.memBitmaps, (g b).super.unset = s'.unlockedCount b.index) :
    CountsUnset s' where
  id := by
    rw [h.list, List.map_map]
    have hsame : (fun b : MemBitmap => b.id) ∘ g = fun b => b.id :=
      funext fun b => by rw [Function.comp_apply, h.id]
    rw [hsame]
    exact hs.id
  found b hb := by
    rw [h.list] at hb
    obtain ⟨b₀, hb₀, rfl⟩ := List.mem_map.mp hb
    rw [h.find, h.index, hs.found b₀ hb₀]
    rfl
  unset b hb := by
    rw [h.list] at hb
    obtain ⟨b₀, hb₀, rfl⟩ := List.mem_map.mp hb
    rw [hunset b₀ hb₀, h.index]

/-- Bitmaps of the ring with the same key are the same. -/
theorem CountsUnset.eq_of_key (hs : CountsUnset s) {b' : MemBitmap} (hb : b ∈ s.memBitmaps)
    (hb' : b' ∈ s.memBitmaps) (hkey : b'.key = b.key) : b' = b :=
  List.inj_on_of_nodup_map hs.id hb' hb (congrArg (·.1) hkey)

/-- What does not concern the ring or its bytes. -/
theorem CountsUnset.congr (hs : CountsUnset s) (hlist : s'.memBitmaps = s.memBitmaps)
    (hmaps : s'.maps = s.maps) : CountsUnset s' where
  id := hlist ▸ hs.id
  found b hb := by
    rw [findBitmapByIndex, hlist]
    exact hs.found b (hlist ▸ hb)
  unset b hb := by
    rw [hs.unset b (hlist ▸ hb)]
    refine (unlockedCount_congr fun i _ => ?_).symm
    rw [PmState.locked, PmState.locked, findBitmapByIndex, findBitmapByIndex, hlist, hmaps]

/-- **A lock keeps the counters right.** -/
theorem CountsUnset.lock (hs : CountsUnset s) (hg : Rewrites g s s') (hb : b ∈ s.memBitmaps)
    (hindex : toBitmap a = b.index) (hsets : SetsPage s s' (pageOf a) true)
    (hunset : WritesUnset g b (s.locked (pageOf a)) true) : CountsUnset s' := by
  refine hg.countsUnset hs fun b₀ hb₀ => ?_
  have hpage : pageOf a = b.index * bitmapSize + toIndex a := by rw [pageOf_eq, hindex]
  have hi := toIndex_lt a
  by_cases hkey : b₀.key = b.key
  · obtain rfl := hs.eq_of_key hb hb₀ hkey
    rw [hunset.own, hs.unset b₀ hb₀]
    cases hlocked : s.locked (pageOf a) with
    | true =>
      rw [if_pos rfl]
      refine (unlockedCount_congr fun i _ => ?_).symm
      rw [hsets.locked]
      split
      next heq => rw [heq, hlocked]
      next => rfl
    | false =>
      rw [if_neg Bool.false_ne_true, if_pos rfl]
      have hmem : toIndex a ∈ (Finset.range bitmapSize).filter fun i =>
          s.locked (b₀.index * bitmapSize + i) = false := by
        rw [Finset.mem_filter, Finset.mem_range, ← hpage]
        exact ⟨hi, hlocked⟩
      have herase : ((Finset.range bitmapSize).filter fun i =>
          s'.locked (b₀.index * bitmapSize + i) = false) =
          ((Finset.range bitmapSize).filter fun i =>
            s.locked (b₀.index * bitmapSize + i) = false).erase (toIndex a) := by
        ext i
        rw [Finset.mem_erase, Finset.mem_filter, Finset.mem_filter, hsets.locked, hpage]
        by_cases heq : i = toIndex a
        · simp [heq]
        · simp [heq]
      have hpos : 0 < s.unlockedCount b₀.index := Finset.card_pos.mpr ⟨_, hmem⟩
      have hcount : s'.unlockedCount b₀.index = s.unlockedCount b₀.index - 1 := by
        rw [PmState.unlockedCount, herase, Finset.card_erase_of_mem hmem]
        rfl
      rw [hcount, pred64, if_neg hpos.ne']
  · rw [hunset.other b₀ hkey, hs.unset b₀ hb₀]
    refine (unlockedCount_congr fun i hi => ?_).symm
    have hne : b₀.index * bitmapSize + i ≠ pageOf a := by
      intro heq
      have hdiv := (div_mod_page b₀.index hi).1
      rw [heq, hpage, (div_mod_page b.index (toIndex_lt a)).1] at hdiv
      have hfound := hs.found b₀ hb₀
      rw [← hdiv, hs.found b hb] at hfound
      cases hfound
      exact hkey rfl
    rw [hsets.locked, if_neg hne]

/-- A state to go on in: `first` is the bitmap that is searched, and the counters are right. -/
structure OnRing (s : PmState) (first : MemBitmap) : Prop extends Tracking s first where
  counts : CountsUnset s
  node : s.firstFreeBitmap = .node first.id

/-- The search goes on from the bitmap that is searched while the `n` pages from `p` on are
locked. -/
def PmState.GoesOnFrom (s : PmState) (first : MemBitmap) (p n : ℕ) : Prop :=
  GoesOn s.locked p n first.view ((s.behind first.id).map (·.view))

/-- Rewriting the bitmaps but for what the search looks at. -/
theorem Rewrites.views (h : Rewrites g s s') {id : ℕ}
    (hview : ∀ b ∈ s.behind id, (g b).view = b.view) :
    (s'.behind id).map (·.view) = (s.behind id).map (·.view) := by
  rw [h.behind, List.map_map]
  exact List.map_congr_left hview

/-- The bitmaps behind one of the ring are others. -/
theorem CountsUnset.ne_of_behind (hs : CountsUnset s) (hfirst : first ∈ s.memBitmaps)
    (hb : b ∈ s.behind first.id) : b ∈ s.memBitmaps ∧ b.id ≠ first.id := by
  obtain ⟨pre, hlist⟩ := exists_behind hs.id hfirst
  have hid := hs.id
  rw [hlist, List.map_append, List.map_cons, List.nodup_append, List.nodup_cons] at hid
  have hin : b.id ∈ (s.behind first.id).map (·.id) := List.mem_map_of_mem hb
  refine ⟨?_, fun heq => hid.2.1.1 (heq ▸ hin)⟩
  rw [hlist]
  exact List.mem_append_right _ (List.mem_cons_of_mem _ hb)

/-- Moving `first_free` of the bitmap that is searched. -/
theorem OnRing.setFirstFree (hs : OnRing s first) (v : ℕ) :
    OnRing (s.setFirstFree first.id v) { first with firstFree := v } ∧
      ((s.setFirstFree first.id v).behind first.id).map (·.view) =
        (s.behind first.id).map (·.view) := by
  have hmoved := rewrites_setFirstFree s first.id v
  have htracking := hmoved.tracking hs.toTracking
  rw [if_pos rfl] at htracking
  refine ⟨⟨htracking, hmoved.countsUnset hs.counts fun b hb => ?_, hs.node⟩,
    hmoved.views fun b hb => if_neg (hs.counts.ne_of_behind (mem_of_deref hs.deref) hb).2 ▸ rfl⟩
  rw [← unlockedCount_congr fun i _ => (hmoved.setsNothing rfl _).symm, ← hs.counts.unset b hb]
  split <;> rfl

/-- What does not concern the ring or its bytes. -/
theorem OnRing.congr (hs : OnRing s first) (hlist : s'.memBitmaps = s.memBitmaps)
    (hfirst : s'.firstFreeBitmap = s.firstFreeBitmap) (hmaps : s'.maps = s.maps) :
    OnRing s' first ∧ ∀ p n, s.GoesOnFrom first p n → s'.GoesOnFrom first p n := by
  refine ⟨⟨hs.toTracking.congr hlist hfirst, hs.counts.congr hlist hmaps, hfirst.trans hs.node⟩,
    fun p n hon => ?_⟩
  have hlocked : s'.locked = s.locked := funext fun q => by
    rw [PmState.locked, PmState.locked, findBitmapByIndex, findBitmapByIndex, hlist, hmaps]
  rw [PmState.GoesOnFrom, hlocked, PmState.behind, hlist]
  exact hon

/-- Turning to another bitmap. -/
theorem OnRing.turn (hs : OnRing s first) (hb : b ∈ s.memBitmaps) :
    OnRing { s with firstFreeBitmap := .node b.id } b where
  owns := owns_congr (s := s) rfl hs.owns
  deref := (hs.owns _ _ (hs.counts.found b hb)).deref
  counts := hs.counts.congr rfl rfl
  node := rfl

/-- A bitmap of the ring has an unset bit when it has an unlocked page. -/
theorem CountsUnset.unset_pos_iff (hs : CountsUnset s) (hb : b ∈ s.memBitmaps) :
    0 < b.super.unset ↔ ∃ j < bitmapSize, s.locked (b.index * bitmapSize + j) = false := by
  rw [hs.unset b hb, PmState.unlockedCount, Finset.card_pos]
  simp only [Finset.Nonempty, Finset.mem_filter, Finset.mem_range]

/-- The search stops at the next free page of the bitmap, or finds none. -/
theorem OnRing.scan (env : PmEnv) (req : RequestPage) (hrounds : bitmapSize < rounds)
    (hs : OnRing s first) {j : ℕ} (hin : first.firstFree < bitmapSize) (hle : first.firstFree ≤ j)
    (hj : j ≤ bitmapSize)
    (hfree : j < bitmapSize → s.locked (first.index * bitmapSize + j) = false)
    (hbelow : ∀ i, first.firstFree ≤ i → i < j → s.locked (first.index * bitmapSize + i) = true) :
    findFirstFreeIndex env req rounds s =
      .ok (decide (j < bitmapSize), s.setFirstFree first.id j) := by
  have hmem := mem_of_deref hs.deref
  have hfound := hs.counts.found first hmem
  rw [findFirstFreeIndex_scan env req (by rw [bitmapSize_eq]; decide) rounds s first hs.deref
    (hs.owns _ _ hfound).size rfl hin hle hj (fun hlt => (locked_eq hfound hlt).symm.trans
    (hfree hlt)) (fun i hi hlt => (locked_eq hfound (lt_of_lt_of_le hlt hj)).symm.trans
    (hbelow i hi hlt)) (by omega)]
  split
  next heq =>
    -- the value that is there already
    have hsame : s.setFirstFree first.id j = s := by
      rw [PmState.setFirstFree, PmState.modify]
      refine congrArg (fun bs => { s with memBitmaps := bs })
        ((List.map_congr_left fun b hb => ?_).trans (List.map_id _))
      split
      next hid =>
        obtain rfl := List.inj_on_of_nodup_map hs.counts.id hb hmem hid
        rw [heq]
        rfl
      next => rfl
    rw [hsame]
  next => rfl

/-- The search turns to the next bitmap with a free page. -/
theorem OnRing.next (env : PmEnv) (req : RequestPage) (hs : OnRing s first) {p : ℕ}
    {skipped rest : List (ℕ × ℕ)} {c : ℕ × ℕ}
    (hviews : (s.behind first.id).map (·.view) = skipped ++ c :: rest)
    (hskip : ∀ x ∈ skipped, x.1 ≠ first.index →
      ∀ j < bitmapSize, s.locked (x.1 * bitmapSize + j) = true)
    (hfree : ∃ j < bitmapSize, s.locked (c.1 * bitmapSize + j) = false)
    (hon : GoesOn s.locked p n c rest) :
    ∃ s' b, findFirstFreeBitmap env req s = .ok s' ∧ OnRing s' b ∧ s'.GoesOnFrom b p n ∧
      s'.locked = s.locked ∧ ∀ q, s'.Tracks q ↔ s.Tracks q := by
  obtain ⟨bs, bs', hbehind, rfl, hmap⟩ := List.map_eq_append_iff.mp hviews
  obtain ⟨b, bs'', rfl, rfl, rfl⟩ := List.map_eq_cons_iff.mp hmap
  have hmem := mem_of_deref hs.deref
  have hin : ∀ x ∈ s.behind first.id, x ∈ s.memBitmaps ∧ x.id ≠ first.id :=
    fun x hx => hs.counts.ne_of_behind hmem hx
  have hb := (hin b (by rw [hbehind]; simp)).1
  have hunset : ∀ x ∈ bs, x.super.unset = 0 := by
    intro x hx
    obtain ⟨hx', hne⟩ := hin x (by rw [hbehind]; exact List.mem_append_left _ hx)
    by_contra hpos
    obtain ⟨j, hj, hclear⟩ := (hs.counts.unset_pos_iff hx').mp (Nat.pos_of_ne_zero hpos)
    have hindex : x.index ≠ first.index := by
      intro heq
      have hfound := hs.counts.found x hx'
      rw [heq, hs.counts.found first hmem] at hfound
      cases hfound
      exact hne rfl
    have hlocked := hskip x.view (List.mem_map_of_mem hx) hindex j hj
    rw [show s.locked (x.view.1 * bitmapSize + j) = false from hclear] at hlocked
    cases hlocked
  obtain ⟨pre, hlist⟩ := exists_behind hs.counts.id hmem
  have hlist' : s.memBitmaps = (pre ++ first :: bs) ++ b :: bs'' := by
    rw [hlist, hbehind, List.append_assoc, List.cons_append]
  refine ⟨_, b, findFirstFreeBitmap_onward env req hs.node hbehind hunset
    ((hs.counts.unset_pos_iff hb).mpr hfree), hs.turn hb, ?_, rfl, fun q => Iff.rfl⟩
  have hrest : s.behind b.id = bs'' := behind_eq hs.counts.id hlist'
  show GoesOn s.locked p n b.view ((s.behind b.id).map (·.view))
  rw [hrest]
  exact hon

end Ring

end Mimik.Pm
