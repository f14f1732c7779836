/-
# What `vm_flag_pages` rewrites

`recurse_flag` starts at the indices of the first page in every table that it comes to,
not only on the way to that page.  The pages it comes to are those of a *box*
(`Radix.box`): the paths with no index below the index of the first page at the same
level, in order, until the count is used up or a page is not mapped.

On the way it rewrites the permissions of the entries above the leaf tables, and it makes
each leaf entry anew from its frame and the flags (`flag_spec`).  Presence and targets of
entries stay, so that no walk changes.
-/
import Mimik.VmGrow

namespace Mimik.Vm

open FaultState

/-! ## Rewritten memories -/

/-- `mem'` is `mem` with the entries in the places `inner` rewritten as entries above the
leaf tables, and those in the places `leaf` as leaf entries. -/
structure Flagged (flags : Flags) (inner leaf : PAddr × ℕ → Prop) (mem mem' : Tables) : Prop where
  mapped : ∀ slot, leaf slot → present (mem slot.1 slot.2) = true
  onInner : ∀ slot, inner slot → mem' slot.1 slot.2 = reflag (mem slot.1 slot.2) flags
  onLeaf : ∀ slot, leaf slot → mem' slot.1 slot.2 = setPte (ptePaddr (mem slot.1 slot.2)) flags
  other : ∀ slot, ¬ inner slot → ¬ leaf slot → mem' slot.1 slot.2 = mem slot.1 slot.2

variable {flags : Flags} {inner leaf inner₁ leaf₁ : PAddr × ℕ → Prop} {mem mem₁ mem' : Tables}

/-- Rewriting twice is rewriting once. -/
theorem reflag_reflag (e : Pte) : reflag (reflag e flags) flags = reflag e flags := by
  apply BitVec.eq_of_getLsbD_eq
  intro j hj
  rw [getLsbD_reflag _ _ hj, getLsbD_reflag _ _ hj]
  split_ifs <;> rfl

/-- Nothing is rewritten. -/
theorem Flagged.refl : Flagged flags (fun _ => False) (fun _ => False) mem mem where
  mapped _ h := h.elim
  onInner _ h := h.elim
  onLeaf _ h := h.elim
  other _ _ _ := rfl

/-- The places may be described in another way. -/
theorem Flagged.congr (h : Flagged flags inner leaf mem mem')
    (hinner : ∀ slot, inner₁ slot ↔ inner slot) (hleaf : ∀ slot, leaf₁ slot ↔ leaf slot) :
    Flagged flags inner₁ leaf₁ mem mem' where
  mapped slot hs := h.mapped slot ((hleaf slot).mp hs)
  onInner slot hs := h.onInner slot ((hinner slot).mp hs)
  onLeaf slot hs := h.onLeaf slot ((hleaf slot).mp hs)
  other slot hi hl := h.other slot (fun hs => hi ((hinner slot).mpr hs))
    fun hs => hl ((hleaf slot).mpr hs)

/-- Presence and targets of entries stay. -/
theorem Flagged.sameShape (h : Flagged flags inner leaf mem mem') :
    pageTables.SameShape mem mem' := by
  intro p i
  show present (mem' p i) = present (mem p i) ∧ ptePaddr (mem' p i) = ptePaddr (mem p i)
  by_cases hl : leaf (p, i)
  · rw [h.onLeaf (p, i) hl, present_setPte, ptePaddr_setPte, ptePaddr_ptePaddr]
    exact ⟨(h.mapped (p, i) hl).symm, rfl⟩
  · by_cases hi : inner (p, i)
    · rw [h.onInner (p, i) hi, present_reflag, ptePaddr_reflag]
      exact ⟨rfl, rfl⟩
    · rw [h.other (p, i) hi hl]
      exact ⟨rfl, rfl⟩

/-- One entry above the leaf tables is rewritten. -/
theorem Flagged.reflag (mem : Tables) (p : PAddr) (i : ℕ) :
    Flagged flags (fun slot => slot = (p, i)) (fun _ => False) mem
      (mem.set p i (Vm.reflag (mem p i) flags)) where
  mapped _ hs := hs.elim
  onInner slot hs := by rw [hs, Tables.set_apply, if_pos ⟨rfl, rfl⟩]
  onLeaf _ hs := hs.elim
  other slot hs _ := by rw [Tables.set_apply, if_neg fun heq => hs (Prod.ext heq.1 heq.2)]

/-- One rewriting after another, when no place is rewritten in both ways. -/
theorem Flagged.trans (h : Flagged flags inner leaf mem mem₁)
    (h' : Flagged flags inner₁ leaf₁ mem₁ mem')
    (hapart : ∀ slot, inner slot ∨ inner₁ slot → ¬ (leaf slot ∨ leaf₁ slot)) :
    Flagged flags (fun slot => inner slot ∨ inner₁ slot) (fun slot => leaf slot ∨ leaf₁ slot)
      mem mem' where
  mapped slot hs := by
    rcases hs with hs | hs
    · exact h.mapped slot hs
    · exact ((h.sameShape slot.1 slot.2).1.symm.trans (h'.mapped slot hs))
  onInner slot hs := by
    have hnot := hapart slot hs
    by_cases hi : inner slot
    · have hfirst := h.onInner slot hi
      by_cases hi' : inner₁ slot
      · rw [h'.onInner slot hi', hfirst, reflag_reflag]
      · rw [h'.other slot hi' fun hl => hnot (.inr hl), hfirst]
    · rw [h'.onInner slot (hs.resolve_left hi), h.other slot hi fun hl => hnot (.inl hl)]
  onLeaf slot hs := by
    have haddr : ptePaddr (mem₁ slot.1 slot.2) = ptePaddr (mem slot.1 slot.2) :=
      (h.sameShape slot.1 slot.2).2
    by_cases hl' : leaf₁ slot
    · rw [h'.onLeaf slot hl', haddr]
    · rw [h'.other slot (fun hi => hapart slot (.inr hi) hs) hl',
        h.onLeaf slot (hs.resolve_right hl')]
  other slot hi hl := by
    rw [h'.other slot (fun hs => hi (.inr hs)) fun hs => hl (.inr hs),
      h.other slot (fun hs => hi (.inl hs)) fun hs => hl (.inl hs)]

/-! ## The places of a list of paths -/

variable {p q : PAddr} {i pages left : ℕ} {path : List ℕ} {paths paths₁ L L₁ : List (List ℕ)}
  {res : Status} {slot : PAddr × ℕ}

/-- The entries above the leaf tables that the walks of the paths come to. -/
def InnerOf (mem : Tables) (p : PAddr) (paths : List (List ℕ)) (slot : PAddr × ℕ) : Prop :=
  ∃ path ∈ paths, slot ∈ pageTables.slots mem p path.dropLast ∧
    present (mem slot.1 slot.2) = true

/-- The leaf entries of the paths. -/
def LeafOf (mem : Tables) (p : PAddr) (paths : List (List ℕ)) (slot : PAddr × ℕ) : Prop :=
  ∃ path ∈ paths, pageTables.leafSlot mem p path = some slot ∧
    present (mem slot.1 slot.2) = true

/-- No entry is above the leaf tables for one path and the leaf entry of another. -/
def Apart (mem : Tables) (p : PAddr) (paths : List (List ℕ)) : Prop :=
  ∀ slot, InnerOf mem p paths slot → ¬ LeafOf mem p paths slot

theorem innerOf_append : InnerOf mem p (paths ++ paths₁) slot ↔
    InnerOf mem p paths slot ∨ InnerOf mem p paths₁ slot := by
  simp only [InnerOf, List.mem_append, or_and_right, exists_or]

theorem leafOf_append : LeafOf mem p (paths ++ paths₁) slot ↔
    LeafOf mem p paths slot ∨ LeafOf mem p paths₁ slot := by
  simp only [LeafOf, List.mem_append, or_and_right, exists_or]

theorem InnerOf.mono (h : InnerOf mem p paths slot) (hsub : paths ⊆ paths₁) :
    InnerOf mem p paths₁ slot := by
  obtain ⟨path, hpath, hslot⟩ := h
  exact ⟨path, hsub hpath, hslot⟩

theorem LeafOf.mono (h : LeafOf mem p paths slot) (hsub : paths ⊆ paths₁) :
    LeafOf mem p paths₁ slot := by
  obtain ⟨path, hpath, hslot⟩ := h
  exact ⟨path, hsub hpath, hslot⟩

theorem Apart.mono (h : Apart mem p paths₁) (hsub : paths ⊆ paths₁) : Apart mem p paths :=
  fun slot hi hl => h slot (hi.mono hsub) (hl.mono hsub)

/-- The places are the same in memories of one shape. -/
theorem innerOf_congr (h : pageTables.SameShape mem mem') :
    InnerOf mem' p paths slot ↔ InnerOf mem p paths slot := by
  have hpres : present (mem' slot.1 slot.2) = present (mem slot.1 slot.2) :=
    (h slot.1 slot.2).1
  simp only [InnerOf, h.slots, hpres]

theorem leafOf_congr (h : pageTables.SameShape mem mem') :
    LeafOf mem' p paths slot ↔ LeafOf mem p paths slot := by
  have hpres : present (mem' slot.1 slot.2) = present (mem slot.1 slot.2) :=
    (h slot.1 slot.2).1
  simp only [LeafOf, h.leafSlot, hpres]

theorem Apart.congr (h : pageTables.SameShape mem mem') (hapart : Apart mem p paths) :
    Apart mem' p paths :=
  fun slot hi hl => hapart slot ((innerOf_congr h).mp hi) ((leafOf_congr h).mp hl)

/-- Paths that start with one present entry. -/
theorem innerOf_cons (hpres : present (mem p i) = true) (hne : ∀ path ∈ paths, path ≠ []) :
    InnerOf mem p (paths.map (i :: ·)) slot ↔
      (paths ≠ [] ∧ slot = (p, i)) ∨ InnerOf mem (ptePaddr (mem p i)) paths slot := by
  have hslots : ∀ path ∈ paths, pageTables.slots mem p (i :: path).dropLast =
      (p, i) :: pageTables.slots mem (ptePaddr (mem p i)) path.dropLast := by
    intro path hpath
    obtain ⟨j, path, rfl⟩ := List.exists_cons_of_ne_nil (hne path hpath)
    rw [List.dropLast_cons_cons, Radix.slots, if_pos (show pageTables.present _ = true from hpres)]
    rfl
  constructor
  · rintro ⟨_, hmem, hslot, hp⟩
    obtain ⟨path, hpath, rfl⟩ := List.mem_map.mp hmem
    rw [hslots path hpath] at hslot
    rcases List.mem_cons.mp hslot with rfl | hslot
    · exact .inl ⟨List.ne_nil_of_mem hpath, rfl⟩
    · exact .inr ⟨path, hpath, hslot, hp⟩
  · rintro (⟨hpaths, rfl⟩ | ⟨path, hpath, hslot, hp⟩)
    · obtain ⟨path, hpath⟩ := List.exists_mem_of_ne_nil paths hpaths
      refine ⟨i :: path, List.mem_map_of_mem hpath, ?_, hpres⟩
      rw [hslots path hpath]
      exact List.mem_cons_self
    · refine ⟨i :: path, List.mem_map_of_mem hpath, ?_, hp⟩
      rw [hslots path hpath]
      exact List.mem_cons_of_mem _ hslot

theorem leafOf_cons (hpres : present (mem p i) = true) (hne : ∀ path ∈ paths, path ≠ []) :
    LeafOf mem p (paths.map (i :: ·)) slot ↔ LeafOf mem (ptePaddr (mem p i)) paths slot := by
  have hslot : ∀ path ∈ paths, pageTables.leafSlot mem p (i :: path) =
      pageTables.leafSlot mem (ptePaddr (mem p i)) path := by
    intro path hpath
    rw [Radix.leafSlot_cons (hne path hpath), if_pos (show pageTables.present _ = true from hpres)]
    rfl
  constructor
  · rintro ⟨_, hmem, hs, hp⟩
    obtain ⟨path, hpath, rfl⟩ := List.mem_map.mp hmem
    rw [hslot path hpath] at hs
    exact ⟨path, hpath, hs, hp⟩
  · rintro ⟨path, hpath, hs, hp⟩
    refine ⟨i :: path, List.mem_map_of_mem hpath, ?_, hp⟩
    rw [hslot path hpath]
    exact hs

/-! ## The paths that are come to -/

/-- The address is mapped. -/
def mapped (mem : Tables) (p : PAddr) (path : List ℕ) : Bool := (pageTables.leaf mem p path).isSome

/-- The paths up to the first that is not mapped, and this one. -/
def reached (mem : Tables) (p : PAddr) : List (List ℕ) → List (List ℕ)
  | [] => []
  | path :: paths => path :: if mapped mem p path then reached mem p paths else []

theorem reached_of_mapped (h : ∀ path ∈ paths, mapped mem p path = true) :
    reached mem p (paths ++ paths₁) = paths ++ reached mem p paths₁ := by
  induction paths with
  | nil => rfl
  | cons path paths ih =>
    rw [List.cons_append, reached, if_pos (h path List.mem_cons_self),
      ih fun path' hpath => h path' (List.mem_cons_of_mem path hpath), List.cons_append]

theorem reached_eq_self (h : ∀ path ∈ paths, mapped mem p path = true) :
    reached mem p paths = paths := by
  rw [← List.append_nil paths, reached_of_mapped h]
  rfl

theorem reached_of_not_mapped (h : ¬ ∀ path ∈ paths, mapped mem p path = true) :
    reached mem p (paths ++ paths₁) = reached mem p paths := by
  induction paths with
  | nil => exact absurd (fun _ hpath => absurd hpath List.not_mem_nil) h
  | cons path paths ih =>
    rw [List.cons_append, reached, reached]
    split
    next hpath =>
      rw [ih]
      intro hall
      refine h fun path' hpath' => ?_
      rcases List.mem_cons.mp hpath' with rfl | hpath'
      · exact hpath
      · exact hall path' hpath'
    next => rfl

theorem reached_subset : reached mem p paths ⊆ paths := by
  induction paths with
  | nil => exact List.Subset.refl _
  | cons path paths ih =>
    rw [reached]
    split
    · exact List.cons_subset_cons path ih
    · exact List.cons_subset_cons path (List.nil_subset _)

theorem reached_congr (h : pageTables.SameShape mem mem') :
    reached mem' p paths = reached mem p paths := by
  induction paths with
  | nil => rfl
  | cons path paths ih => rw [reached, reached, mapped, mapped, h.isSome_leaf, ih]

theorem mapped_cons (hpres : present (mem p i) = true) (hpath : path ≠ []) :
    mapped mem p (i :: path) = mapped mem (ptePaddr (mem p i)) path := by
  rw [mapped, Radix.leaf_cons hpath, if_pos (show pageTables.present _ = true from hpres)]
  rfl

theorem reached_cons (hpres : present (mem p i) = true) (hne : ∀ path ∈ paths, path ≠ []) :
    reached mem p (paths.map (i :: ·)) = (reached mem (ptePaddr (mem p i)) paths).map (i :: ·) := by
  induction paths with
  | nil => rfl
  | cons path paths ih =>
    rw [List.map_cons, reached, reached, mapped_cons hpres (hne path List.mem_cons_self),
      ih fun path' hpath => hne path' (List.mem_cons_of_mem path hpath)]
    split <;> rfl

/-! ## What a part of the recursion does -/

/-- A part of the recursion that is to flag at most `pages` of the paths `L` below `p`. -/
structure FlagPost (flags : Flags) (p : PAddr) (L : List (List ℕ)) (pages : ℕ)
    (mem mem' : Tables) (res : Status) (left : ℕ) : Prop where
  flagged : Flagged flags (InnerOf mem p (reached mem p (L.take pages)))
    (LeafOf mem p (reached mem p (L.take pages))) mem mem'
  status : (res = success ∧ left = pages - L.length ∧
      ∀ path ∈ L.take pages, mapped mem p path = true) ∨
    (res = -enomap ∧ ¬ ∀ path ∈ L.take pages, mapped mem p path = true)

theorem FlagPost.nil (h : L.take pages = []) :
    FlagPost flags p L pages mem mem success (pages - L.length) where
  flagged := by
    rw [h]
    refine Flagged.refl.congr (fun slot => ?_) fun slot => ?_
    · exact iff_false_intro fun ⟨_, hpath, _⟩ => List.not_mem_nil hpath
    · exact iff_false_intro fun ⟨_, hpath, _⟩ => List.not_mem_nil hpath
  status := .inl ⟨rfl, rfl, by rw [h]; exact fun _ hpath => absurd hpath List.not_mem_nil⟩

/-- A part that succeeds leaves the rest to the next part. -/
theorem FlagPost.append (h : FlagPost flags p L pages mem mem₁ success left)
    {left' : ℕ} (h' : FlagPost flags p L₁ left mem₁ mem' res left')
    (hapart : Apart mem p (reached mem p ((L ++ L₁).take pages))) :
    FlagPost flags p (L ++ L₁) pages mem mem' res left' := by
  have hshape := h.flagged.sameShape
  rcases h.status with ⟨-, hleft, hall⟩ | ⟨hres, -⟩
  · have htake : (L ++ L₁).take pages = L.take pages ++ L₁.take left := by
      rw [List.take_append, hleft]
    have hreached : reached mem p ((L ++ L₁).take pages) =
        L.take pages ++ reached mem p (L₁.take left) := by
      rw [htake, reached_of_mapped hall]
    have hfirst := h.flagged
    have hsecond := h'.flagged
    rw [reached_eq_self hall] at hfirst
    rw [reached_congr hshape] at hsecond
    rw [hreached] at hapart
    constructor
    · rw [hreached]
      refine (hfirst.trans hsecond ?_).congr (fun slot => ?_) fun slot => ?_
      · intro slot hi hl
        rw [innerOf_congr hshape, ← innerOf_append] at hi
        rw [leafOf_congr hshape, ← leafOf_append] at hl
        exact hapart slot hi hl
      · rw [innerOf_append, innerOf_congr hshape]
      · rw [leafOf_append, leafOf_congr hshape]
    · have hmapped : ∀ path, mapped mem₁ p path = mapped mem p path := fun path =>
        hshape.isSome_leaf p path
      rw [htake]
      rcases h'.status with ⟨hres, hleft', hall'⟩ | ⟨hres, hnot⟩
      · refine .inl ⟨hres, ?_, fun path hpath => ?_⟩
        · rw [hleft', hleft, List.length_append]
          omega
        · rcases List.mem_append.mp hpath with hpath | hpath
          · exact hall path hpath
          · exact (hmapped path).symm.trans (hall' path hpath)
      · refine .inr ⟨hres, fun hboth => hnot fun path hpath => ?_⟩
        exact (hmapped path).trans (hboth path (List.mem_append_right _ hpath))
  · exact absurd hres (by decide)

/-- A part that fails is the last one. -/
theorem FlagPost.fail (h : FlagPost flags p L pages mem mem' res left) (hres : isError res = true) :
    FlagPost flags p (L ++ L₁) pages mem mem' res left := by
  rcases h.status with ⟨hres', -, -⟩ | ⟨hres', hnot⟩
  · rw [hres'] at hres
    exact absurd hres (by decide)
  · have htake : (L ++ L₁).take pages = L.take pages ++ L₁.take (pages - L.length) :=
      List.take_append
    constructor
    · rw [htake, reached_of_not_mapped hnot]
      exact h.flagged
    · refine .inr ⟨hres', fun hall => hnot fun path hpath => hall path ?_⟩
      rw [htake]
      exact List.mem_append_left _ hpath

/-- One leaf entry is made anew. -/
theorem FlagPost.leafEntry (hpages : 0 < pages) (hpres : present (mem p i) = true) :
    FlagPost flags p [[i]] pages mem (mem.set p i (setPte (ptePaddr (mem p i)) flags)) success
      (pages - 1) := by
  have htake : [[i]].take pages = [[i]] := List.take_of_length_le hpages
  have hmapped : mapped mem p [i] = true := by
    show (pageTables.entry mem (p, i)).isSome = true
    rw [Radix.entry, if_pos (show pageTables.present _ = true from hpres)]
    rfl
  have hall : ∀ path ∈ [[i]], mapped mem p path = true := by
    intro path hpath
    rw [List.mem_singleton.mp hpath]
    exact hmapped
  have hleaf : ∀ slot, LeafOf mem p [[i]] slot ↔ slot = (p, i) := by
    intro slot
    simp only [LeafOf, List.mem_singleton, exists_eq_left, Radix.leafSlot_singleton,
      Option.some.injEq]
    constructor
    · exact fun h => h.1.symm
    · rintro rfl
      exact ⟨rfl, hpres⟩
  have hinner : ∀ slot, ¬ InnerOf mem p [[i]] slot := by
    rintro slot ⟨path, hpath, hslot, -⟩
    rw [List.mem_singleton.mp hpath] at hslot
    cases hslot
  refine ⟨?_, .inl ⟨rfl, rfl, by rw [htake]; exact hall⟩⟩
  rw [htake, reached_eq_self hall]
  refine ⟨fun slot hs => ?_, fun slot hs => absurd hs (hinner slot), fun slot hs => ?_,
    fun slot _ hs => ?_⟩
  · rw [(hleaf slot).mp hs]
    exact hpres
  · rw [(hleaf slot).mp hs, Tables.set_apply, if_pos ⟨rfl, rfl⟩]
  · rw [Tables.set_apply, if_neg]
    rintro ⟨h₁, h₂⟩
    exact hs ((hleaf slot).mpr (Prod.ext h₁ h₂))

/-- An entry that is not present ends the recursion, on each level. -/
theorem FlagPost.absent (hpages : 0 < pages) (hL : L ≠ []) (habs : present (mem p i) = false) :
    FlagPost flags p (L.map (i :: ·)) pages mem mem (-enomap) left := by
  obtain ⟨path, L, rfl⟩ := List.exists_cons_of_ne_nil hL
  obtain ⟨pages, rfl⟩ := Nat.exists_eq_add_of_le' hpages
  have habs' : ¬ pageTables.present (mem p i) = true := by
    rw [show pageTables.present (mem p i) = false from habs]
    exact Bool.false_ne_true
  have hnot : ¬ mapped mem p (i :: path) = true := by
    rw [mapped]
    by_cases hpath : path = []
    · subst hpath
      show ¬ (pageTables.entry mem (p, i)).isSome = true
      rw [Radix.entry, if_neg habs']
      exact Bool.false_ne_true
    · rw [Radix.leaf_cons hpath, if_neg habs']
      exact Bool.false_ne_true
  have hreached : reached mem p (((path :: L).map (i :: ·)).take (pages + 1)) = [i :: path] := by
    rw [List.map_cons, List.take_succ_cons, reached, if_neg hnot]
  have hinner : ∀ slot, ¬ InnerOf mem p [i :: path] slot := by
    rintro slot ⟨_, hpath, hslot, hp⟩
    rw [List.mem_singleton.mp hpath] at hslot
    cases path with
    | nil => cases hslot
    | cons j path =>
      rw [List.dropLast_cons_cons, Radix.slots, if_neg habs', List.mem_singleton] at hslot
      rw [hslot] at hp
      exact habs' hp
  have hleaf : ∀ slot, ¬ LeafOf mem p [i :: path] slot := by
    rintro slot ⟨_, hpath, hslot, hp⟩
    rw [List.mem_singleton.mp hpath] at hslot
    refine hnot ?_
    rw [mapped, Radix.leaf, hslot]
    show (pageTables.entry mem slot).isSome = true
    rw [Radix.entry, if_pos (show pageTables.present _ = true from hp)]
    rfl
  constructor
  · rw [hreached]
    exact Flagged.refl.congr (fun slot => iff_false_intro (hinner slot)) fun slot =>
      iff_false_intro (hleaf slot)
  · refine .inr ⟨rfl, fun hall => hnot (hall _ ?_)⟩
    rw [List.map_cons, List.take_succ_cons]
    exact List.mem_cons_self

/-- The paths that are come to below one entry. -/
theorem reached_take_cons (hpages : 0 < pages) (hL : L ≠ []) (hne : ∀ path ∈ L, path ≠ [])
    (hpres : present (mem p i) = true) :
    reached mem p ((L.map (i :: ·)).take pages) =
        (reached mem (ptePaddr (mem p i)) (L.take pages)).map (i :: ·) ∧
      reached mem (ptePaddr (mem p i)) (L.take pages) ≠ [] ∧
      ∀ path ∈ reached mem (ptePaddr (mem p i)) (L.take pages), path ≠ [] := by
  have hne' : ∀ path ∈ L.take pages, path ≠ [] :=
    fun path hpath => hne path (List.mem_of_mem_take hpath)
  refine ⟨?_, ?_, fun path hpath => hne' path (reached_subset hpath)⟩
  · rw [← List.map_take, reached_cons hpres hne']
  · obtain ⟨path, L, rfl⟩ := List.exists_cons_of_ne_nil hL
    obtain ⟨pages, rfl⟩ := Nat.exists_eq_add_of_le' hpages
    rw [List.take_succ_cons, reached]
    exact List.cons_ne_nil _ _

theorem innerOf_reached_cons (hpages : 0 < pages) (hL : L ≠ []) (hne : ∀ path ∈ L, path ≠ [])
    (hpres : present (mem p i) = true) :
    InnerOf mem p (reached mem p ((L.map (i :: ·)).take pages)) slot ↔
      slot = (p, i) ∨ InnerOf mem (ptePaddr (mem p i))
        (reached mem (ptePaddr (mem p i)) (L.take pages)) slot := by
  obtain ⟨hreached, hnonempty, hne'⟩ := reached_take_cons hpages hL hne hpres
  rw [hreached, innerOf_cons hpres hne', and_iff_right hnonempty]

theorem leafOf_reached_cons (hpages : 0 < pages) (hL : L ≠ []) (hne : ∀ path ∈ L, path ≠ [])
    (hpres : present (mem p i) = true) :
    LeafOf mem p (reached mem p ((L.map (i :: ·)).take pages)) slot ↔
      LeafOf mem (ptePaddr (mem p i)) (reached mem (ptePaddr (mem p i)) (L.take pages)) slot := by
  obtain ⟨hreached, -, hne'⟩ := reached_take_cons hpages hL hne hpres
  rw [hreached, leafOf_cons hpres hne']

/-- The rewriting of an entry above the leaf tables, and what the call below it does. -/
theorem FlagPost.innerEntry (hpages : 0 < pages) (hL : L ≠ []) (hne : ∀ path ∈ L, path ≠ [])
    (hpres : present (mem p i) = true)
    (hapart : Apart mem p (reached mem p ((L.map (i :: ·)).take pages)))
    (h : FlagPost flags (ptePaddr (mem p i)) L pages (mem.set p i (reflag (mem p i) flags)) mem'
      res left) : FlagPost flags p (L.map (i :: ·)) pages mem mem' res left := by
  have hfirst : Flagged flags _ _ mem _ := Flagged.reflag mem p i
  have hshape := hfirst.sameShape
  have hsecond := h.flagged
  rw [reached_congr hshape] at hsecond
  constructor
  · refine (hfirst.trans hsecond ?_).congr (fun slot => ?_) fun slot => ?_
    · intro slot hi hl
      rw [innerOf_congr hshape, ← innerOf_reached_cons hpages hL hne hpres] at hi
      rw [leafOf_congr hshape, false_or, ← leafOf_reached_cons hpages hL hne hpres] at hl
      exact hapart slot hi hl
    · rw [innerOf_reached_cons hpages hL hne hpres, innerOf_congr hshape]
    · rw [leafOf_reached_cons hpages hL hne hpres, leafOf_congr hshape, false_or]
  · have hall : (∀ path ∈ (L.map (i :: ·)).take pages, mapped mem p path = true) ↔
        ∀ path ∈ L.take pages,
          mapped (mem.set p i (reflag (mem p i) flags)) (ptePaddr (mem p i)) path = true := by
      rw [← List.map_take, List.forall_mem_map]
      refine forall₂_congr fun path hpath => ?_
      rw [mapped_cons hpres (hne path (List.mem_of_mem_take hpath)), mapped, mapped,
        hshape.isSome_leaf]
    rw [hall, List.length_map]
    exact h.status

/-! ### What it needs -/

/-- What a part of the recursion needs: the levels are told apart, and it does not come to
`tmp_pt`. -/
structure FlagPre (tmpPaddr : PAddr) (mem : Tables) (p : PAddr) (L : List (List ℕ)) (pages : ℕ) :
    Prop where
  apart : Apart mem p (reached mem p (L.take pages))
  avoid : ∀ slot, InnerOf mem p (reached mem p (L.take pages)) slot →
    ptePaddr (mem slot.1 slot.2) ≠ tmpPaddr

variable {tmpPaddr : PAddr}

theorem FlagPre.congr (h : pageTables.SameShape mem mem') (hpre : FlagPre tmpPaddr mem p L pages) :
    FlagPre tmpPaddr mem' p L pages where
  apart := by
    rw [reached_congr h]
    exact hpre.apart.congr h
  avoid slot hslot := by
    rw [reached_congr h, innerOf_congr h] at hslot
    have haddr : ptePaddr (mem' slot.1 slot.2) = ptePaddr (mem slot.1 slot.2) :=
      (h slot.1 slot.2).2
    rw [haddr]
    exact hpre.avoid slot hslot

/-- The paths that are come to in a part of the list are come to in the list. -/
theorem reached_append_subset :
    reached mem p (L.take pages) ⊆ reached mem p ((L ++ L₁).take pages) := by
  rw [List.take_append]
  by_cases hall : ∀ path ∈ L.take pages, mapped mem p path = true
  · rw [reached_of_mapped hall, reached_eq_self hall]
    exact List.subset_append_left _ _
  · rw [reached_of_not_mapped hall]
    exact List.Subset.refl _

theorem FlagPre.first (h : FlagPre tmpPaddr mem p (L ++ L₁) pages) :
    FlagPre tmpPaddr mem p L pages where
  apart := h.apart.mono reached_append_subset
  avoid slot hslot := h.avoid slot (hslot.mono reached_append_subset)

/-- What the next part needs, after a part that succeeded. -/
theorem FlagPre.next (h : FlagPre tmpPaddr mem p (L ++ L₁) pages)
    (hpost : FlagPost flags p L pages mem mem₁ success left) :
    FlagPre tmpPaddr mem₁ p L₁ left := by
  apply FlagPre.congr hpost.flagged.sameShape
  rcases hpost.status with ⟨-, hleft, hall⟩ | ⟨hres, -⟩
  · have hsub : reached mem p (L₁.take left) ⊆ reached mem p ((L ++ L₁).take pages) := by
      rw [List.take_append, reached_of_mapped hall, ← hleft]
      exact List.subset_append_right _ _
    exact ⟨h.apart.mono hsub, fun slot hslot => h.avoid slot (hslot.mono hsub)⟩
  · exact absurd hres (by decide)

/-- What the call for the level below needs. -/
theorem FlagPre.tail (h : FlagPre tmpPaddr mem p (L.map (i :: ·)) pages) (hpages : 0 < pages)
    (hL : L ≠ []) (hne : ∀ path ∈ L, path ≠ []) (hpres : present (mem p i) = true) :
    ptePaddr (mem p i) ≠ tmpPaddr ∧ FlagPre tmpPaddr mem (ptePaddr (mem p i)) L pages := by
  have hinner : ∀ slot, InnerOf mem p (reached mem p ((L.map (i :: ·)).take pages)) slot ↔
      slot = (p, i) ∨ InnerOf mem (ptePaddr (mem p i))
        (reached mem (ptePaddr (mem p i)) (L.take pages)) slot :=
    fun slot => innerOf_reached_cons hpages hL hne hpres
  refine ⟨h.avoid (p, i) ((hinner _).mpr (.inl rfl)), fun slot hi hl => ?_,
    fun slot hslot => h.avoid slot ((hinner slot).mpr (.inr hslot))⟩
  exact h.apart slot ((hinner slot).mpr (.inr hi))
    ((leafOf_reached_cons hpages hL hne hpres).mpr hl)

/-! ## The recursion -/

section Recursion

variable {tmpPt : ℕ → Pte} {below : List (List ℕ)} {t₀ : FlatState} {n : ℕ}

/-- The states in which a part of the recursion starts and ends. -/
structure FlagRan (tmpPaddr : PAddr) (tmpPt : ℕ → Pte) (flags : Flags) (p : PAddr)
    (L : List (List ℕ)) (pages : ℕ) (t₀ : FlatState) (r : Status × ℕ) (t : FlatState) : Prop where
  frames : t.frames = t₀.frames
  tlb : t.tlb = t₀.tlb
  post : FlagPost flags p L pages (view tmpPaddr tmpPt t₀.mem) (view tmpPaddr tmpPt t.mem) r.1 r.2

/-- What a round of the loop says about the rest, when it works on the table `p` and the
paths of the level below are `below`. -/
def FlagRound (tmpPaddr : PAddr) (tmpPt : ℕ → Pte) (flags : Flags) (p : PAddr)
    (below : List (List ℕ)) (t₀ : FlatState) (i pages : ℕ) :
    FaultState.Flow (ℕ × ℕ) (Status × ℕ) → FlatState → Prop :=
  Flow.post
    (fun v t => i < 512 ∧ v.1 = i + 1 ∧
      FlagRan tmpPaddr tmpPt flags p (below.map (i :: ·)) pages t₀ (success, v.2) t)
    fun r t => (t = t₀ ∧ r = (success, pages) ∧ (512 ≤ i ∨ pages = 0)) ∨
      (i < 512 ∧ isError r.1 = true ∧
        FlagRan tmpPaddr tmpPt flags p (below.map (i :: ·)) pages t₀ r t)

/-- The loop goes through the box, entry by entry. -/
theorem flag_rounds {body : ℕ × ℕ → Prog Fault FlatState (FaultState.Flow (ℕ × ℕ) (Status × ℕ))}
    (hbody : ∀ i pages t₀,
      (i < 512 → FlagPre tmpPaddr (view tmpPaddr tmpPt t₀.mem) p (below.map (i :: ·)) pages) →
      Total (fun t => t = t₀) (body (i, pages)) (FlagRound tmpPaddr tmpPt flags p below t₀ i pages))
    (hn : 512 ≤ n + i)
    (hpre : FlagPre tmpPaddr (view tmpPaddr tmpPt t₀.mem) p (Radix.boxFrom 512 below i) pages) :
    Total (fun t => t = t₀) (rounds body (fun v => return (success, v.2)) n (i, pages))
      (FlagRan tmpPaddr tmpPt flags p (Radix.boxFrom 512 below i) pages t₀) := by
  have hnil : ∀ {pages : ℕ} {L : List (List ℕ)} (t : FlatState), L.take pages = [] →
      pages - L.length = pages → FlagRan tmpPaddr tmpPt flags p L pages t (success, pages) t := by
    intro pages L t htake hlen
    have hpost : FlagPost flags p L pages (view tmpPaddr tmpPt t.mem) (view tmpPaddr tmpPt t.mem)
        success (pages - L.length) := FlagPost.nil htake
    rw [hlen] at hpost
    exact ⟨rfl, rfl, hpost⟩
  induction n generalizing i pages t₀ with
  | zero =>
    apply Total.pure
    rintro t rfl
    rw [Radix.boxFrom_of_le (by omega)]
    exact hnil t List.take_nil (Nat.sub_zero pages)
  | succ n ih =>
    have hone : i < 512 →
        FlagPre tmpPaddr (view tmpPaddr tmpPt t₀.mem) p (below.map (i :: ·)) pages := by
      intro hi
      rw [Radix.boxFrom_of_lt hi] at hpre
      exact hpre.first
    apply Total.bind (hbody i pages t₀ hone)
    rintro (⟨i', left⟩ | r)
    · apply Total.of_start
      rintro t₁ ⟨hi, rfl, hran⟩
      rw [Radix.boxFrom_of_lt hi] at hpre ⊢
      apply (ih (by omega) (hpre.next hran.post)).mono fun _ h => h
      intro r t hran'
      exact ⟨hran'.frames.trans hran.frames, hran'.tlb.trans hran.tlb,
        hran.post.append hran'.post hpre.apart⟩
    · apply Total.pure
      rintro t (⟨rfl, rfl, hend⟩ | ⟨hi, hres, hran⟩)
      · rcases hend with hend | hend
        · rw [Radix.boxFrom_of_le hend]
          exact hnil t List.take_nil (Nat.sub_zero pages)
        · rw [hend]
          exact hnil t List.take_zero (Nat.zero_sub _)
      · rw [Radix.boxFrom_of_lt hi]
        exact ⟨hran.frames, hran.tlb, hran.post.fail hres⟩

/-- A round on a leaf table. -/
theorem flagLeaf_round (hne : p ≠ tmpPaddr) (t₀ : FlatState) (i pages : ℕ) :
    Total (fun t => t = t₀) (flagLeaf (flat tmpPaddr) flags p (i, pages))
      (FlagRound tmpPaddr tmpPt flags p [[]] t₀ i pages) := by
  apply Total.ite
  · intro hrange
    apply Total.bind (Q := fun e t => t = t₀ ∧ e = t₀.mem p i)
      (flatTotal_read p i fun t ht => ⟨ht, by rw [ht]⟩)
    intro e
    apply Total.ite
    · intro hpres
      apply Total.bind (Q := fun _ t => e = t₀.mem p i ∧ t = t₀.set p i (setPte (ptePaddr e) flags))
        (flatTotal_write p i _ fun t ht => ⟨ht.2, by rw [ht.1]⟩)
      intro _
      apply Total.pure
      rintro t ⟨rfl, rfl⟩
      refine ⟨hrange.1, rfl, rfl, rfl, ?_⟩
      rw [FlatState.set_mem, view_set hne]
      have hpres' : present (view tmpPaddr tmpPt t₀.mem p i) = true := by
        rw [view_of_ne hne]
        exact hpres
      have hpost : FlagPost flags p [[i]] pages (view tmpPaddr tmpPt t₀.mem) _ success
        (pages - 1) :=
        FlagPost.leafEntry hrange.2 hpres'
      rw [view_of_ne hne] at hpost
      exact hpost
    · intro habs
      apply Total.pure
      rintro t ⟨rfl, rfl⟩
      refine .inr ⟨hrange.1, rfl, rfl, rfl, ?_⟩
      apply FlagPost.absent hrange.2 (List.cons_ne_nil _ _)
      rw [view_of_ne hne]
      exact Bool.not_eq_true _ ▸ habs
  · intro hrange
    apply Total.pure
    rintro t rfl
    refine .inl ⟨rfl, rfl, ?_⟩
    rw [ptLength] at hrange
    omega

/-- A round above the leaf tables. -/
theorem flagInner_round {child : PAddr → ℕ → Prog Fault FlatState (Status × ℕ)}
    (hbelow : below ≠ []) (hpaths : ∀ path ∈ below, path ≠ [])
    (hchild : ∀ q pages t₀, q ≠ tmpPaddr →
      FlagPre tmpPaddr (view tmpPaddr tmpPt t₀.mem) q below pages →
      Total (fun t => t = t₀) (child q pages)
        (FlagRan tmpPaddr tmpPt flags q below pages t₀))
    (hne : p ≠ tmpPaddr) (t₀ : FlatState) (i pages : ℕ)
    (hpre : i < 512 →
      FlagPre tmpPaddr (view tmpPaddr tmpPt t₀.mem) p (below.map (i :: ·)) pages) :
    Total (fun t => t = t₀) (flagInner (flat tmpPaddr) child flags p (i, pages))
      (FlagRound tmpPaddr tmpPt flags p below t₀ i pages) := by
  apply Total.ite
  · intro hrange
    have hpre := hpre hrange.1
    apply Total.bind (Q := fun e t => t = t₀ ∧ e = t₀.mem p i)
      (flatTotal_read p i fun t ht => ⟨ht, by rw [ht]⟩)
    intro e
    apply Total.ite
    · intro hpres
      apply Total.bind (Q := fun r t => e = t₀.mem p i ∧
        FlagRan tmpPaddr tmpPt flags p (below.map (i :: ·)) pages t₀ r t)
      · apply Total.of_start
        rintro t ⟨ht, rfl⟩
        obtain rfl := ht.symm
        have hpres' : present (view tmpPaddr tmpPt t₀.mem p i) = true := by
          rw [view_of_ne hne]
          exact hpres
        obtain ⟨hq, htail⟩ := hpre.tail hrange.2 hbelow hpaths hpres'
        rw [view_of_ne hne] at hq htail
        apply flatTotal_withTable _ (by rw [ptePaddr_ptePaddr]; exact hq)
        rw [ptePaddr_ptePaddr]
        apply Total.bind (Q := fun _ t => t = t₀.set p i (reflag (t₀.mem p i) flags))
          (flatTotal_updatePtPteFlags p i flags fun t ht => by rw [ht])
        intro _
        have hmem : view tmpPaddr tmpPt (t₀.set p i (reflag (t₀.mem p i) flags)).mem =
            (view tmpPaddr tmpPt t₀.mem).set p i
            (reflag (view tmpPaddr tmpPt t₀.mem p i) flags) := by
          rw [FlatState.set_mem, view_set hne, view_of_ne hne]
        have hshape : pageTables.SameShape (view tmpPaddr tmpPt t₀.mem)
            (view tmpPaddr tmpPt (t₀.set p i (reflag (t₀.mem p i) flags)).mem) := by
          rw [hmem]
          exact (Flagged.reflag _ p i).sameShape
        apply (hchild (ptePaddr (t₀.mem p i)) pages _ hq (htail.congr hshape)).mono fun _ h => h
        intro r t hran
        refine ⟨rfl, hran.frames, hran.tlb, ?_⟩
        apply FlagPost.innerEntry hrange.2 hbelow hpaths hpres' hpre.apart
        rw [← hmem, view_of_ne hne]
        exact hran.post
      · rintro ⟨res, left⟩
        apply Total.pure
        rintro t ⟨-, hran⟩
        split
        next hres => exact .inr ⟨hrange.1, hres, hran⟩
        next hres =>
          have hsuccess : res = success := by
            rcases hran.post.status with ⟨hres', -⟩ | ⟨hres', -⟩
            · exact hres'
            · exact absurd (by rw [show res = -enomap from hres']; decide) hres
          rw [hsuccess] at hran
          exact ⟨hrange.1, rfl, hran⟩
    · intro habs
      apply Total.pure
      rintro t ⟨rfl, rfl⟩
      refine .inr ⟨hrange.1, rfl, rfl, rfl, ?_⟩
      apply FlagPost.absent hrange.2 hbelow
      rw [view_of_ne hne]
      exact Bool.not_eq_true _ ▸ habs
  · intro hrange
    apply Total.pure
    rintro t rfl
    refine .inl ⟨rfl, rfl, ?_⟩
    rw [ptLength] at hrange
    omega

/-- **What `recurse_flag` does**: it rewrites the entries on the way to the first pages of the
box, as far as they are mapped. -/
theorem recurseFlag_ran (height : ℕ) (index : List ℕ) (hlen : index.length = height + 1)
    (hidx : ∀ i ∈ index, i < 512) (p : PAddr) (pages : ℕ) (t₀ : FlatState) (hne : p ≠ tmpPaddr)
    (hpre : FlagPre tmpPaddr (view tmpPaddr tmpPt t₀.mem) p (Radix.box 512 index) pages) :
    Total (fun t => t = t₀) (recurseFlag (flat tmpPaddr) flags height index p pages)
      (FlagRan tmpPaddr tmpPt flags p (Radix.box 512 index) pages t₀) := by
  induction height generalizing index p pages t₀ with
  | zero =>
    obtain ⟨i, rfl⟩ := List.length_eq_one_iff.mp hlen
    exact flag_rounds (fun i pages t₀ _ => flagLeaf_round hne t₀ i pages) (by rw [ptLength]; omega)
      hpre
  | succ height ih =>
    obtain ⟨i, index, rfl⟩ := List.exists_cons_of_length_eq_add_one hlen
    have hlen' : index.length = height + 1 := by simpa using hlen
    have hidx' : ∀ j ∈ index, j < 512 := fun j hj => hidx j (List.mem_cons_of_mem i hj)
    apply flag_rounds _ (by rw [ptLength]; omega) hpre
    intro i pages t₀ hpre
    apply flagInner_round _ _ _ hne t₀ i pages hpre
    · exact List.ne_nil_of_mem (Radix.self_mem_box hidx')
    · intro path hpath heq
      have hpathlen := (Radix.of_mem_box hpath).1
      rw [heq, hlen'] at hpathlen
      cases hpathlen
    · exact fun q pages t₀ hq hpre => ih index hlen' hidx' q pages t₀ hq hpre

end Recursion

/-! ## The call -/

section Call

variable {tmpPaddr root : PAddr} {tmpPt : ℕ → Pte} {s s' : VmState} {vaddr : ℕ}
  {frames : List PAddr}

/-- The tables above the leaf tables that such walks come to are no leaf tables. -/
theorem Ordered.inner_not_leaf (h : Ordered tmpPaddr tmpPt root mem frames)
    (hroot : root ≠ tmpPaddr) (hpaths : ∀ path ∈ paths, path.length = 4 ∧ ∀ i ∈ path, i < 512)
    (havoid : ∀ slot, InnerOf (view tmpPaddr tmpPt mem) root paths slot →
      ptePaddr (view tmpPaddr tmpPt mem slot.1 slot.2) ≠ tmpPaddr)
    (hslot : InnerOf (view tmpPaddr tmpPt mem) root paths slot) :
    ¬ TableAt tmpPaddr tmpPt root mem 3 slot.1 := by
  intro hleaf
  obtain ⟨path, hpath, hslot, -⟩ := hslot
  obtain ⟨hlen, hidx⟩ := hpaths path hpath
  obtain ⟨m, -, hm, hat, -⟩ := Radix.At.root.slots
    (fun i hi => hidx i (List.mem_of_mem_dropLast hi)) hslot
  rw [List.length_dropLast, hlen] at hm
  have hne : slot.1 ≠ tmpPaddr := by
    rcases Radix.parent_of_mem_slots hslot with heq | ⟨above, habove, hpres, hnext⟩
    · rw [heq]
      exact hroot
    · rw [← hnext]
      exact havoid above ⟨path, hpath, habove, hpres⟩
  have hlevel := h.oneLevel slot.1 hne m (by omega) 3 le_rfl hat hleaf
  omega

/-- The paths that are visited. -/
theorem path_of_mem_reached {path : List ℕ}
    (h : path ∈ reached mem p ((Radix.box 512 (indices vaddr)).take pages)) :
    path.length = 4 ∧ ∀ i ∈ path, i < 512 := by
  have hbox := Radix.of_mem_box (List.mem_of_mem_take (reached_subset h))
  exact ⟨hbox.1.trans (length_indices vaddr), hbox.2⟩

/-- Pages whose walks do not come to `tmp_pt` are walked in tables of one level each. -/
theorem Ordered.flagPre (h : Ordered tmpPaddr tmpPt root mem frames) (hroot : root ≠ tmpPaddr)
    (havoid : ∀ slot, InnerOf (view tmpPaddr tmpPt mem) root
      (reached (view tmpPaddr tmpPt mem) root ((Radix.box 512 (indices vaddr)).take pages)) slot →
      ptePaddr (view tmpPaddr tmpPt mem slot.1 slot.2) ≠ tmpPaddr) :
    FlagPre tmpPaddr (view tmpPaddr tmpPt mem) root (Radix.box 512 (indices vaddr)) pages where
  apart slot hinner := by
    rintro ⟨path, hpath, hslot, -⟩
    obtain ⟨hlen, hidx⟩ := path_of_mem_reached hpath
    have hat := (Radix.At.root.leafSlot hidx hslot).1
    rw [hlen] at hat
    exact h.inner_not_leaf hroot (fun _ hpath => path_of_mem_reached hpath) havoid hinner hat
  avoid := havoid

/-- What a call of `vm_flag_pages` leaves behind. -/
structure FlagEffect (tmpPaddr root : PAddr) (flags : Flags) (vaddr pages : ℕ) (s : VmState)
    (res : Status) (s' : VmState) : Prop where
  tmpPt_eq : s'.tmpPt = s.tmpPt
  first_eq : s'.firstFreeTmpIndex = s.firstFreeTmpIndex
  frames_eq : s'.frames = s.frames
  tlb : ∀ e ∈ s'.tlb, e ∈ s.tlb
  flagged : Flagged flags
    (InnerOf (s.tables tmpPaddr) root
      (reached (s.tables tmpPaddr) root ((Radix.box 512 (indices vaddr)).take pages)))
    (LeafOf (s.tables tmpPaddr) root
      (reached (s.tables tmpPaddr) root ((Radix.box 512 (indices vaddr)).take pages)))
    (s.tables tmpPaddr) (s'.tables tmpPaddr)
  status : (res = success ∧ ∀ path ∈ (Radix.box 512 (indices vaddr)).take pages,
      mapped (s.tables tmpPaddr) root path = true) ∨
    (res = -enomap ∧ ¬ ∀ path ∈ (Radix.box 512 (indices vaddr)).take pages,
      mapped (s.tables tmpPaddr) root path = true)

/-- An assertion that holds does nothing. -/
theorem check_eq_ok_iff {σ : Type} {x : Bool} {expr : String} {s s' : σ} {u : Unit} :
    (check x expr : Prog Fault σ Unit) s = .ok (u, s') ↔ x = true ∧ s' = s := by
  cases x with
  | false =>
    constructor
    · intro h; cases h
    · rintro ⟨h, -⟩; cases h
  | true =>
    constructor
    · intro h; cases h; exact ⟨rfl, rfl⟩
    · rintro ⟨-, rfl⟩; rfl

/-- `vm_flag_pages` on the machine without a window. -/
theorem vmFlagPages_ran (hal : vaddr % pageSize = 0) (hpages : 0 < pages) (hroot : root ≠ tmpPaddr)
    {t₀ : FlatState} (hpre : FlagPre tmpPaddr (view tmpPaddr tmpPt t₀.mem) root
      (Radix.box 512 (indices vaddr)) pages) :
    Total (fun t => t = t₀) (vmFlagPages (flat tmpPaddr) root vaddr pages flags)
      fun res t => ∃ left, FlagRan tmpPaddr tmpPt flags root (Radix.box 512 (indices vaddr)) pages
        t₀ (res, left) t := by
  rw [vmFlagPages, check, if_pos (decide_eq_true hal), check, if_pos (decide_eq_true hpages),
    pure_bind, pure_bind]
  apply Total.bind (recurseFlag_ran 3 _ rfl (fun _ hi => indices_lt hi) root pages t₀ hroot hpre)
  exact fun r => Total.pure fun t hran => ⟨r.2, hran⟩

/-- **What `vm_flag_pages` does**, when it does not come to `tmp_pt`. -/
theorem flag_of_call (hwin : WindowOk s.tmpPt s.firstFreeTmpIndex) (hroot : root ≠ tmpPaddr)
    (hpre : FlagPre tmpPaddr (s.tables tmpPaddr) root (Radix.box 512 (indices vaddr)) pages)
    (hok : call root (vmFlagPages (kernel tmpPaddr) (.table root) vaddr pages flags) s =
      .ok (res, s')) : FlagEffect tmpPaddr root flags vaddr pages s res s' := by
  have hchecks : vaddr % pageSize = 0 ∧ 0 < pages := by
    obtain ⟨_, s₁, hcheck, hrest⟩ := bind_eq_ok_iff.mp hok
    obtain ⟨_, s₂, hcheck', -⟩ := bind_eq_ok_iff.mp hrest
    exact ⟨of_decide_eq_true (check_eq_ok_iff.mp hcheck).1,
      of_decide_eq_true (check_eq_ok_iff.mp hcheck').1⟩
  have hrun : Total (fun t => t = s.flat) (vmFlagPages (flat tmpPaddr) root vaddr pages flags)
      fun res t => ∃ left, FlagRan tmpPaddr s.tmpPt flags root (Radix.box 512 (indices vaddr))
        pages s.flat (res, left) t := vmFlagPages_ran hchecks.1 hchecks.2 hroot hpre
  obtain ⟨res', t, hflat, left, hran⟩ := hrun.run s.flat rfl
  obtain ⟨rfl, hleaves⟩ := call_of_flat (fun _ _ hlevel _ _ hpt => sim_vmFlagPages hlevel hpt ..)
    hwin hroot hflat hok
  have htables : s'.tables tmpPaddr = view tmpPaddr s.tmpPt t.mem := by
    rw [VmState.tables, hleaves.tmpPt_eq, hleaves.mem_eq]
  refine ⟨hleaves.tmpPt_eq, hleaves.first_eq, hleaves.frames_eq.trans hran.frames,
    fun e he => ?_, ?_, ?_⟩
  · have htlb := hleaves.tlb e he
    rw [hran.tlb] at htlb
    exact htlb
  · rw [htables]
    exact hran.post.flagged
  · rcases hran.post.status with ⟨hres, -, hall⟩ | hfail
    · exact .inl ⟨hres, hall⟩
    · exact .inr hfail

/-- With room in the window the call returns. -/
theorem flag_returns (hwin : WindowOk s.tmpPt s.firstFreeTmpIndex) (hroom : Room 3 s.tmpPt)
    (hroot : root ≠ tmpPaddr) (hal : vaddr % pageSize = 0) (hpages : 0 < pages)
    (hpre : FlagPre tmpPaddr (s.tables tmpPaddr) root (Radix.box 512 (indices vaddr)) pages) :
    ∃ res s', call root (vmFlagPages (kernel tmpPaddr) (.table root) vaddr pages flags) s =
      .ok (res, s') := by
  have hrun : Total (fun t => t = s.flat) (vmFlagPages (flat tmpPaddr) root vaddr pages flags)
      fun res t => ∃ left, FlagRan tmpPaddr s.tmpPt flags root (Radix.box 512 (indices vaddr))
        pages s.flat (res, left) t := vmFlagPages_ran hal hpages hroot hpre
  obtain ⟨res, t, hflat, -⟩ := hrun.run s.flat rfl
  obtain ⟨s', hok, -⟩ := flat_call (fun _ _ hlevel _ _ hpt => sim_vmFlagPages hlevel hpt ..)
    hwin hroom hroot hflat
  exact ⟨res, s', hok⟩

end Call

end Mimik.Vm
