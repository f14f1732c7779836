/-
# What `recurse_map` visits

`recurse_map` starts at the indices of the range in every table that it comes to, as
`recurse_flag` does: it visits the paths of a box (`Radix.box`), in order, until it has
filled as many leaf entries as there are pages.  On the way to a path it makes the
tables that are missing and rewrites the permissions of the entries above the leaf
tables; a leaf entry that is present stays, and does not count.

`visit` is what is done for one path and `visitAll` for a list of paths.  The recursion
makes an entry above the leaf tables anew once, before it goes down to all paths below
it; `visit` does so for each of them, which comes to the same (`visitAll_below`).  The
result is an equation (`recurseMap_eq`): the recursion does what `visitAll` does with
the box, and faults when there are no more frames.
-/
import Mimik.RadixPlace
import Mimik.VmFlag

namespace Mimik.Vm

open FaultState

/-! ## Visits -/

/-- The entry of a table of the next level is made, where there was none, and gets the
permissions: none if there is no frame for the table. -/
def FlatState.settled (flags : Flags) (t : FlatState) (p : PAddr) (i : ℕ) : Option FlatState :=
  if present (t.mem p i) then some (t.set p i (reflag (t.mem p i) flags))
  else match t.frames with
    | [] => none
    | f :: _ =>
      some ((t.created p i f).set p i (reflag ((t.created p i f).mem p i) flags))

/-- What is done for one path. -/
def visit (flags : Flags) (paddr : PAddr) : List ℕ → PAddr → FlatState → Option FlatState
  | [], _, t => some t
  | [i], p, t => some (if present (t.mem p i) then t else t.set p i (setPte paddr flags))
  | i :: j :: path, p, t => do
    let t ← t.settled flags p i
    visit flags paddr (j :: path) (ptePaddr (t.mem p i)) t

/-- What is done for a list of paths, with what is left in `*paddr` and `*pages`. -/
def visitAll (flags : Flags) (p : PAddr) :
    List (List ℕ) → PAddr → ℕ → FlatState → Option (PAddr × ℕ × FlatState)
  | [], paddr, pages, t => some (paddr, pages, t)
  | path :: L, paddr, pages, t =>
    if pages = 0 then some (paddr, pages, t)
    else do
      let t' ← visit flags paddr path p t
      if mapped t.mem p path then visitAll flags p L paddr pages t'
      else visitAll flags p L (paddr + 4096#64) (pages - 1) t'

variable {flags : Flags} {paddr p q root tmpPaddr f : PAddr} {i pages level n : ℕ}
  {path : List ℕ} {L L₁ : List (List ℕ)} {t t' t₁ t₂ : FlatState}

theorem visit_cons (hpath : path ≠ []) :
    visit flags paddr (i :: path) p t =
      (t.settled flags p i).bind fun t => visit flags paddr path (ptePaddr (t.mem p i)) t := by
  cases path with
  | nil => exact absurd rfl hpath
  | cons j path => rfl

theorem visitAll_zero : visitAll flags p L paddr 0 t = some (paddr, 0, t) := by
  cases L <;> rfl

/-- The visits of a list are those of its parts. -/
theorem visitAll_append : visitAll flags p (L ++ L₁) paddr pages t =
    (visitAll flags p L paddr pages t).bind fun r => visitAll flags p L₁ r.1 r.2.1 r.2.2 := by
  induction L generalizing paddr pages t with
  | nil => rfl
  | cons path L ih =>
    rw [List.cons_append, visitAll, visitAll]
    by_cases hpages : pages = 0
    · rw [if_pos hpages, if_pos hpages]
      subst hpages
      exact visitAll_zero.symm
    · rw [if_neg hpages, if_neg hpages]
      cases hv : visit flags paddr path p t with
      | none => rfl
      | some t' =>
        show (if mapped t.mem p path = true then _ else _) = Option.bind (if _ then _ else _) _
        split
        · exact ih
        · exact ih

/-! ## What visits need and keep -/

/-- The tables in memory, without a window. -/
abbrev TableOf (root : PAddr) (mem : Tables) (level : ℕ) (p : PAddr) : Prop :=
  pageTables.At mem root level p

/-- The tables are in order and do not lead into the window: each table serves at one level,
and the frames to come are page addresses, distinct from each other and from the tables. -/
structure Sound (tmpPaddr root : PAddr) (t : FlatState) : Prop where
  oneLevel : ∀ p, ∀ n ≤ 3, ∀ m ≤ 3, TableOf root t.mem n p → TableOf root t.mem m p → n = m
  avoids : ∀ n ≤ 3, ¬ TableOf root t.mem n tmpPaddr
  aligned : ∀ f ∈ t.frames, ptePaddr f = f
  noTmp : tmpPaddr ∉ t.frames
  noTable : ∀ f ∈ t.frames, ∀ n ≤ 3, ¬ TableOf root t.mem n f
  nodup : t.frames.Nodup

/-- What is done below a table of the given level: the tables stay tables and frames become
tables, those above are not touched, nor is what is neither a table nor a frame, and leaf entries
are only filled. -/
structure Visited (tmpPaddr root : PAddr) (level : ℕ) (t t' : FlatState) : Prop where
  sound : Sound tmpPaddr root t'
  table : ∀ n ≤ 3, ∀ q, TableOf root t.mem n q → TableOf root t'.mem n q
  back : ∀ n ≤ 3, ∀ q, TableOf root t'.mem n q → TableOf root t.mem n q ∨ q ∈ t.frames
  other : ∀ q, (∀ n ≤ 3, ¬ TableOf root t.mem n q) → q ∉ t.frames → ∀ i, t'.mem q i = t.mem q i
  above : ∀ n < level, ∀ q, TableOf root t.mem n q → ∀ i, t'.mem q i = t.mem q i
  leaves : ∀ q, TableOf root t.mem 3 q → ∀ i, present (t.mem q i) = true → t'.mem q i = t.mem q i
  frames : t'.frames <:+ t.frames
  tlb : t'.tlb = t.tlb

theorem Visited.refl (h : Sound tmpPaddr root t) : Visited tmpPaddr root level t t :=
  ⟨h, fun _ _ _ hq => hq, fun _ _ _ hq => .inl hq, fun _ _ _ _ => rfl, fun _ _ _ _ _ => rfl,
    fun _ _ _ _ => rfl, List.suffix_refl _, rfl⟩

theorem Visited.trans (h : Visited tmpPaddr root level t t₁)
    (h' : Visited tmpPaddr root level t₁ t₂) (hlevel : level ≤ 4) :
    Visited tmpPaddr root level t t₂ where
  sound := h'.sound
  table n hn q hq := h'.table n hn q (h.table n hn q hq)
  back n hn q hq := by
    rcases h'.back n hn q hq with hq | hq
    · exact h.back n hn q hq
    · exact .inr (h.frames.subset hq)
  other q hq hframe i := by
    rw [h'.other q _ (fun hf => hframe (h.frames.subset hf)), h.other q hq hframe]
    intro n hn hat
    exact (h.back n hn q hat).elim (hq n hn) hframe
  above n hn q hq i := by
    rw [h'.above n hn q (h.table n (by omega) q hq), h.above n hn q hq]
  leaves q hq i hpres := by
    have hsame := h.leaves q hq i hpres
    rw [h'.leaves q (h.table 3 le_rfl q hq) i (by rw [hsame]; exact hpres), hsame]
  frames := h'.frames.trans h.frames
  tlb := h'.tlb.trans h.tlb

theorem Visited.mono (h : Visited tmpPaddr root level t t') (hn : n ≤ level) :
    Visited tmpPaddr root n t t' :=
  ⟨h.sound, h.table, h.back, h.other, fun m hm => h.above m (by omega), h.leaves, h.frames,
    h.tlb⟩

/-- Tables that stay where they are stay in order. -/
theorem Sound.congr (h : Sound tmpPaddr root t) (hframes : t'.frames = t.frames)
    (hiff : ∀ n ≤ 3, ∀ q, TableOf root t'.mem n q ↔ TableOf root t.mem n q) :
    Sound tmpPaddr root t' where
  oneLevel q n hn m hm hqn hqm :=
    h.oneLevel q n hn m hm ((hiff n hn q).mp hqn) ((hiff m hm q).mp hqm)
  avoids n hn htmp := h.avoids n hn ((hiff n hn tmpPaddr).mp htmp)
  aligned := by rw [hframes]; exact h.aligned
  noTmp := by rw [hframes]; exact h.noTmp
  noTable := by
    rw [hframes]
    exact fun g hg n hn hgn => h.noTable g hg n hn ((hiff n hn g).mp hgn)
  nodup := by rw [hframes]; exact h.nodup

/-- The rewriting of an entry above the leaf tables. -/
theorem Sound.reflag (h : Sound tmpPaddr root t) (hp : TableOf root t.mem level p)
    (hlevel : level < 3) :
    Visited tmpPaddr root level t (t.set p i (Vm.reflag (t.mem p i) flags)) := by
  have hfl : Flagged flags _ _ t.mem (t.mem.set p i (Vm.reflag (t.mem p i) flags)) :=
    Flagged.reflag t.mem p i
  have hshape := hfl.sameShape
  refine ⟨h.congr rfl fun n _ q => hshape.at_iff, fun n _ q hq => hshape.at_iff.mpr hq,
    fun n _ q hq => .inl (hshape.at_iff.mp hq), fun q hq _ j => ?_, fun m hm q hq j => ?_,
    fun q hq j _ => ?_, List.suffix_refl _, rfl⟩
  · rw [FlatState.set_mem, Tables.set_apply, if_neg]
    rintro ⟨rfl, -⟩
    exact hq level (by omega) hp
  · rw [FlatState.set_mem, Tables.set_apply, if_neg]
    rintro ⟨rfl, -⟩
    have := h.oneLevel q m (by omega) level (by omega) hq hp
    omega
  · rw [FlatState.set_mem, Tables.set_apply, if_neg]
    rintro ⟨rfl, -⟩
    have := h.oneLevel q 3 le_rfl level (by omega) hq hp
    omega

/-- The filling of a leaf entry. -/
theorem Sound.fill (h : Sound tmpPaddr root t) (hp : TableOf root t.mem 3 p)
    (habs : present (t.mem p i) = false) (e : Pte) : Visited tmpPaddr root 3 t (t.set p i e) := by
  have hother : ∀ m < 3, ∀ q, TableOf root t.mem m q → ∀ j,
      (t.set p i e).mem q j = t.mem q j := by
    intro m hm q hq j
    rw [FlatState.set_mem, Tables.set_apply, if_neg]
    -- `p` is a leaf table only
    rintro ⟨rfl, -⟩
    have := h.oneLevel q m (by omega) 3 le_rfl hq hp
    omega
  have hiff : ∀ n ≤ 3, ∀ q, TableOf root (t.set p i e).mem n q ↔ TableOf root t.mem n q := by
    intro n hn q
    apply Radix.at_congr (d := 3) _ hn
    intro m hm q hq j _
    rw [hother m hm q hq j]
    exact ⟨rfl, rfl⟩
  refine ⟨h.congr rfl hiff, fun n hn q hq => (hiff n hn q).mpr hq,
    fun n hn q hq => .inl ((hiff n hn q).mp hq), fun q hq _ j => ?_, hother,
    fun q _ j hpres => ?_, List.suffix_refl _, rfl⟩
  · rw [FlatState.set_mem, Tables.set_apply, if_neg]
    rintro ⟨rfl, -⟩
    exact hq 3 le_rfl hp
  · rw [FlatState.set_mem, Tables.set_apply, if_neg]
    rintro ⟨rfl, rfl⟩
    rw [habs] at hpres
    cases hpres

/-- A new table is linked where there was none. -/
theorem Sound.links (h : Sound tmpPaddr root t) (hf : f ∈ t.frames)
    (hp : TableOf root t.mem level p) (hlevel : level < 3) (habs : present (t.mem p i) = false) :
    pageTables.Links t.mem (t.created p i f).mem root 3 p i f := by
  have hal := h.aligned f hf
  have hnew := h.noTable f hf
  have hpf : p ≠ f := by
    rintro rfl
    exact hnew level (by omega) hp
  have hmem : ∀ q j, (t.created p i f).mem q j = if q = p ∧ j = i then setPte f vmFlagWritable
      else if q = f then 0#64 else t.mem q j := by
    intro q j
    show (t.mem.clear (ptePaddr f)).set p i (setPte f vmFlagWritable) q j = _
    rw [hal, Tables.set_apply, Tables.clear_apply]
  refine ⟨habs, hnew, ?_, ?_, fun j => ?_, fun m hm q hq j hj => ?_⟩
  · rw [hmem, if_pos ⟨rfl, rfl⟩]
    exact present_setPte _ _
  · rw [hmem, if_pos ⟨rfl, rfl⟩]
    exact (ptePaddr_setPte _ _).trans hal
  · rw [hmem, if_neg fun heq => hpf heq.1.symm, if_pos rfl]
    exact present_zero
  · rw [hmem, if_neg hj, if_neg]
    rintro rfl
    exact hnew m hm hq

theorem Sound.link (h : Sound tmpPaddr root t) {frames : List PAddr}
    (hframes : t.frames = f :: frames) (hp : TableOf root t.mem level p) (hlevel : level < 3)
    (habs : present (t.mem p i) = false) :
    Visited tmpPaddr root level t (t.created p i f) := by
  have hf : f ∈ t.frames := by rw [hframes]; exact List.mem_cons_self
  have hsub : ∀ g ∈ frames, g ∈ t.frames := fun g hg => by
    rw [hframes]; exact List.mem_cons_of_mem _ hg
  have hlink := h.links hf hp hlevel habs
  have hfr : (t.created p i f).frames = frames := by rw [FlatState.created, hframes]; rfl
  have hnodup := h.nodup
  rw [hframes, List.nodup_cons] at hnodup
  have hback : ∀ m ≤ 3, ∀ q, TableOf root (t.created p i f).mem m q →
      TableOf root t.mem m q ∨ (m = level + 1 ∧ q = f) := by
    intro m hm q hq
    exact hlink.back (fun k hk hpk => h.oneLevel p k hk level (by omega) hpk hp) hm hq
  have hnew : ∀ m ≤ 3, ¬ TableOf root t.mem m f := h.noTable f hf
  refine ⟨⟨?_, ?_, ?_, ?_, ?_, ?_⟩, fun n hn q hq => hlink.table hn hq, ?_, ?_, ?_, ?_, ?_, rfl⟩
  · intro q m hm k hk hqm hqk
    rcases hback m hm q hqm with hm' | ⟨rfl, rfl⟩
    · rcases hback k hk q hqk with hk' | ⟨rfl, rfl⟩
      · exact h.oneLevel q m hm k hk hm' hk'
      · exact absurd hm' (hnew m hm)
    · rcases hback k hk q hqk with hk' | ⟨rfl, -⟩
      · exact absurd hk' (hnew k hk)
      · rfl
  · intro m hm htmp
    rcases hback m hm tmpPaddr htmp with htmp | ⟨-, rfl⟩
    · exact h.avoids m hm htmp
    · exact h.noTmp hf
  · rw [hfr]
    exact fun g hg => h.aligned g (hsub g hg)
  · rw [hfr]
    exact fun hg => h.noTmp (hsub _ hg)
  · rw [hfr]
    intro g hg m hm hgm
    rcases hback m hm g hgm with hgm | ⟨-, rfl⟩
    · exact h.noTable g (hsub g hg) m hm hgm
    · exact hnodup.1 hg
  · rw [hfr]
    exact hnodup.2
  · intro m hm q hq
    rcases hback m hm q hq with hq | ⟨-, rfl⟩
    · exact .inl hq
    · exact .inr hf
  · intro q hq hframe j
    show (t.mem.clear (ptePaddr f)).set p i (setPte f vmFlagWritable) q j = _
    rw [h.aligned f hf, Tables.set_apply, if_neg, Tables.clear_apply, if_neg]
    · rintro rfl
      exact hframe hf
    · rintro ⟨rfl, -⟩
      exact hq level (by omega) hp
  · intro m hm q hq j
    apply hlink.other m (by omega) q hq
    rintro ⟨rfl, -⟩
    have := h.oneLevel q m (by omega) level (by omega) hq hp
    omega
  · intro q hq j _
    apply hlink.other 3 le_rfl q hq
    rintro ⟨rfl, -⟩
    have := h.oneLevel q 3 le_rfl level (by omega) hq hp
    omega
  · rw [hfr, hframes]
    exact List.suffix_cons f frames

/-- The entry of a table of the next level is made. -/
theorem Sound.settled (h : Sound tmpPaddr root t) (hp : TableOf root t.mem level p)
    (hlevel : level < 3) (hi : i < ptLength) (ht : t.settled flags p i = some t') :
    Visited tmpPaddr root level t t' ∧ present (t'.mem p i) = true ∧
      Vm.reflag (t'.mem p i) flags = t'.mem p i ∧
      TableOf root t'.mem (level + 1) (ptePaddr (t'.mem p i)) := by
  have hend : ∀ {t₁ : FlatState}, Visited tmpPaddr root level t t₁ →
      present (t₁.mem p i) = true → t' = t₁.set p i (Vm.reflag (t₁.mem p i) flags) →
      Visited tmpPaddr root level t t' ∧ present (t'.mem p i) = true ∧
        Vm.reflag (t'.mem p i) flags = t'.mem p i ∧
        TableOf root t'.mem (level + 1) (ptePaddr (t'.mem p i)) := by
    rintro t₁ hvis hpres rfl
    have hp₁ := hvis.table level (by omega) p hp
    have hre : Visited tmpPaddr root level t₁ (t₁.set p i (Vm.reflag (t₁.mem p i) flags)) :=
      hvis.sound.reflag hp₁ hlevel
    have hread : (t₁.set p i (Vm.reflag (t₁.mem p i) flags)).mem p i =
        Vm.reflag (t₁.mem p i) flags := by
      rw [FlatState.set_mem, Tables.set_apply, if_pos ⟨rfl, rfl⟩]
    have hpres' : present ((t₁.set p i (Vm.reflag (t₁.mem p i) flags)).mem p i) = true := by
      rw [hread, present_reflag]
      exact hpres
    refine ⟨hvis.trans hre (by omega), hpres', ?_, ?_⟩
    · rw [hread, reflag_reflag]
    · exact (hre.table level (by omega) p hp₁).step hi hpres'
  rw [FlatState.settled] at ht
  split at ht
  next hpres =>
    rw [Option.some.injEq] at ht
    exact hend (Visited.refl h) hpres ht.symm
  next habs =>
    split at ht
    next => cases ht
    next f frames hframes =>
      rw [Option.some.injEq] at ht
      have hf : f ∈ t.frames := by rw [hframes]; exact List.mem_cons_self
      have habs' : present (t.mem p i) = false := Bool.not_eq_true _ ▸ habs
      exact hend (h.link hframes hp hlevel habs') (h.links hf hp hlevel habs').linked ht.symm

/-- A visit keeps the tables in order. -/
theorem Sound.visit (h : Sound tmpPaddr root t) (hp : TableOf root t.mem level p)
    (hlen : level + path.length = 4) (hwidth : ∀ i ∈ path, i < ptLength)
    (ht : Vm.visit flags paddr path p t = some t') : Visited tmpPaddr root level t t' := by
  induction path generalizing level p t with
  | nil =>
    rw [Vm.visit, Option.some.injEq] at ht
    rw [← ht]
    exact Visited.refl h
  | cons i path ih =>
    rw [List.length_cons] at hlen
    by_cases hpath : path = []
    · subst hpath
      have hlevel : level = 3 := by simpa using hlen
      subst hlevel
      rw [Vm.visit, Option.some.injEq] at ht
      rw [← ht]
      split
      · exact Visited.refl h
      next habs => exact h.fill hp (Bool.not_eq_true _ ▸ habs) _
    · have hpos := List.length_pos_iff.mpr hpath
      rw [visit_cons hpath, Option.bind_eq_some_iff] at ht
      obtain ⟨t₁, hsettled, ht⟩ := ht
      obtain ⟨hvis, -, -, hnext⟩ := h.settled hp (by omega) (hwidth i List.mem_cons_self) hsettled
      apply hvis.trans _ (by omega)
      exact (ih hvis.sound hnext (by omega) (fun j hj => hwidth j (List.mem_cons_of_mem i hj))
        ht).mono (by omega)

/-- The paths of a list lead from a table of the given level to leaf tables. -/
def Reach (level : ℕ) (L : List (List ℕ)) : Prop :=
  ∀ path ∈ L, level + path.length = 4 ∧ ∀ i ∈ path, i < ptLength

theorem Sound.visitAll (h : Sound tmpPaddr root t) (hp : TableOf root t.mem level p)
    (hlevel : level ≤ 3) (hL : Reach level L) {r : PAddr × ℕ × FlatState}
    (ht : Vm.visitAll flags p L paddr pages t = some r) :
    Visited tmpPaddr root level t r.2.2 := by
  induction L generalizing paddr pages t with
  | nil =>
    rw [Vm.visitAll, Option.some.injEq] at ht
    rw [← ht]
    exact Visited.refl h
  | cons path L ih =>
    have hpath := hL path List.mem_cons_self
    have hrest : Reach level L := fun path' hpath' => hL path' (List.mem_cons_of_mem path hpath')
    rw [Vm.visitAll] at ht
    split at ht
    next =>
      rw [Option.some.injEq] at ht
      rw [← ht]
      exact Visited.refl h
    next =>
      obtain ⟨t₁, hvisit, ht⟩ := Option.bind_eq_some_iff.mp ht
      have hvis := h.visit hp hpath.1 hpath.2 hvisit
      have hp₁ := hvis.table level hlevel p hp
      apply hvis.trans _ (by omega)
      split at ht
      · exact ih hvis.sound hp₁ hrest ht
      · exact ih hvis.sound hp₁ hrest ht

/-! ## Visits below one entry -/

/-- An entry that has its permissions is left alone. -/
theorem settled_self (hpres : present (t.mem p i) = true)
    (hre : Vm.reflag (t.mem p i) flags = t.mem p i) : t.settled flags p i = some t := by
  rw [FlatState.settled, if_pos hpres, hre]
  have hmem : t.mem.set p i (t.mem p i) = t.mem := by
    rw [Tables.set, Function.update_eq_self, Function.update_eq_self]
  rw [FlatState.set, hmem]

/-- Nothing is mapped below an empty table. -/
theorem mapped_empty {mem : Tables} (h : ∀ j, present (mem p j) = false) :
    mapped mem p path = false := by
  have habs : ∀ j, ¬ pageTables.present (mem p j) = true := fun j => by
    rw [show pageTables.present (mem p j) = false from h j]
    exact Bool.false_ne_true
  cases path with
  | nil => rfl
  | cons j path =>
    rw [mapped]
    by_cases hpath : path = []
    · subst hpath
      show (pageTables.entry mem (p, j)).isSome = false
      rw [Radix.entry, if_neg (habs j)]
      rfl
    · rw [Radix.leaf_cons hpath, if_neg (habs j)]
      rfl

/-- The same paths below an entry are mapped when the entry is made. -/
theorem mapped_settled (h : Sound tmpPaddr root t) (hp : TableOf root t.mem level p)
    (hlevel : level < 3) (hpath : path ≠ []) (ht : t.settled flags p i = some t') :
    mapped t'.mem p (i :: path) = mapped t.mem p (i :: path) := by
  have hre : ∀ t₁ : FlatState,
      mapped (t₁.set p i (Vm.reflag (t₁.mem p i) flags)).mem p (i :: path) =
        mapped t₁.mem p (i :: path) := by
    intro t₁
    have hfl : Flagged flags _ _ t₁.mem (t₁.mem.set p i (Vm.reflag (t₁.mem p i) flags)) :=
      Flagged.reflag t₁.mem p i
    exact hfl.sameShape.isSome_leaf p (i :: path)
  rw [FlatState.settled] at ht
  split at ht
  next =>
    rw [Option.some.injEq] at ht
    rw [← ht]
    exact hre t
  next habs =>
    have habs' : present (t.mem p i) = false := Bool.not_eq_true _ ▸ habs
    split at ht
    next => cases ht
    next f frames hframes =>
      rw [Option.some.injEq] at ht
      have hlink := h.links (f := f) (by rw [hframes]; exact List.mem_cons_self) hp hlevel habs'
      have htarget : ptePaddr ((t.created p i f).mem p i) = f := hlink.target
      rw [← ht, hre, mapped_cons hlink.linked hpath, htarget, mapped_empty hlink.empty, mapped,
        Radix.leaf_cons hpath, if_neg (show ¬ pageTables.present _ = true from habs)]
      rfl

theorem visitAll_settled (h : Sound tmpPaddr root t) (hp : TableOf root t.mem level p)
    (hlevel : level < 3) (hi : i < ptLength) (hL : Reach (level + 1) L) {e : Pte}
    (he : t.mem p i = e) (hpres : present e = true) (hre : Vm.reflag e flags = e) :
    Vm.visitAll flags p (L.map (i :: ·)) paddr pages t =
      Vm.visitAll flags (ptePaddr e) L paddr pages t := by
  induction L generalizing paddr pages t with
  | nil => rfl
  | cons path L ih =>
    obtain ⟨hlen, hwidth⟩ := hL path List.mem_cons_self
    have hpath : path ≠ [] := by
      rintro rfl
      rw [List.length_nil] at hlen
      omega
    have hself : t.settled flags p i = some t :=
      settled_self (by rw [he]; exact hpres) (by rw [he]; exact hre)
    have hmapped : mapped t.mem p (i :: path) = mapped t.mem (ptePaddr e) path := by
      rw [mapped_cons (by rw [he]; exact hpres) hpath, he]
    have hnext : TableOf root t.mem (level + 1) (ptePaddr e) := by
      rw [← he]
      exact hp.step hi (by rw [he]; exact hpres)
    rw [List.map_cons, Vm.visitAll, Vm.visitAll, visit_cons hpath, hself, Option.bind_some, he,
      hmapped]
    split
    next => rfl
    next =>
      cases hv : Vm.visit flags paddr path (ptePaddr e) t with
      | none => rfl
      | some t' =>
        have hvis := h.visit hnext hlen hwidth hv
        -- the entry is above what was visited
        have he' : t'.mem p i = e := (hvis.above level (by omega) p hp i).trans he
        have ih' : ∀ paddr pages, Vm.visitAll flags p (L.map (i :: ·)) paddr pages t' =
            Vm.visitAll flags (ptePaddr e) L paddr pages t' := fun paddr pages =>
          ih hvis.sound (hvis.table level (by omega) p hp)
            (fun path' hpath' => hL path' (List.mem_cons_of_mem path hpath')) he'
        show (if _ then _ else _) = if _ then _ else _
        rw [ih', ih']

/-- **The entry above a list of paths is made once.** -/
theorem visitAll_below (h : Sound tmpPaddr root t) (hp : TableOf root t.mem level p)
    (hlevel : level < 3) (hi : i < ptLength) (hL : Reach (level + 1) L) (hne : L ≠ [])
    (hpages : pages ≠ 0) :
    Vm.visitAll flags p (L.map (i :: ·)) paddr pages t =
      (t.settled flags p i).bind fun t =>
        Vm.visitAll flags (ptePaddr (t.mem p i)) L paddr pages t := by
  obtain ⟨path, L, rfl⟩ := List.exists_cons_of_ne_nil hne
  have hpath : path ≠ [] := by
    rintro rfl
    have hlen := (hL [] List.mem_cons_self).1
    rw [List.length_nil] at hlen
    omega
  cases hs : t.settled flags p i with
  | none => rw [List.map_cons, Vm.visitAll, if_neg hpages, visit_cons hpath, hs]; rfl
  | some t₁ =>
    obtain ⟨hvis, hpres, hre, -⟩ := h.settled hp hlevel hi hs
    have hp₁ := hvis.table level (by omega) p hp
    rw [Option.bind_some, ← visitAll_settled hvis.sound hp₁ hlevel hi hL rfl hpres hre,
      List.map_cons, Vm.visitAll, Vm.visitAll, if_neg hpages, if_neg hpages, visit_cons hpath,
      visit_cons hpath, hs, settled_self hpres hre, Option.bind_some,
      mapped_settled h hp hlevel hpath hs]

/-! ## The recursion -/

/-- The fault of `pm_request_page` when there is no frame. -/
def swapped : Fault := .assertion "0 && \"unimplemented: \" \"swapping\""

/-- A part of the recursion does what the visits do. -/
def RanAs (x : Except Fault ((Status × MapVars) × FlatState)) :
    Option (PAddr × ℕ × FlatState) → Prop
  | none => x = .error swapped
  | some (paddr, pages, t) => ∃ i, x = .ok ((success, { i, paddr, pages }), t)

/-- A round of `recurse_map` on the table `p`, whose entries have the paths `below`. -/
structure MapRound
    (body : MapVars → Prog Fault FlatState (FaultState.Flow MapVars (Status × MapVars)))
    (flags : Flags) (p : PAddr) (below : List (List ℕ)) (v : MapVars) (t : FlatState) : Prop where
  stop : ¬ (v.i < ptLength ∧ 0 < v.pages) → body v t = .ok (.done (success, v), t)
  none : v.i < ptLength → 0 < v.pages →
    Vm.visitAll flags p (below.map (v.i :: ·)) v.paddr v.pages t = none → body v t = .error swapped
  some : v.i < ptLength → 0 < v.pages → ∀ paddr pages t',
    Vm.visitAll flags p (below.map (v.i :: ·)) v.paddr v.pages t = some (paddr, pages, t') →
    body v t = .ok (.next { i := v.i + 1, paddr, pages }, t')

/-- The loop goes through the box, entry by entry. -/
theorem map_rounds
    {body : MapVars → Prog Fault FlatState (FaultState.Flow MapVars (Status × MapVars))}
    {below : List (List ℕ)} (hlevel : level ≤ 3) (hbelow : Reach (level + 1) below)
    (hbody : ∀ v t, Sound tmpPaddr root t → TableOf root t.mem level p →
      MapRound body flags p below v t)
    (h : Sound tmpPaddr root t) (hp : TableOf root t.mem level p) (hn : 512 ≤ n + i) :
    RanAs (rounds body (fun v => return (success, v)) n { i, paddr, pages } t)
      (Vm.visitAll flags p (Radix.boxFrom 512 below i) paddr pages t) := by
  induction n generalizing i paddr pages t with
  | zero =>
    rw [Radix.boxFrom_of_le (by omega)]
    exact ⟨i, rfl⟩
  | succ n ih =>
    have hround := hbody { i, paddr, pages } t h hp
    by_cases hgo : i < 512 ∧ 0 < pages
    · rw [Radix.boxFrom_of_lt hgo.1, visitAll_append]
      cases hv : Vm.visitAll flags p (below.map (i :: ·)) paddr pages t with
      | none => exact bind_eq_error (hround.none hgo.1 hgo.2 hv) _
      | some r =>
        obtain ⟨paddr', pages', t'⟩ := r
        have hreach : Reach level (below.map (i :: ·)) := by
          intro path hpath
          obtain ⟨rest, hrest, rfl⟩ := List.mem_map.mp hpath
          obtain ⟨hlen, hwidth⟩ := hbelow rest hrest
          rw [List.length_cons]
          refine ⟨by omega, fun j hj => ?_⟩
          rcases List.mem_cons.mp hj with rfl | hj
          · exact hgo.1
          · exact hwidth j hj
        have hvis := h.visitAll hp hlevel hreach hv
        rw [rounds_of_next (hround.some hgo.1 hgo.2 paddr' pages' t' hv)]
        exact ih hvis.sound (hvis.table level hlevel p hp) (show 512 ≤ n + (i + 1) by omega)
    · rw [rounds_of_done (hround.stop hgo)]
      rw [not_and_or] at hgo
      rcases hgo with hi | hpages
      · rw [Radix.boxFrom_of_le (by omega)]
        exact ⟨i, rfl⟩
      · obtain rfl : pages = 0 := by omega
        rw [visitAll_zero]
        exact ⟨i, rfl⟩

/-- A round on a leaf table. -/
theorem mapLeaf_round (v : MapVars) (t : FlatState) :
    MapRound (mapLeaf (flat tmpPaddr) flags p) flags p [[]] v t where
  stop h := by rw [mapLeaf, if_neg h]; rfl
  none hi hpages hv := by
    rw [List.map_cons, List.map_nil, Vm.visitAll, if_neg (by omega)] at hv
    split at hv <;> cases hv
  some hi hpages paddr pages t' hv := by
    have hmapped : mapped t.mem p [v.i] = present (t.mem p v.i) := by
      show (pageTables.entry t.mem (p, v.i)).isSome = present (t.mem p v.i)
      rw [Radix.entry]
      show (if present (t.mem p v.i) = true then _ else _ : Option Pte).isSome = _
      split
      next hpres => exact hpres.symm
      next habs => exact (Bool.not_eq_true _ ▸ habs : present (t.mem p v.i) = false).symm
    rw [List.map_cons, List.map_nil, Vm.visitAll, if_neg (by omega), hmapped] at hv
    rw [mapLeaf, if_pos ⟨hi, hpages⟩]
    replace hv : (if present (t.mem p v.i) = true then
          some (v.paddr, v.pages, if present (t.mem p v.i) = true then t else
            t.set p v.i (setPte v.paddr flags))
        else some (v.paddr + 4096#64, v.pages - 1, if present (t.mem p v.i) = true then t else
            t.set p v.i (setPte v.paddr flags))) = Option.some (paddr, pages, t') := hv
    show (if present (t.mem p v.i) = true then _ else _ : Prog Fault FlatState _) t = _
    by_cases hpres : present (t.mem p v.i) = true
    · rw [if_pos hpres, if_pos hpres] at hv
      rw [if_pos hpres]
      cases hv
      rfl
    · rw [if_neg hpres, if_neg hpres, Option.some.injEq, Prod.mk.injEq, Prod.mk.injEq] at hv
      rw [if_neg hpres, ← hv.1, ← hv.2.1, ← hv.2.2]
      rfl

/-- A table of the level below is found or made, and its entry gets the permissions. -/
theorem openTable_eq {α : Type} (h : Sound tmpPaddr root t) (hp : TableOf root t.mem level p)
    (hlevel : level < 3) (hi : i < ptLength) (k : PAddr → Prog Fault FlatState α) :
    ((if present (t.mem p i) then (flat tmpPaddr).mapPageTmp (ptePaddr (t.mem p i)) vmFlagWritable
        else createPt (flat tmpPaddr) p i) >>= fun q =>
      updatePtPteFlags (flat tmpPaddr) p i flags >>= fun _ => k q) t =
      match t.settled flags p i with
      | none => .error swapped
      | some t' => k (ptePaddr (t'.mem p i)) t' := by
  have hupdate : ∀ (t₁ : FlatState) (q : PAddr), ptePaddr (t₁.mem p i) = q →
      (updatePtPteFlags (flat tmpPaddr) p i flags >>= fun _ => k q) t₁ =
        k (ptePaddr ((t₁.set p i (Vm.reflag (t₁.mem p i) flags)).mem p i))
          (t₁.set p i (Vm.reflag (t₁.mem p i) flags)) := by
    intro t₁ q hq
    have hread : (t₁.set p i (Vm.reflag (t₁.mem p i) flags)).mem p i =
        Vm.reflag (t₁.mem p i) flags := by
      rw [FlatState.set_mem, Tables.set_apply, if_pos ⟨rfl, rfl⟩]
    rw [hread, ptePaddr_reflag, hq]
    rfl
  rw [FlatState.settled]
  by_cases hpres : present (t.mem p i) = true
  · have hne : ptePaddr (ptePaddr (t.mem p i)) ≠ tmpPaddr := by
      rw [ptePaddr_ptePaddr]
      intro heq
      exact h.avoids (level + 1) (by omega) (heq ▸ hp.step hi hpres)
    rw [if_pos hpres, if_pos hpres]
    have hmap : (flat tmpPaddr).mapPageTmp (ptePaddr (t.mem p i)) vmFlagWritable t =
        .ok (ptePaddr (t.mem p i), t) := by
      show (if _ then _ else _ : Prog Fault FlatState PAddr) t = _
      rw [if_neg hne, ptePaddr_ptePaddr]
      rfl
    rw [bind_eq_of_ok hmap]
    exact hupdate t _ rfl
  · rw [if_neg hpres, if_neg hpres]
    cases hframes : t.frames with
    | nil =>
      have hfail : createPt (flat tmpPaddr) p i t = .error swapped := by
        apply bind_eq_error
        show (match t.frames with
          | [] => Except.error swapped
          | paddr :: frames => .ok (paddr, { t with frames })) = _
        rw [hframes]
      exact bind_eq_error hfail _
    | cons f frames =>
      have hf : f ∈ t.frames := by rw [hframes]; exact List.mem_cons_self
      have hal : ptePaddr f = f := h.aligned f hf
      have hne : f ≠ tmpPaddr := fun heq => h.noTmp (heq ▸ hf)
      have hmade := flat_createPt_eq hframes (by rw [hal]; exact hne) p i
      rw [hal] at hmade
      rw [bind_eq_of_ok hmade]
      apply hupdate
      have htarget : ptePaddr ((t.created p i f).mem p i) = f :=
        (h.links hf hp hlevel (Bool.not_eq_true _ ▸ hpres)).target
      exact htarget

/-- A round above the leaf tables. -/
theorem mapInner_round {child : PAddr → PAddr → ℕ → Prog Fault FlatState (Status × MapVars)}
    {below : List (List ℕ)} (hlevel : level < 3) (hbelow : Reach (level + 1) below)
    (hne : below ≠ [])
    (hchild : ∀ q paddr pages t, Sound tmpPaddr root t → TableOf root t.mem (level + 1) q →
      RanAs (child q paddr pages t) (Vm.visitAll flags q below paddr pages t))
    (v : MapVars) (t : FlatState) (h : Sound tmpPaddr root t) (hp : TableOf root t.mem level p) :
    MapRound (mapInner (flat tmpPaddr) child flags p) flags p below v t where
  stop h := by rw [mapInner, if_neg h]; rfl
  none hi hpages hv := by
    rw [visitAll_below h hp hlevel hi hbelow hne (by omega)] at hv
    have hread : (flat tmpPaddr).read p v.i t = .ok (t.mem p v.i, t) := rfl
    rw [mapInner, if_pos ⟨hi, hpages⟩, bind_eq_of_ok hread]
    refine (openTable_eq h hp hlevel hi _).trans ?_
    cases hs : t.settled flags p v.i with
    | none => rfl
    | some t₁ =>
      rw [hs, Option.bind_some] at hv
      obtain ⟨hvis, -, -, hnext⟩ := h.settled hp hlevel hi hs
      have hran := hchild _ v.paddr v.pages t₁ hvis.sound hnext
      rw [hv] at hran
      exact bind_eq_error hran _
  some hi hpages paddr pages t' hv := by
    rw [visitAll_below h hp hlevel hi hbelow hne (by omega)] at hv
    have hread : (flat tmpPaddr).read p v.i t = .ok (t.mem p v.i, t) := rfl
    rw [mapInner, if_pos ⟨hi, hpages⟩, bind_eq_of_ok hread]
    refine (openTable_eq h hp hlevel hi _).trans ?_
    cases hs : t.settled flags p v.i with
    | none => rw [hs] at hv; cases hv
    | some t₁ =>
      rw [hs, Option.bind_some] at hv
      obtain ⟨hvis, -, -, hnext⟩ := h.settled hp hlevel hi hs
      have hran := hchild _ v.paddr v.pages t₁ hvis.sound hnext
      rw [hv] at hran
      obtain ⟨j, hran⟩ := hran
      refine (bind_eq_of_ok hran _).trans ?_
      rfl

/-- **What `recurse_map` does**: it visits the box, in order. -/
theorem recurseMap_eq (flags : Flags) (height : ℕ) (hheight : height ≤ 3) (index : List ℕ)
    (hlen : index.length = height + 1) (hidx : ∀ i ∈ index, i < ptLength) (p paddr : PAddr)
    (pages : ℕ) (t : FlatState) (h : Sound tmpPaddr root t)
    (hp : TableOf root t.mem (3 - height) p) :
    RanAs (recurseMap (flat tmpPaddr) flags height index p paddr pages t)
      (Vm.visitAll flags p (Radix.box 512 index) paddr pages t) := by
  induction height generalizing index p paddr pages t with
  | zero =>
    obtain ⟨i, rfl⟩ := List.length_eq_one_iff.mp hlen
    apply map_rounds le_rfl _ (fun v t _ _ => mapLeaf_round v t) h hp (by rw [ptLength]; omega)
    intro path hpath
    rw [List.mem_singleton.mp hpath]
    exact ⟨rfl, fun _ hi => absurd hi List.not_mem_nil⟩
  | succ height ih =>
    obtain ⟨i, index, rfl⟩ := List.exists_cons_of_length_eq_add_one hlen
    have hlen' : index.length = height + 1 := by simpa using hlen
    have hidx' : ∀ j ∈ index, j < ptLength := fun j hj => hidx j (List.mem_cons_of_mem i hj)
    have hbelow : Reach (3 - (height + 1) + 1) (Radix.box 512 index) := by
      intro path hpath
      obtain ⟨hpathlen, hwidth⟩ := Radix.of_mem_box hpath
      exact ⟨by omega, hwidth⟩
    apply map_rounds (by omega) hbelow _ h hp (by rw [ptLength]; omega)
    intro v t h hp
    apply mapInner_round (by omega) hbelow _ _ v t h hp
    · exact List.ne_nil_of_mem (Radix.self_mem_box hidx')
    · intro q paddr pages t h hq
      rw [show 3 - (height + 1) + 1 = 3 - height by omega] at hq
      exact ih (by omega) index hlen' hidx' q paddr pages t h hq

end Mimik.Vm
