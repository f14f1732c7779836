/-
# What mapping does to the address space

The visits of `recurse_map` change tables in three ways: they rewrite the permissions of
an entry above the leaf tables, they link a new table, and they fill a leaf entry.  The
first two change no leaf (`Extended`), and all of them keep together the paths that have
one place; so a visit of a path that is not mapped maps the paths with the same place, and
nothing else (`Sound.visit_effect`).

So `recurse_map` hands out page frames, in order, to the paths that are not mapped, where
paths with one place are mapped together (`Handout`, `Sound.visitAll_effect`).
-/
import Mimik.Handout
import Mimik.VmVisit

namespace Mimik.Vm

/-- A path from a table to a leaf entry. -/
def PathFrom (root : PAddr) (mem : Tables) (q : PAddr) (path : List ℕ) : Prop :=
  ∃ n ≤ 3, TableOf root mem n q ∧ n + path.length = 4 ∧ ∀ i ∈ path, i < ptLength

/-- The paths with one place stay together, and no others join them. -/
def SamePlaces (root : PAddr) (mem mem' : Tables) : Prop :=
  ∀ q path r path', PathFrom root mem q path → PathFrom root mem r path' →
    (pageTables.place mem' q path = pageTables.place mem' r path' ↔
      pageTables.place mem q path = pageTables.place mem r path')

/-- What mapping does to the tables but for the leaf entries it fills. -/
structure Extended (flags : Flags) (root : PAddr) (mem mem' : Tables) : Prop where
  places : SamePlaces root mem mem'
  inner : ∀ n < 3, ∀ q, TableOf root mem n q → ∀ i, present (mem q i) = true →
    mem' q i = mem q i ∨ mem' q i = reflag (mem q i) flags
  back : ∀ n q path, n + path.length ≤ 4 → TableOf root mem n q → (∀ i ∈ path, i < ptLength) →
    ∀ slot ∈ pageTables.slots mem' q path, ∀ m ≤ 3, TableOf root mem m slot.1 →
      slot ∈ pageTables.slots mem q path

/-- No leaf changes. -/
def SameLeaves (root : PAddr) (mem mem' : Tables) : Prop :=
  ∀ q path, PathFrom root mem q path →
    pageTables.leaf mem' q path = pageTables.leaf mem q path

variable {flags : Flags} {paddr p q root tmpPaddr f : PAddr} {i pages level n : ℕ}
  {path : List ℕ} {L L₁ : List (List ℕ)} {t t' t₁ t₂ : FlatState} {mem mem' mem'' : Tables}

theorem pathFrom_root (hlen : path.length = 4) (hwidth : ∀ i ∈ path, i < ptLength) :
    PathFrom root mem root path :=
  ⟨0, Nat.zero_le _, .root, by rw [hlen], hwidth⟩

theorem PathFrom.mono (h : PathFrom root mem q path)
    (htable : ∀ n ≤ 3, ∀ q, TableOf root mem n q → TableOf root mem' n q) :
    PathFrom root mem' q path := by
  obtain ⟨n, hn, hq, hlen, hwidth⟩ := h
  exact ⟨n, hn, htable n hn q hq, hlen, hwidth⟩

theorem Extended.refl (flags : Flags) (root : PAddr) (mem : Tables) :
    Extended flags root mem mem :=
  ⟨fun _ _ _ _ _ _ => Iff.rfl, fun _ _ _ _ _ _ => .inl rfl, fun _ _ _ _ _ _ _ h _ _ _ => h⟩

theorem Extended.trans (h : Extended flags root mem mem') (h' : Extended flags root mem' mem'')
    (htable : ∀ n ≤ 3, ∀ q, TableOf root mem n q → TableOf root mem' n q) :
    Extended flags root mem mem'' where
  places q path r path' hq hr :=
    (h'.places q path r path' (hq.mono htable) (hr.mono htable)).trans
    (h.places q path r path' hq hr)
  inner n hn q hq i hpres := by
    rcases h.inner n hn q hq i hpres with heq | heq
    · have hnext := h'.inner n hn q (htable n (by omega) q hq) i (by rw [heq]; exact hpres)
      rw [heq] at hnext
      exact hnext
    · have hnext := h'.inner n hn q (htable n (by omega) q hq) i
        (by rw [heq, present_reflag]; exact hpres)
      rw [heq, reflag_reflag] at hnext
      rcases hnext with hnext | hnext <;> exact .inr hnext
  back n q path hlen hq hwidth slot hslot m hm hat := by
    by_cases hn : n ≤ 3
    · exact h.back n q path hlen hq hwidth slot
        (h'.back n q path hlen (htable n hn q hq) hwidth slot hslot m hm (htable m hm _ hat))
        m hm hat
    · obtain rfl : path = [] := List.length_eq_zero_iff.mp (by omega)
      cases hslot

/-! ## The three kinds of stores -/

/-- The rewriting of the permissions of an entry above the leaf tables. -/
theorem Sound.reflag_extended (h : Sound tmpPaddr root t) (hp : TableOf root t.mem level p)
    (hlevel : level < 3) :
    Extended flags root t.mem (t.set p i (Vm.reflag (t.mem p i) flags)).mem ∧
      SameLeaves root t.mem (t.set p i (Vm.reflag (t.mem p i) flags)).mem := by
  have hfl : Flagged flags _ _ t.mem (t.mem.set p i (Vm.reflag (t.mem p i) flags)) :=
    Flagged.reflag t.mem p i
  have hshape := hfl.sameShape
  have hupper : ∀ n < 3, ∀ q, TableOf root t.mem n q → ∀ j < ptLength,
      pageTables.present (t.mem.set p i (Vm.reflag (t.mem p i) flags) q j) =
          pageTables.present (t.mem q j) ∧
        (pageTables.present (t.mem q j) = true →
          pageTables.next (t.mem.set p i (Vm.reflag (t.mem p i) flags) q j) =
            pageTables.next (t.mem q j)) :=
    fun _ _ q _ j _ => ⟨(hshape q j).1, fun _ => (hshape q j).2⟩
  refine ⟨⟨?_, ?_, ?_⟩, ?_⟩
  · rintro q path r path' ⟨n, -, hq, hlen, hwidth⟩ ⟨m, -, hr, hlen', hwidth'⟩
    rw [FlatState.set_mem, Radix.place_congr hupper hq hlen hwidth,
      Radix.place_congr hupper hr hlen' hwidth']
  · intro n _ q _ j _
    rw [FlatState.set_mem, Tables.set_apply]
    split
    next heq => rw [heq.1, heq.2]; exact .inr rfl
    next => exact .inl rfl
  · intro n q path hlen hq hwidth slot hslot _ _ _
    rwa [FlatState.set_mem, Radix.slots_upper hupper hq hlen hwidth] at hslot
  · rintro q path ⟨n, -, hq, hlen, hwidth⟩
    apply Radix.leaf_upper hupper _ hq hlen hwidth
    intro r hr j
    rw [Tables.set_apply, if_neg]
    rintro ⟨rfl, -⟩
    have := h.oneLevel r level (by omega) 3 le_rfl hp hr
    omega

/-- The link of a new table. -/
theorem Sound.link_extended (h : Sound tmpPaddr root t) (hf : f ∈ t.frames)
    (hp : TableOf root t.mem level p) (hlevel : level < 3) (habs : present (t.mem p i) = false) :
    Extended flags root t.mem (t.created p i f).mem ∧
      SameLeaves root t.mem (t.created p i f).mem := by
  have hlink := h.links hf hp hlevel habs
  have hlast : ¬ TableOf root t.mem 3 p := by
    intro hp3
    have := h.oneLevel p level (by omega) 3 le_rfl hp hp3
    omega
  refine ⟨⟨?_, ?_, ?_⟩, ?_⟩
  · rintro q path r path' ⟨n, hn, hq, hlen, hwidth⟩ ⟨m, hm, hr, hlen', hwidth'⟩
    exact Radix.place_eq_link hlink hlast hn hq hlen hwidth hm hr hlen' hwidth'
  · intro n hn q hq j hpres
    refine .inl (hlink.other n (by omega) q hq j ?_)
    rintro ⟨rfl, rfl⟩
    rw [habs] at hpres
    cases hpres
  · intro n q path hlen hq hwidth slot hslot m hm hat
    rcases hlink.slots hq hlen hwidth hslot with heq | hold
    · exact absurd (heq ▸ hat) (h.noTable f hf m hm)
    · exact hold
  · rintro q path ⟨n, hn, hq, hlen, hwidth⟩
    exact Radix.leaf_link hlink hlast hn hq hlen hwidth

/-- The filling of a leaf entry. -/
theorem Sound.fill_extended (h : Sound tmpPaddr root t) (hp : TableOf root t.mem 3 p) {e : Pte}
    (he : present e = true) :
    Extended flags root t.mem (t.set p i e).mem ∧
      ∀ q path, PathFrom root t.mem q path → pageTables.leaf (t.set p i e).mem q path =
        if pageTables.place t.mem q path = (p, [i]) then some e
        else pageTables.leaf t.mem q path := by
  have hother : ∀ m < 3, ∀ q, TableOf root t.mem m q → ∀ j, (t.set p i e).mem q j = t.mem q j := by
    intro m hm q hq j
    rw [FlatState.set_mem, Tables.set_apply, if_neg]
    rintro ⟨rfl, -⟩
    have := h.oneLevel q m (by omega) 3 le_rfl hq hp
    omega
  have hupper : ∀ n < 3, ∀ q, TableOf root t.mem n q → ∀ j < ptLength,
      pageTables.present ((t.set p i e).mem q j) = pageTables.present (t.mem q j) ∧
        (pageTables.present (t.mem q j) = true →
          pageTables.next ((t.set p i e).mem q j) = pageTables.next (t.mem q j)) := by
    intro n hn q hq j _
    rw [hother n hn q hq j]
    exact ⟨rfl, fun _ => rfl⟩
  refine ⟨⟨?_, ?_, ?_⟩, ?_⟩
  · rintro q path r path' ⟨n, -, hq, hlen, hwidth⟩ ⟨m, -, hr, hlen', hwidth'⟩
    rw [Radix.place_congr hupper hq hlen hwidth, Radix.place_congr hupper hr hlen' hwidth']
  · exact fun n hn q hq j _ => .inl (hother n hn q hq j)
  · intro n q path hlen hq hwidth slot hslot _ _ _
    rwa [Radix.slots_upper hupper hq hlen hwidth] at hslot
  · rintro q path ⟨n, -, hq, hlen, hwidth⟩
    refine Radix.leaf_fill hupper he ?_ ?_ hq hlen hwidth
    · rw [FlatState.set_mem, Tables.set_apply, if_pos ⟨rfl, rfl⟩]
    · intro r j hne
      rw [FlatState.set_mem, Tables.set_apply, if_neg hne]

/-! ## A visit -/

/-- An entry above the leaf tables is made, and gets the permissions. -/
theorem Sound.settled_extended (h : Sound tmpPaddr root t) (hp : TableOf root t.mem level p)
    (hlevel : level < 3) (ht : t.settled flags p i = some t') :
    Extended flags root t.mem t'.mem ∧ SameLeaves root t.mem t'.mem := by
  rw [FlatState.settled] at ht
  split at ht
  next =>
    rw [Option.some.injEq] at ht
    rw [← ht]
    exact h.reflag_extended hp hlevel
  next habs =>
    split at ht
    next => cases ht
    next f frames hframes =>
      rw [Option.some.injEq] at ht
      have hf : f ∈ t.frames := by rw [hframes]; exact List.mem_cons_self
      have habs' : present (t.mem p i) = false := Bool.not_eq_true _ ▸ habs
      have hvis := h.link hframes hp hlevel habs'
      obtain ⟨hlink, hleaf⟩ : Extended flags root t.mem (t.created p i f).mem ∧ _ :=
        h.link_extended hf hp hlevel habs'
      obtain ⟨hre, hleaf'⟩ : Extended flags root (t.created p i f).mem _ ∧ _ :=
        hvis.sound.reflag_extended (i := i) (hvis.table level (by omega : level ≤ 3) p hp) hlevel
      rw [← ht]
      refine ⟨hlink.trans hre hvis.table, fun q path hq => ?_⟩
      exact (hleaf' q path (hq.mono hvis.table)).trans (hleaf q path hq)

/-- All entries on a path above the leaf tables have the permissions. -/
def Given (flags : Flags) (mem : Tables) (p : PAddr) (u : List ℕ) : Prop :=
  ∀ slot ∈ pageTables.slots mem p u,
    present (mem slot.1 slot.2) = true ∧ reflag (mem slot.1 slot.2) flags = mem slot.1 slot.2

/-- Such entries stay as they are. -/
theorem Given.extended (h : Given flags mem p u) (hext : Extended flags root mem mem')
    (hp : TableOf root mem level p) (hlen : level + u.length ≤ 3) (hwidth : ∀ i ∈ u, i < ptLength) :
    pageTables.slots mem' p u = pageTables.slots mem p u ∧ Given flags mem' p u := by
  have hsame : ∀ slot ∈ pageTables.slots mem p u, mem' slot.1 slot.2 = mem slot.1 slot.2 := by
    intro slot hslot
    obtain ⟨m, -, hm, hat, -⟩ := Radix.At.slots hp hwidth hslot
    obtain ⟨hpres, hre⟩ := h slot hslot
    rcases hext.inner m (by omega) slot.1 hat slot.2 hpres with heq | heq
    · exact heq
    · rw [heq, hre]
  obtain ⟨hslots, -⟩ := Radix.leaf_congr hsame
  refine ⟨hslots, ?_⟩
  intro slot hslot
  rw [hslots] at hslot
  rw [hsame slot hslot]
  exact h slot hslot

/-- All entries above the leaf tables on the way of a path have the permissions. -/
def AllSet (flags : Flags) (mem : Tables) (p : PAddr) (path : List ℕ) : Prop :=
  ∀ slot ∈ pageTables.slots mem p path.dropLast,
    present (mem slot.1 slot.2) = true ∧ reflag (mem slot.1 slot.2) flags = mem slot.1 slot.2

theorem AllSet.extended (h : AllSet flags mem p path) (hext : Extended flags root mem mem')
    (hp : TableOf root mem level p) (hlen : level + path.length = 4)
    (hwidth : ∀ i ∈ path, i < ptLength) :
    pageTables.slots mem' p path.dropLast = pageTables.slots mem p path.dropLast ∧
      AllSet flags mem' p path := by
  cases path with
  | nil => exact ⟨rfl, fun slot hslot => absurd hslot List.not_mem_nil⟩
  | cons i rest =>
    rw [List.length_cons] at hlen
    have hgiven : Given flags mem p (i :: rest).dropLast := h
    refine hgiven.extended hext hp ?_ fun j hj => hwidth j (List.mem_of_mem_dropLast hj)
    rw [List.length_dropLast, List.length_cons]
    omega

/-- What the visit of a path does. -/
structure VisitEffect (flags : Flags) (root paddr p : PAddr) (path : List ℕ) (mem mem' : Tables) :
    Prop where
  extended : Extended flags root mem mem'
  leaf : ∀ q u, PathFrom root mem q u → pageTables.leaf mem' q u =
    if mapped mem p path = false ∧ pageTables.place mem q u = pageTables.place mem p path then
      some (setPte paddr flags)
    else pageTables.leaf mem q u
  allSet : AllSet flags mem' p path
  changed : ∀ n < 3, ∀ q, TableOf root mem n q → ∀ i, present (mem q i) = true →
    mem' q i ≠ mem q i → (q, i) ∈ pageTables.slots mem p path.dropLast

/-- The tables but for the entry and the new table stay. -/
theorem Sound.settled_other (h : Sound tmpPaddr root t) (hp : TableOf root t.mem level p)
    (hlevel : level < 3) (ht : t.settled flags p i = some t') (hn : n ≤ 3)
    (hq : TableOf root t.mem n q) {j : ℕ} (hne : ¬ (q = p ∧ j = i)) : t'.mem q j = t.mem q j := by
  rw [FlatState.settled] at ht
  split at ht
  next =>
    rw [Option.some.injEq] at ht
    rw [← ht, FlatState.set_mem, Tables.set_apply, if_neg hne]
  next habs =>
    split at ht
    next => cases ht
    next f frames hframes =>
      rw [Option.some.injEq] at ht
      have hf : f ∈ t.frames := by rw [hframes]; exact List.mem_cons_self
      have hlink := h.links hf hp hlevel (Bool.not_eq_true _ ▸ habs)
      rw [← ht, FlatState.set_mem, Tables.set_apply, if_neg hne]
      exact hlink.other n hn q hq j hne

theorem mapped_singleton : mapped mem p [i] = present (mem p i) := by
  show (pageTables.entry mem (p, i)).isSome = present (mem p i)
  rw [Radix.entry]
  show (if present (mem p i) = true then _ else _ : Option Pte).isSome = _
  split
  next hpres => exact hpres.symm
  next habs => exact (Bool.not_eq_true _ ▸ habs : present (mem p i) = false).symm

/-- The visit of a leaf entry. -/
theorem Sound.visit_leaf (h : Sound tmpPaddr root t) (hp : TableOf root t.mem 3 p) :
    VisitEffect flags root paddr p [i] t.mem
      (if present (t.mem p i) then t else t.set p i (setPte paddr flags)).mem := by
  have hset : ∀ mem : Tables, AllSet flags mem p [i] := fun _ slot hslot =>
    absurd hslot List.not_mem_nil
  split
  next hpres =>
    refine ⟨Extended.refl flags root t.mem, fun q u _ => ?_, hset _, fun _ _ _ _ _ _ hne => ?_⟩
    · rw [if_neg]
      rintro ⟨habs, -⟩
      rw [mapped_singleton, hpres] at habs
      cases habs
    · exact absurd rfl hne
  next habs =>
    have hfill : Extended flags root t.mem (t.set p i (setPte paddr flags)).mem ∧ _ :=
      h.fill_extended hp (present_setPte paddr flags)
    have habs' : present (t.mem p i) = false := Bool.not_eq_true _ ▸ habs
    refine ⟨hfill.1, fun q u hu => ?_, hset _, fun n hn q hq j _ hne => ?_⟩
    · rw [hfill.2 q u hu, mapped_singleton, habs', Radix.place_singleton]
      simp
    · exact absurd ((h.fill hp habs' (setPte paddr flags)).above n hn q hq j) hne

/-- **What the visit of a path does**: it maps the paths with the same place, if they were
not mapped, and gives the permissions to the entries on the way. -/
theorem Sound.visit_effect (h : Sound tmpPaddr root t) (hp : TableOf root t.mem level p)
    (hlen : level + path.length = 4) (hpath : path ≠ []) (hwidth : ∀ i ∈ path, i < ptLength)
    (ht : Vm.visit flags paddr path p t = some t') :
    VisitEffect flags root paddr p path t.mem t'.mem := by
  induction path generalizing level p t with
  | nil => exact absurd rfl hpath
  | cons i path ih =>
    rw [List.length_cons] at hlen
    by_cases hrest : path = []
    · subst hrest
      obtain rfl : level = 3 := by simpa using hlen
      rw [Vm.visit, Option.some.injEq] at ht
      rw [← ht]
      exact h.visit_leaf hp
    · have hpos := List.length_pos_iff.mpr hrest
      have hi := hwidth i List.mem_cons_self
      have hwidth' : ∀ j ∈ path, j < ptLength := fun j hj => hwidth j (List.mem_cons_of_mem i hj)
      rw [visit_cons hrest, Option.bind_eq_some_iff] at ht
      obtain ⟨t₁, hsettled, ht⟩ := ht
      obtain ⟨hvis, hpres, hre, hnext⟩ := h.settled hp (by omega) hi hsettled
      obtain ⟨hext, hleaf⟩ := h.settled_extended hp (by omega) hsettled
      have hbelow := ih hvis.sound hnext (by omega) hrest hwidth' ht
      have hp₁ := hvis.table level (by omega) p hp
      have hvisit := hvis.sound.visit hnext (by omega) hwidth' ht
      have hmapped : mapped t₁.mem (ptePaddr (t₁.mem p i)) path = mapped t.mem p (i :: path) := by
        rw [← mapped_cons hpres hrest, mapped_settled h hp (by omega) hrest hsettled]
      have hplace : pageTables.place t₁.mem (ptePaddr (t₁.mem p i)) path =
          pageTables.place t₁.mem p (i :: path) := by
        rw [Radix.place_cons hrest, if_pos (show pageTables.present _ = true from hpres)]
        rfl
      have hfrom : PathFrom root t.mem p (i :: path) :=
        ⟨level, by omega, hp, by rw [List.length_cons]; omega, hwidth⟩
      have hdrop : (i :: path).dropLast = i :: path.dropLast :=
        List.dropLast_cons_of_ne_nil hrest
      have hslots₁ : pageTables.slots t₁.mem p (i :: path).dropLast =
          (p, i) :: pageTables.slots t₁.mem (ptePaddr (t₁.mem p i)) path.dropLast := by
        rw [hdrop, Radix.slots, if_pos (show pageTables.present _ = true from hpres)]
        rfl
      refine ⟨hext.trans hbelow.extended hvis.table, fun q u hu => ?_, ?_,
        fun n hn q hq j hj hne => ?_⟩
      · rw [hbelow.leaf q u (hu.mono hvis.table), hmapped, hplace, hleaf q u hu]
        exact if_congr (and_congr_right fun _ => hext.places q u p (i :: path) hu hfrom) rfl rfl
      · -- the entry itself is above what was visited
        have hself : t'.mem p i = t₁.mem p i := hvisit.above level (by omega) p hp₁ i
        intro slot hslot
        rw [hdrop, Radix.slots, hself,
          if_pos (show pageTables.present _ = true from hpres)] at hslot
        rcases List.mem_cons.mp hslot with rfl | hslot
        · rw [hself]
          exact ⟨hpres, hre⟩
        · exact hbelow.allSet slot hslot
      · by_cases hhere : q = p ∧ j = i
        · rw [hhere.1, hhere.2, hdrop, Radix.slots]
          exact List.mem_cons_self
        · have hsame := h.settled_other hp (by omega) hsettled (by omega) hq hhere
          rw [← hsame] at hj hne
          have hslot := hbelow.changed n hn q (hvis.table n (by omega) q hq) j hj hne
          refine hext.back level p (i :: path).dropLast ?_ hp
            (fun k hk => hwidth k (List.mem_of_mem_dropLast hk)) (q, j) ?_ n (by omega) hq
          · rw [hdrop, List.length_cons, List.length_dropLast]
            omega
          · rw [hslots₁]
            exact List.mem_cons_of_mem _ hslot

/-! ## A list of visits -/

/-- Four indices. -/
def IsPath (path : List ℕ) : Prop := path.length = 4 ∧ ∀ i ∈ path, i < ptLength

/-- Two paths have one place. -/
abbrev Together (mem : Tables) (root : PAddr) (u v : List ℕ) : Prop :=
  pageTables.place mem root u = pageTables.place mem root v

/-- The leaf entry of the `k`-th page of a range. -/
def pageEntry (flags : Flags) (paddr : PAddr) (k : ℕ) : Pte :=
  setPte (paddr + BitVec.ofNat 64 (k * pageSize)) flags

/-- The paths that are visited. -/
def visitedPaths (mem : Tables) (root : PAddr) (L : List (List ℕ)) (pages : ℕ) :
    List (List ℕ) :=
  Handout.gone (Together mem root) L pages (mapped mem root)

theorem together_equivalence (mem : Tables) (root : PAddr) : Equivalence (Together mem root) :=
  ⟨fun _ => rfl, Eq.symm, Eq.trans⟩

/-- What the visits of a list do. -/
structure MapEffect (flags : Flags) (root paddr : PAddr) (L : List (List ℕ)) (k pages : ℕ)
    (mem mem' : Tables) : Prop where
  extended : Extended flags root mem mem'
  leaf : ∀ u, IsPath u → pageTables.leaf mem' root u =
    Handout.handout (Together mem root) (pageEntry flags paddr) L k pages
      (pageTables.leaf mem root) u
  allSet : ∀ path ∈ visitedPaths mem root L pages, AllSet flags mem' root path
  changed : ∀ n < 3, ∀ q, TableOf root mem n q → ∀ i, present (mem q i) = true →
    mem' q i ≠ mem q i →
      ∃ path ∈ visitedPaths mem root L pages, (q, i) ∈ pageTables.slots mem root path.dropLast

/-- Nothing is visited. -/
theorem MapEffect.refl (hzero : ∀ has, Handout.handout (Together mem root)
      (pageEntry flags paddr) L n pages has = has)
    (hnil : visitedPaths mem root L pages = []) :
    MapEffect flags root paddr L n pages mem mem where
  extended := Extended.refl flags root mem
  leaf u _ := by rw [hzero]
  allSet path hpath := by
    rw [hnil] at hpath
    cases hpath
  changed _ _ _ _ _ _ hne := absurd rfl hne

/-- The next page of the range. -/
theorem paddr_succ (paddr : PAddr) (k : ℕ) :
    paddr + BitVec.ofNat 64 (k * pageSize) + 4096#64 =
      paddr + BitVec.ofNat 64 ((k + 1) * pageSize) := by
  rw [BitVec.add_assoc, Nat.add_mul, Nat.one_mul, BitVec.ofNat_add]
  rfl

/-- **Mapping hands out pages in order** to the paths of a list that are not mapped. -/
theorem Sound.visitAll_effect (h : Sound tmpPaddr root t) (hL : ∀ path ∈ L, IsPath path) {k : ℕ}
    {r : PAddr × ℕ × FlatState}
    (ht : Vm.visitAll flags root L (paddr + BitVec.ofNat 64 (k * pageSize)) pages t = some r) :
    MapEffect flags root paddr L k pages t.mem r.2.2.mem := by
  induction L generalizing k pages t with
  | nil =>
    rw [Vm.visitAll, Option.some.injEq] at ht
    rw [← ht]
    exact MapEffect.refl (fun _ => rfl) rfl
  | cons path L ih =>
    have hpath := hL path List.mem_cons_self
    have hrest : ∀ path' ∈ L, IsPath path' := fun path' h' =>
      hL path' (List.mem_cons_of_mem path h')
    by_cases hpages : pages = 0
    · subst hpages
      rw [visitAll_zero, Option.some.injEq] at ht
      rw [← ht]
      exact MapEffect.refl (fun _ => Handout.handout_zero) Handout.gone_zero
    · rw [Vm.visitAll, if_neg hpages] at ht
      obtain ⟨t₁, hvisit, ht⟩ := Option.bind_eq_some_iff.mp ht
      have hlen : 0 + path.length = 4 := by rw [hpath.1]
      have hne : path ≠ [] := by
        intro heq
        rw [heq] at hlen
        cases hlen
      have hvis := h.visit .root hlen hpath.2 hvisit
      have heff := h.visit_effect .root hlen hne hpath.2 hvisit
      have hfrom : ∀ u, IsPath u → PathFrom root t.mem root u := fun u hu =>
        pathFrom_root hu.1 hu.2
      have htogether : ∀ u v, IsPath u → IsPath v →
          (Together t₁.mem root u v ↔ Together t.mem root u v) := fun u v hu hv =>
        heff.extended.places root u root v (hfrom u hu) (hfrom v hv)
      -- what is left to do, and what it does, as seen from the first state
      obtain ⟨k', pages', ht, hhand, hgone⟩ : ∃ k' pages',
          Vm.visitAll flags root L (paddr + BitVec.ofNat 64 (k' * pageSize)) pages' t₁ = some r ∧
          (∀ u, IsPath u → Handout.handout (Together t₁.mem root)
            (pageEntry flags paddr) L k' pages'
              (pageTables.leaf t₁.mem root) u =
            Handout.handout (Together t.mem root) (pageEntry flags paddr) (path :: L) k pages
              (pageTables.leaf t.mem root) u) ∧
          visitedPaths t.mem root (path :: L) pages =
            path :: visitedPaths t₁.mem root L pages' := by
        by_cases hmapped : mapped t.mem root path = true
        · have hsome : (pageTables.leaf t.mem root path).isSome = true := hmapped
          rw [if_pos hmapped] at ht
          have hleaf : ∀ u, IsPath u → pageTables.leaf t₁.mem root u =
              pageTables.leaf t.mem root u := by
            intro u hu
            rw [heff.leaf root u (hfrom u hu), hmapped]
            simp
          refine ⟨k, pages, ht, fun u hu => ?_, ?_⟩
          · rw [Handout.handout, if_neg hpages, if_pos hsome]
            exact Handout.handout_congr IsPath htogether hrest hleaf hu
          · rw [visitedPaths, Handout.gone, if_neg hpages, if_pos hmapped]
            congr 1
            refine (Handout.gone_congr IsPath htogether hrest fun u hu => ?_).symm
            rw [mapped, hleaf u hu]
            rfl
        · have hsome : ¬ (pageTables.leaf t.mem root path).isSome = true := hmapped
          rw [if_neg hmapped, paddr_succ] at ht
          have hleaf : ∀ u, IsPath u → pageTables.leaf t₁.mem root u =
              if Together t.mem root u path then some (pageEntry flags paddr k)
              else pageTables.leaf t.mem root u := by
            intro u hu
            rw [heff.leaf root u (hfrom u hu)]
            exact if_congr (and_iff_right (Bool.not_eq_true _ ▸ hmapped)) rfl rfl
          refine ⟨k + 1, pages - 1, ht, fun u hu => ?_, ?_⟩
          · rw [Handout.handout, if_neg hpages, if_neg hsome]
            exact Handout.handout_congr IsPath htogether hrest hleaf hu
          · rw [visitedPaths, Handout.gone, if_neg hpages, if_neg hmapped]
            congr 1
            refine (Handout.gone_congr IsPath htogether hrest fun u hu => ?_).symm
            rw [mapped, hleaf u hu]
            by_cases hu' : Together t.mem root u path
            · rw [if_pos hu', decide_eq_true hu']
              rfl
            · rw [if_neg hu', decide_eq_false hu', Bool.false_or]
              rfl
      have hlater := ih hvis.sound hrest ht
      refine ⟨heff.extended.trans hlater.extended hvis.table, fun u hu => ?_,
        fun path' hpath' => ?_,
        fun n hn q hq i hi hchanged => ?_⟩
      · rw [hlater.leaf u hu, hhand u hu]
      · rw [hgone] at hpath'
        rcases List.mem_cons.mp hpath' with rfl | hpath'
        · exact (heff.allSet.extended hlater.extended .root hlen hpath.2).2
        · exact hlater.allSet path' hpath'
      · rw [hgone]
        by_cases hsame : t₁.mem q i = t.mem q i
        · obtain ⟨path', hpath', hslot⟩ := hlater.changed n hn q (hvis.table n (by omega) q hq) i
            (by rw [hsame]; exact hi) (by rw [hsame]; exact hchanged)
          have hpath'' : IsPath path' := hrest path' (Handout.gone_subset hpath')
          refine ⟨path', List.mem_cons_of_mem _ hpath', ?_⟩
          refine heff.extended.back 0 root path'.dropLast ?_ .root
            (fun j hj => hpath''.2 j (List.mem_of_mem_dropLast hj)) (q, i) hslot n (by omega) hq
          rw [List.length_dropLast, hpath''.1]
          decide
        · exact ⟨path, List.mem_cons_self, heff.changed n hn q hq i hi hsame⟩

end Mimik.Vm
