/-
# Walks through radix tables

A radix table maps an index to an entry; an entry that is present leads to a table of
the next level, or, at the last level, is itself the result.  A memory of tables is a
function `read` from a table and an index to an entry; it is a graph, in which a table
can be reached along several paths.

`leafSlot` is the place of the entry at the end of a path and `leaf` the entry, if it
is present.  `At root n p` says that the table `p` is reached from `root` in `n` steps.

Nothing here mentions a particular table format.
-/
import Mathlib.Tactic.Common

/-- A format of radix tables with entries `E` that lead to tables `τ`. -/
structure Radix (τ E : Type*) where
  present : E → Bool
  next : E → τ
  width : ℕ

namespace Radix

variable {τ E : Type*} (R : Radix τ E) (read read' : τ → ℕ → E)

/-- The place of the last entry of a path, if the entries before it are present. -/
def leafSlot : τ → List ℕ → Option (τ × ℕ)
  | _, [] => none
  | p, [i] => some (p, i)
  | p, i :: j :: path =>
    if R.present (read p i) then leafSlot (R.next (read p i)) (j :: path) else none

/-- The entry in a place, if it is present. -/
def entry (slot : τ × ℕ) : Option E :=
  if R.present (read slot.1 slot.2) then some (read slot.1 slot.2) else none

/-- The last entry of a path, if all entries are present. -/
def leaf (p : τ) (path : List ℕ) : Option E := (R.leafSlot read p path).bind (R.entry read)

/-- The tables reached from `root` in a number of steps. -/
inductive At (root : τ) : ℕ → τ → Prop
  | root : At root 0 root
  | step {n : ℕ} {p : τ} {i : ℕ} : At root n p → i < R.width → R.present (read p i) = true →
      At root (n + 1) (R.next (read p i))

variable {R read read'} {root p : τ} {n d i : ℕ} {path : List ℕ} {e : E}

/-- An entry is found in a place when it is there and present. -/
theorem entry_eq_some_iff {slot : τ × ℕ} :
    R.entry read slot = some e ↔ R.present e = true ∧ read slot.1 slot.2 = e := by
  rw [entry]
  by_cases h : R.present (read slot.1 slot.2) = true
  · rw [if_pos h, Option.some.injEq]
    constructor
    · rintro rfl; exact ⟨h, rfl⟩
    · rintro ⟨-, he⟩; exact he
  · rw [if_neg h]
    constructor
    · intro he; cases he
    · rintro ⟨he, rfl⟩; exact absurd he h

/-- A leaf is a present entry in the last place of the path. -/
theorem leaf_eq_some_iff :
    R.leaf read p path = some e ↔
      ∃ slot, R.leafSlot read p path = some slot ∧ R.present e = true ∧
        read slot.1 slot.2 = e := by
  simp only [leaf, Option.bind_eq_some_iff, entry_eq_some_iff]

@[simp] theorem leafSlot_singleton : R.leafSlot read p [i] = some (p, i) := rfl

/-- A path goes on in the table that its first entry leads to. -/
theorem leafSlot_cons (hpath : path ≠ []) :
    R.leafSlot read p (i :: path) =
      if R.present (read p i) then R.leafSlot read (R.next (read p i)) path else none := by
  cases path with
  | nil => exact absurd rfl hpath
  | cons j path => rfl

/-- The leaf of a path is found in the table that its first entry leads to. -/
theorem leaf_cons (hpath : path ≠ []) :
    R.leaf read p (i :: path) =
      if R.present (read p i) then R.leaf read (R.next (read p i)) path else none := by
  rw [leaf, leafSlot_cons hpath]
  split <;> rfl

/-- The last index of a path is the one of its last place, and another one there leads to the same
table. -/
theorem leafSlot_append (front : List ℕ) {j : ℕ} {q : τ}
    (h : R.leafSlot read p (front ++ [j]) = some (q, i)) :
    i = j ∧ ∀ k, R.leafSlot read p (front ++ [k]) = some (q, k) := by
  induction front generalizing p with
  | nil =>
    cases h
    exact ⟨rfl, fun _ => rfl⟩
  | cons l front ih =>
    have hne : ∀ k, front ++ [k] ≠ [] := fun k => List.append_ne_nil_of_right_ne_nil _ (by simp)
    rw [List.cons_append, leafSlot_cons (hne j)] at h
    split at h
    next hpres =>
      obtain ⟨hij, hother⟩ := ih h
      refine ⟨hij, fun k => ?_⟩
      rw [List.cons_append, leafSlot_cons (hne k), if_pos hpres]
      exact hother k
    next => cases h

/-- The last place of a path is in a table as far down as the path is long. -/
theorem At.leafSlot (hp : R.At read root n p) (hwidth : ∀ i ∈ path, i < R.width)
    {slot : τ × ℕ} (hslot : R.leafSlot read p path = some slot) :
    R.At read root (n + (path.length - 1)) slot.1 ∧ slot.2 < R.width := by
  induction path generalizing n p with
  | nil => cases hslot
  | cons i path ih =>
    by_cases hpath : path = []
    · subst hpath
      rw [leafSlot_singleton, Option.some.injEq] at hslot
      subst hslot
      exact ⟨hp, hwidth i List.mem_cons_self⟩
    · rw [leafSlot_cons hpath] at hslot
      split at hslot
      next hpres =>
        have hlen : n + 1 + (path.length - 1) = n + ((i :: path).length - 1) := by
          have := List.length_pos_iff.mpr hpath
          rw [List.length_cons]
          omega
        rw [← hlen]
        exact ih (hp.step (hwidth i List.mem_cons_self) hpres)
          (fun j hj => hwidth j (List.mem_cons_of_mem i hj)) hslot
      next => cases hslot

/-! ## The places of a path -/

variable (R read)

/-- All places of a path, as far as its entries are present. -/
def slots : τ → List ℕ → List (τ × ℕ)
  | _, [] => []
  | p, i :: path => (p, i) :: if R.present (read p i) then slots (R.next (read p i)) path else []

variable {R read}

/-- A path of one index has one place. -/
theorem slots_singleton : R.slots read p [i] = [(p, i)] := by
  rw [slots]
  split <;> rfl

/-- The last place is one of the places. -/
theorem mem_slots_of_leafSlot {slot : τ × ℕ} (h : R.leafSlot read p path = some slot) :
    slot ∈ R.slots read p path := by
  induction path generalizing p with
  | nil => cases h
  | cons i path ih =>
    rw [slots]
    by_cases hpath : path = []
    · subst hpath
      rw [leafSlot_singleton, Option.some.injEq] at h
      rw [← h]
      exact List.mem_cons_self
    · rw [leafSlot_cons hpath] at h
      split at h
      next hpres =>
        rw [if_pos hpres]
        exact List.mem_cons_of_mem _ (ih h)
      next => cases h

/-- The places above the last level come before the last place. -/
theorem slots_eq_append {slot : τ × ℕ} (h : R.leafSlot read p path = some slot) :
    R.slots read p path = R.slots read p path.dropLast ++ [slot] := by
  induction path generalizing p with
  | nil => cases h
  | cons i path ih =>
    by_cases hpath : path = []
    · subst hpath
      rw [leafSlot_singleton, Option.some.injEq] at h
      rw [slots_singleton, h]
      rfl
    · rw [leafSlot_cons hpath] at h
      split at h
      next hpres =>
        rw [List.dropLast_cons_of_ne_nil hpath, slots, slots, if_pos hpres, if_pos hpres, ih h,
          List.cons_append]
      next => cases h

/-- The places of a path are in tables, as far down as they come. -/
theorem At.slots (hp : R.At read root n p) (hwidth : ∀ i ∈ path, i < R.width) {slot : τ × ℕ}
    (hslot : slot ∈ R.slots read p path) :
    ∃ m, n ≤ m ∧ m < n + path.length ∧ R.At read root m slot.1 ∧ slot.2 < R.width := by
  induction path generalizing n p with
  | nil => cases hslot
  | cons i path ih =>
    have hi := hwidth i List.mem_cons_self
    rw [Radix.slots] at hslot
    rw [List.length_cons]
    rcases List.mem_cons.mp hslot with rfl | hslot
    · exact ⟨n, Nat.le_refl n, by omega, hp, hi⟩
    · split at hslot
      next hpres =>
        obtain ⟨m, hle, hlt, hm⟩ := ih (hp.step hi hpres)
          (fun j hj => hwidth j (List.mem_cons_of_mem i hj)) hslot
        exact ⟨m, by omega, by omega, hm⟩
      next => cases hslot

/-- On the way to a leaf all places hold present entries. -/
theorem present_of_mem_slots (h : R.leaf read p path = some e) {slot : τ × ℕ}
    (hslot : slot ∈ R.slots read p path) : R.present (read slot.1 slot.2) = true := by
  obtain ⟨last, hlast, hpres, hread⟩ := leaf_eq_some_iff.mp h
  clear h
  induction path generalizing p with
  | nil => cases hlast
  | cons i path ih =>
    rw [slots] at hslot
    by_cases hpath : path = []
    · subst hpath
      rw [leafSlot_singleton, Option.some.injEq] at hlast
      subst hlast
      rw [← hread] at hpres
      rw [if_pos hpres, slots, List.mem_singleton] at hslot
      rw [hslot]
      exact hpres
    · rw [leafSlot_cons hpath] at hlast
      split at hlast
      next hpi =>
        rw [if_pos hpi] at hslot
        rcases List.mem_cons.mp hslot with rfl | hslot
        · exact hpi
        · exact ih hslot hlast
      next => cases hlast

/-- The walk comes to a table from an entry that is present. -/
theorem parent_of_mem_slots {slot : τ × ℕ} (hslot : slot ∈ R.slots read p path) :
    slot.1 = p ∨ ∃ above ∈ R.slots read p path, R.present (read above.1 above.2) = true ∧
      R.next (read above.1 above.2) = slot.1 := by
  induction path generalizing p with
  | nil => cases hslot
  | cons i path ih =>
    rw [slots] at hslot ⊢
    rcases List.mem_cons.mp hslot with rfl | hslot
    · exact .inl rfl
    · split at hslot
      next hpres =>
        rw [if_pos hpres]
        refine .inr ?_
        rcases ih hslot with heq | ⟨above, habove, hpres', hnext⟩
        · exact ⟨(p, i), List.mem_cons_self, hpres, heq.symm⟩
        · exact ⟨above, List.mem_cons_of_mem _ habove, hpres', hnext⟩
      next => cases hslot

/-- The leaf of a path depends on the places of the path. -/
theorem leaf_congr (h : ∀ slot ∈ R.slots read p path, read' slot.1 slot.2 = read slot.1 slot.2) :
    R.slots read' p path = R.slots read p path ∧
      R.leafSlot read' p path = R.leafSlot read p path ∧
      R.leaf read' p path = R.leaf read p path := by
  have hslots : R.slots read' p path = R.slots read p path := by
    induction path generalizing p with
    | nil => rfl
    | cons i path ih =>
      have hi := h (p, i) (by rw [Radix.slots]; exact List.mem_cons_self)
      rw [Radix.slots, Radix.slots, hi]
      split
      next hpres =>
        congr 1
        apply ih
        intro slot hslot
        apply h
        rw [Radix.slots, if_pos hpres]
        exact List.mem_cons_of_mem _ hslot
      next => rfl
  have hslot : R.leafSlot read' p path = R.leafSlot read p path := by
    clear hslots
    induction path generalizing p with
    | nil => rfl
    | cons i path ih =>
      have hi := h (p, i) (by rw [slots]; exact List.mem_cons_self)
      by_cases hpath : path = []
      · subst hpath; rfl
      · rw [leafSlot_cons hpath, leafSlot_cons hpath, hi]
        split
        next hpres =>
          apply ih
          intro slot hslot
          apply h
          rw [slots, if_pos hpres]
          exact List.mem_cons_of_mem _ hslot
        next => rfl
  refine ⟨hslots, hslot, ?_⟩
  rw [leaf, leaf, hslot]
  cases hlast : R.leafSlot read p path with
  | none => rfl
  | some slot =>
    show R.entry read' slot = R.entry read slot
    rw [entry, entry, h slot (mem_slots_of_leafSlot hlast)]

/-! ## Comparing two memories -/

variable (R read read')

/-- Every present entry of a table above level `d` is present in the second memory, with
the same target. -/
def Extends (root : τ) (d : ℕ) : Prop :=
  ∀ n < d, ∀ p, R.At read root n p → ∀ i < R.width, R.present (read p i) = true →
    R.present (read' p i) = true ∧ R.next (read' p i) = R.next (read p i)

variable {R read read'}

/-- A place stays where it is when the memory is extended. -/
theorem leafSlot_mono (hext : R.Extends read read' root d) (hp : R.At read root n p)
    (hlen : n + path.length ≤ d + 1) (hwidth : ∀ i ∈ path, i < R.width) {slot : τ × ℕ}
    (hslot : R.leafSlot read p path = some slot) : R.leafSlot read' p path = some slot := by
  induction path generalizing n p with
  | nil => cases hslot
  | cons i path ih =>
    by_cases hpath : path = []
    · subst hpath
      exact hslot
    · have hpos := List.length_pos_iff.mpr hpath
      rw [List.length_cons] at hlen
      rw [leafSlot_cons hpath] at hslot ⊢
      split at hslot
      next hpres =>
        have hi := hwidth i List.mem_cons_self
        have hsame := hext n (by omega) p hp i hi hpres
        rw [if_pos hsame.1, hsame.2]
        exact ih (hp.step hi hpres) (by omega)
          (fun j hj => hwidth j (List.mem_cons_of_mem i hj)) hslot
      next => cases hslot

/-- A table stays where it is when the memory is extended. -/
theorem At.mono (hext : R.Extends read read' root d) (hp : R.At read root n p) (hn : n ≤ d) :
    R.At read' root n p := by
  induction hp with
  | root => exact .root
  | step hp hi hpres ih =>
    have hsame := hext _ (by omega) _ hp _ hi hpres
    rw [← hsame.2]
    exact (ih (by omega)).step hi hsame.1

/-- Leaves stay when the memory is extended and no present entry of the last level
changes. -/
theorem leaf_mono (hext : R.Extends read read' root d)
    (hlast : ∀ p, R.At read root d p → ∀ i < R.width, R.present (read p i) = true →
      read' p i = read p i)
    (hlen : path.length = d + 1) (hwidth : ∀ i ∈ path, i < R.width)
    (hleaf : R.leaf read root path = some e) : R.leaf read' root path = some e := by
  obtain ⟨slot, hslot, hpres, hread⟩ := leaf_eq_some_iff.mp hleaf
  have hat := At.root.leafSlot hwidth hslot
  rw [hlen, Nat.zero_add, Nat.add_sub_cancel] at hat
  rw [← hread] at hpres
  refine leaf_eq_some_iff.mpr ⟨slot, ?_, ?_⟩
  · exact leafSlot_mono hext .root (by omega) hwidth hslot
  · rw [hlast slot.1 hat.1 slot.2 hat.2 hpres, ← hread]
    exact ⟨hpres, rfl⟩

/-- A table of the second memory was one of the first, or comes after an entry that was
not present there. -/
theorem At.back (new : ℕ → τ → Prop)
    (hback : ∀ n < d, ∀ p, R.At read root n p ∨ new n p → ∀ i < R.width,
      R.present (read' p i) = true → R.At read root (n + 1) (R.next (read' p i)) ∨
        new (n + 1) (R.next (read' p i)))
    (hp : R.At read' root n p) (hn : n ≤ d) : R.At read root n p ∨ new n p := by
  induction hp with
  | root => exact .inl .root
  | step hp hi hpres ih => exact hback _ (by omega) _ (ih (by omega)) _ hi hpres

/-- When entries are only removed, a leaf of the second memory is one of the first, and
no place on the way to it was touched. -/
theorem slots_of_removed (hrem : ∀ p i, read' p i = read p i ∨ R.present (read' p i) = false)
    (h : R.leaf read' p path = some e) :
    ∀ slot ∈ R.slots read p path, read' slot.1 slot.2 = read slot.1 slot.2 := by
  obtain ⟨last, hlast, hpres, hread⟩ := leaf_eq_some_iff.mp h
  clear h
  have hsame : ∀ q j, R.present (read' q j) = true → read' q j = read q j := by
    intro q j hj
    rcases hrem q j with heq | habs
    · exact heq
    · rw [habs] at hj
      cases hj
  induction path generalizing p with
  | nil => cases hlast
  | cons i path ih =>
    intro slot hslot
    rw [slots] at hslot
    by_cases hpath : path = []
    · subst hpath
      rw [leafSlot_singleton, Option.some.injEq] at hlast
      subst hlast
      rw [← hread] at hpres
      have hi := hsame p i hpres
      rw [← hi, if_pos hpres, slots, List.mem_singleton] at hslot
      rw [hslot]
      exact hi
    · rw [leafSlot_cons hpath] at hlast
      split at hlast
      next hpi =>
        have hi := hsame p i hpi
        rw [hi] at hpi hlast
        rw [if_pos hpi] at hslot
        rcases List.mem_cons.mp hslot with rfl | hslot
        · exact hi
        · exact ih hlast slot hslot
      next => cases hlast

/-- The tables down to level `d` depend on the presence and the targets of the entries
above it. -/
theorem at_congr (hsame : ∀ n < d, ∀ p, R.At read root n p → ∀ i < R.width,
      R.present (read' p i) = R.present (read p i) ∧ R.next (read' p i) = R.next (read p i))
    (hn : n ≤ d) : R.At read' root n p ↔ R.At read root n p := by
  constructor
  · intro hp
    have hback : R.At read root n p ∨ False := by
      apply At.back (fun _ _ => False) (d := d) _ hp hn
      rintro m hm q (hq | hq) i hi hpres
      · have h := hsame m hm q hq i hi
        rw [h.2]
        exact .inl (hq.step hi (h.1.symm.trans hpres))
      · cases hq
    exact hback.resolve_right id
  · intro hp
    apply hp.mono (d := d) _ hn
    intro m hm q hq i hi hpres
    have h := hsame m hm q hq i hi
    exact ⟨h.1.trans hpres, h.2⟩

/-! ## Memories of one shape -/

variable (R read read')

/-- The same entries are present, with the same targets. -/
def SameShape : Prop :=
  ∀ p i, R.present (read' p i) = R.present (read p i) ∧ R.next (read' p i) = R.next (read p i)

variable {R read read'}

theorem SameShape.refl : R.SameShape read read := fun _ _ => ⟨rfl, rfl⟩

theorem SameShape.symm (h : R.SameShape read read') : R.SameShape read' read :=
  fun p i => ⟨(h p i).1.symm, (h p i).2.symm⟩

theorem SameShape.trans {read'' : τ → ℕ → E} (h : R.SameShape read read')
    (h' : R.SameShape read' read'') : R.SameShape read read'' :=
  fun p i => ⟨(h' p i).1.trans (h p i).1, (h' p i).2.trans (h p i).2⟩

/-- Walks pass the same places in memories of one shape. -/
theorem SameShape.slots (h : R.SameShape read read') (p : τ) (path : List ℕ) :
    R.slots read' p path = R.slots read p path := by
  induction path generalizing p with
  | nil => rfl
  | cons i path ih => rw [Radix.slots, Radix.slots, (h p i).1, (h p i).2, ih]

/-- Walks end in the same places in memories of one shape. -/
theorem SameShape.leafSlot (h : R.SameShape read read') (p : τ) (path : List ℕ) :
    R.leafSlot read' p path = R.leafSlot read p path := by
  induction path generalizing p with
  | nil => rfl
  | cons i path ih =>
    by_cases hpath : path = []
    · subst hpath
      rfl
    · rw [leafSlot_cons hpath, leafSlot_cons hpath, (h p i).1, (h p i).2, ih]

/-- The same paths lead to leaves in memories of one shape. -/
theorem SameShape.isSome_leaf (h : R.SameShape read read') (p : τ) (path : List ℕ) :
    (R.leaf read' p path).isSome = (R.leaf read p path).isSome := by
  rw [leaf, leaf, h.leafSlot]
  cases R.leafSlot read p path with
  | none => rfl
  | some slot =>
    show (R.entry read' slot).isSome = (R.entry read slot).isSome
    rw [entry, entry, (h slot.1 slot.2).1]
    split <;> rfl

/-- The same tables are reached in memories of one shape. -/
theorem SameShape.at_iff (h : R.SameShape read read') :
    R.At read' root n p ↔ R.At read root n p :=
  at_congr (fun _ _ q _ j _ => h q j) (Nat.le_refl _)

/-! ## Boxes of paths -/

/-- The paths that start with an index from `i` on and go on in `below`, in order. -/
def boxFrom (width : ℕ) (below : List (List ℕ)) (i : ℕ) : List (List ℕ) :=
  (List.range' i (width - i)).flatMap fun j => below.map (j :: ·)

/-- The paths with no index below the one at the same place of `index`, in
lexicographic order. -/
def box (width : ℕ) : List ℕ → List (List ℕ)
  | [] => [[]]
  | i :: index => boxFrom width (box width index) i

variable {width : ℕ} {below : List (List ℕ)} {index : List ℕ}

theorem boxFrom_of_lt (hi : i < width) :
    boxFrom width below i = below.map (i :: ·) ++ boxFrom width below (i + 1) := by
  obtain ⟨k, hk⟩ : ∃ k, width - i = k + 1 := ⟨width - i - 1, by omega⟩
  rw [boxFrom, boxFrom, hk, List.range'_succ, List.flatMap_cons, show width - (i + 1) = k by omega]

theorem boxFrom_of_le (hi : width ≤ i) : boxFrom width below i = [] := by
  rw [boxFrom, Nat.sub_eq_zero_of_le hi]
  rfl

theorem mem_boxFrom : path ∈ boxFrom width below i ↔
    ∃ j, (i ≤ j ∧ j < width) ∧ ∃ rest ∈ below, path = j :: rest := by
  simp only [boxFrom, List.mem_flatMap, List.mem_range', List.mem_map, Nat.one_mul]
  constructor
  · rintro ⟨j, ⟨k, hk, rfl⟩, rest, hrest, rfl⟩
    exact ⟨i + k, by omega, rest, hrest, rfl⟩
  · rintro ⟨j, hj, rest, hrest, rfl⟩
    exact ⟨j, ⟨j - i, by omega, by omega⟩, rest, hrest, rfl⟩

/-- The paths of a box are as long as the indices, and within the tables. -/
theorem of_mem_box (h : path ∈ box width index) :
    path.length = index.length ∧ ∀ i ∈ path, i < width := by
  induction index generalizing path with
  | nil =>
    rw [List.mem_singleton.mp h]
    exact ⟨rfl, fun _ hi => absurd hi List.not_mem_nil⟩
  | cons i index ih =>
    obtain ⟨j, hj, rest, hrest, rfl⟩ := mem_boxFrom.mp h
    obtain ⟨hlen, hlt⟩ := ih hrest
    refine ⟨by rw [List.length_cons, List.length_cons, hlen], fun k hk => ?_⟩
    rcases List.mem_cons.mp hk with rfl | hk
    · exact hj.2
    · exact hlt k hk

/-- The indices themselves are in their box. -/
theorem self_mem_box (h : ∀ i ∈ index, i < width) : index ∈ box width index := by
  induction index with
  | nil => exact List.mem_singleton_self _
  | cons i index ih =>
    exact mem_boxFrom.mpr ⟨i, ⟨Nat.le_refl i, h i List.mem_cons_self⟩, index,
      ih fun j hj => h j (List.mem_cons_of_mem i hj), rfl⟩

/-- The paths of one index. -/
theorem box_singleton : box width [i] = (List.range' i (width - i)).map fun j => [j] := by
  rw [box, boxFrom, box]
  simp only [List.map_cons, List.map_nil]
  exact List.map_eq_flatMap.symm

/-- The first paths of a box start with its first index. -/
theorem take_box_cons {n : ℕ} (hi : i < width) (hn : n ≤ (box width index).length) :
    (box width (i :: index)).take n = ((box width index).take n).map (i :: ·) := by
  rw [box, boxFrom_of_lt hi, List.take_append, List.length_map, Nat.sub_eq_zero_of_le hn,
    List.take_zero, List.append_nil, List.map_take]

/-- A box is no smaller than the box of the level below. -/
theorem length_box_le (hi : i < width) :
    (box width index).length ≤ (box width (i :: index)).length := by
  rw [box, boxFrom_of_lt hi, List.length_append, List.length_map]
  exact Nat.le_add_right _ _

end Radix
