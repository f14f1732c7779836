/-
# Lists (`structs/list.c`)

A `struct list` is a node with two pointers; a list is a ring of nodes, one of which
is its head.  The four operations that change a list assign two to four pointers, some of
which may belong to one node: the only element of a list is its first and its last,
and the neighbour of an element may be the head.

* The memory is a map from the addresses of nodes to nodes.  A pointer is a 64-bit
  word, and following `NULL` is a fault.
* What the operations mean is said in `Rings.Step`, over sets of cycles: which cycles
  there are before and after, and nothing about pointers.
* `Op.exec_spec` connects the two for one operation, `ring_runs` for every sequence of
  operations: the pointers always spell out the cycles, in both directions.
-/
import Mimik.Basic
import Mimik.GuardedRun
import Mimik.LinkedRing
import Mathlib.Data.Set.Basic

namespace Mimik.ListRing

open LinkedRing

/-! ## Memory -/

/-- A pointer to a node. -/
abbrev Addr := BitVec 64

/-- `NULL`. -/
def null : Addr := 0

/-- `struct list`. -/
structure Node where
  prev : Addr
  next : Addr
  deriving DecidableEq, Repr

/-- The nodes in memory. -/
abbrev Heap := Addr → Node

/-- Assign `p->next`. -/
def setNext (h : Heap) (p v : Addr) : Heap := Function.update h p { h p with next := v }

/-- Assign `p->prev`. -/
def setPrev (h : Heap) (p v : Addr) : Heap := Function.update h p { h p with prev := v }

theorem setNext_next (h : Heap) (p v q : Addr) :
    (setNext h p v q).next = if q = p then v else (h q).next := by
  unfold setNext
  by_cases hq : q = p <;> simp [hq]

@[simp] theorem setNext_prev (h : Heap) (p v q : Addr) :
    (setNext h p v q).prev = (h q).prev := by
  unfold setNext
  by_cases hq : q = p <;> simp [hq]

theorem setPrev_prev (h : Heap) (p v q : Addr) :
    (setPrev h p v q).prev = if q = p then v else (h q).prev := by
  unfold setPrev
  by_cases hq : q = p <;> simp [hq]

@[simp] theorem setPrev_next (h : Heap) (p v q : Addr) :
    (setPrev h p v q).next = (h q).next := by
  unfold setPrev
  by_cases hq : q = p <;> simp [hq]

/-- Nodes other than the one assigned to stay as they are. -/
theorem setNext_of_ne (h : Heap) {p q : Addr} (v : Addr) (hq : q ≠ p) : setNext h p v q = h q := by
  unfold setNext
  simp [hq]

theorem setPrev_of_ne (h : Heap) {p q : Addr} (v : Addr) (hq : q ≠ p) : setPrev h p v q = h q := by
  unfold setPrev
  simp [hq]

/-- The expression `p->next`. -/
def readNext (h : Heap) (p : Addr) : Except Fault Addr :=
  if p = null then .error (.wild "p->next") else .ok (h p).next

/-- The expression `p->prev`. -/
def readPrev (h : Heap) (p : Addr) : Except Fault Addr :=
  if p = null then .error (.wild "p->prev") else .ok (h p).prev

/-- The statement `p->next = v`. -/
def writeNext (h : Heap) (p v : Addr) : Except Fault Heap :=
  if p = null then .error (.wild "p->next") else .ok (setNext h p v)

/-- The statement `p->prev = v`. -/
def writePrev (h : Heap) (p v : Addr) : Except Fault Heap :=
  if p = null then .error (.wild "p->prev") else .ok (setPrev h p v)

/-- An assertion that two pointers differ. -/
@[simp] theorem assert_bne {p q : Addr} (expr : String) (hp : p ≠ q) :
    assert (p != q) expr = .ok () := by
  rw [bne_iff_ne.mpr hp, assert_true]

@[simp] theorem readNext_of_ne {h : Heap} {p : Addr} (hp : p ≠ null) :
    readNext h p = .ok (h p).next := if_neg hp

@[simp] theorem readPrev_of_ne {h : Heap} {p : Addr} (hp : p ≠ null) :
    readPrev h p = .ok (h p).prev := if_neg hp

@[simp] theorem writeNext_of_ne {h : Heap} {p v : Addr} (hp : p ≠ null) :
    writeNext h p v = .ok (setNext h p v) := if_neg hp

@[simp] theorem writePrev_of_ne {h : Heap} {p v : Addr} (hp : p ≠ null) :
    writePrev h p v = .ok (setPrev h p v) := if_neg hp

/-! ## The operations -/

/-- `list_init`. -/
def listInit (h : Heap) (list : Addr) : Except Fault Heap := do
  assert (list != null) "list != NULL"
  let h ← writeNext h list list
  writePrev h list list

/-- `list_insert`. -/
def listInsert (h : Heap) (list elem : Addr) : Except Fault Heap := do
  assert (list != null) "list != NULL"
  assert (elem != null) "elem != NULL"
  let h ← writePrev h elem list
  let h ← writeNext h elem (← readNext h list)
  let h ← writeNext h list elem
  writePrev h (← readNext h elem) elem

/-- `list_remove`. -/
def listRemove (h : Heap) (elem : Addr) : Except Fault Heap := do
  assert (elem != null) "elem != NULL"
  let h ← writeNext h (← readPrev h elem) (← readNext h elem)
  let h ← writePrev h (← readNext h elem) (← readPrev h elem)
  let h ← writePrev h elem null
  writeNext h elem null

/-- `list_is_empty`. -/
def listIsEmpty (h : Heap) (list : Addr) : Except Fault Bool := do
  return list == (← readNext h list)

/-- `list_join`. -/
def listJoin (h : Heap) (list other : Addr) : Except Fault Heap := do
  assert (list != null) "list != NULL"
  assert (list != other) "list != other"
  if ← listIsEmpty h other then
    return h
  let h ← writePrev h (← readNext h other) list
  let h ← writeNext h (← readPrev h other) (← readNext h list)
  let h ← writePrev h (← readNext h list) (← readPrev h other)
  writeNext h list (← readNext h other)

/-- The loop of `list_length`. -/
def lengthFrom (h : Heap) (list : Addr) : ℕ → Addr → ℕ → Except Fault ℕ
  | 0, _, _ => .error .outOfFuel
  | fuel + 1, elem, len =>
    if elem = list then .ok len
    else do lengthFrom h list fuel (← readNext h elem) (wrap64 (len + 1))

/-- `list_length`. -/
def listLength (fuel : ℕ) (h : Heap) (list : Addr) : Except Fault ℕ := do
  assert (list != null) "list != NULL"
  lengthFrom h list fuel (← readNext h list) 0

/-- The nodes that a `for` loop visits which advances by `link` and stops at `head`. -/
def visitFrom (link : Addr → Except Fault Addr) (head : Addr) :
    ℕ → Addr → Except Fault (List Addr)
  | 0, _ => .error .outOfFuel
  | fuel + 1, pos =>
    if pos = head then .ok []
    else do return pos :: (← visitFrom link head fuel (← link pos))

/-- `list_for_each`. -/
def listForEach (fuel : ℕ) (h : Heap) (head : Addr) : Except Fault (List Addr) := do
  visitFrom (readNext h) head fuel (← readNext h head)

/-- `list_for_each_reverse`. -/
def listForEachReverse (fuel : ℕ) (h : Heap) (head : Addr) : Except Fault (List Addr) := do
  visitFrom (readPrev h) head fuel (← readPrev h head)

/-! ## What the operations mean -/

/-- The ring of the head `list` and the elements `es`, the head's `next` first. -/
abbrev ring (list : Addr) (es : List Addr) : Cycle Addr := (list :: es : List Addr)

/-- The lists there are, each as the cycle of its nodes in the order of `next`. -/
abbrev Rings := Set (Cycle Addr)

/-- The node `a` is on no ring. -/
def Rings.Free (R : Rings) (a : Addr) : Prop := ∀ c ∈ R, a ∉ c

/-- A call of an operation. -/
inductive Op where
  | init (list : Addr)
  | insert (list elem : Addr)
  | remove (elem : Addr)
  | join (list other : Addr)
  deriving DecidableEq, Repr

/-- The nodes that a call names. -/
def Op.nodes : Op → List Addr
  | .init list => [list]
  | .insert list elem => [list, elem]
  | .remove elem => [elem]
  | .join list other => [list, other]

/-- What a call does with memory. -/
def Op.exec (h : Heap) : Op → Except Fault Heap
  | .init list => listInit h list
  | .insert list elem => listInsert h list elem
  | .remove elem => listRemove h elem
  | .join list other => listJoin h list other

/-- **What a call does with the rings**, and the calls that are allowed:

* `list_init` makes a ring of one node that is on no ring yet;
* `list_insert` puts a node that is on no ring right after `list`;
* `list_remove` takes a node off its ring; the last node takes the ring with it;
* `list_join` of two rings moves the nodes behind `other` in front of those behind
  `list`, and `other` itself is on no ring any more. -/
inductive Rings.Step : Rings → Op → Rings → Prop
  | init {R : Rings} {list : Addr} (ne_null : list ≠ null) (free : R.Free list) :
      Step R (.init list) (insert (ring list []) R)
  | insert {R : Rings} {list elem : Addr} {es : List Addr} (ne_null : elem ≠ null)
      (free : R.Free elem) (mem : ring list es ∈ R) :
      Step R (.insert list elem) (insert (ring list (elem :: es)) (R \ {ring list es}))
  | removeLast {R : Rings} {elem : Addr} (mem : ring elem [] ∈ R) :
      Step R (.remove elem) (R \ {ring elem []})
  | remove {R : Rings} {elem first : Addr} {es : List Addr}
      (mem : ring elem (first :: es) ∈ R) :
      Step R (.remove elem) (insert (ring first es) (R \ {ring elem (first :: es)}))
  | join {R : Rings} {list other : Addr} {es fs : List Addr} (mem : ring list es ∈ R)
      (mem_other : ring other fs ∈ R) (distinct : ring list es ≠ ring other fs) :
      Step R (.join list other)
        (insert (ring list (fs ++ es)) (R \ {ring list es, ring other fs}))

/-- Any number of allowed calls. -/
inductive Rings.Run : Rings → List Op → Rings → Prop
  | nil (R : Rings) : Run R [] R
  | cons {R R₁ R₂ : Rings} {op : Op} {ops : List Op} :
      Step R op R₁ → Run R₁ ops R₂ → Run R (op :: ops) R₂

/-! ## Rings in memory -/

/-- The cycle `c` is spelled out by the pointers, in both directions, and no node of
it occurs twice. -/
structure IsRing (h : Heap) (c : Cycle Addr) : Prop where
  nodup : c.Nodup
  not_null : null ∉ c
  linked : c.Chain (Link (fun a => (h a).next) (fun a => (h a).prev))

/-- The memory holds exactly these rings, and no two of them share a node. -/
structure Represents (h : Heap) (R : Rings) : Prop where
  rings : ∀ c ∈ R, IsRing h c
  disjoint : ∀ c ∈ R, ∀ d ∈ R, ∀ a ∈ c, a ∈ d → c = d

/-- A ring, seen from one of its nodes. -/
theorem isRing_cons {h : Heap} {list : Addr} {es : List Addr} :
    IsRing h (ring list es) ↔
      (list :: es).Nodup ∧ null ∉ list :: es ∧
        Segment (fun a => (h a).next) (fun a => (h a).prev) list es list := by
  rw [← chain_iff_segment]
  constructor
  · intro hr
    exact ⟨hr.nodup, hr.not_null, hr.linked⟩
  · rintro ⟨hnodup, hnull, hlinked⟩
    exact ⟨hnodup, hnull, hlinked⟩

/-- **The frame rule for rings.**  A ring whose nodes are not written to stays one. -/
theorem IsRing.congr {h h' : Heap} {c : Cycle Addr} (hc : IsRing h c)
    (hsame : ∀ a ∈ c, h' a = h a) : IsRing h' c where
  nodup := hc.nodup
  not_null := hc.not_null
  linked := by
    have hlinked := hc.linked
    induction c using Cycle.induction_on with
    | nil => exact Cycle.Chain.nil _
    | cons a l _ =>
      rw [chain_iff_segment] at hlinked ⊢
      refine hlinked.congr ?_ ?_
      · intro x hx
        rw [hsame x (Cycle.mem_coe_iff.mpr hx)]
      · intro x hx
        rw [hsame x (Cycle.mem_coe_iff.mpr (by simpa [or_comm] using hx))]

/-- **Replacing rings.**  When the rings `old` give way to one ring `c`, made of nodes
of `old` and of nodes that were on no ring, and only nodes of these are written to, the
other rings stay. -/
theorem Represents.replace {h h' : Heap} {R old : Rings} {c : Cycle Addr}
    (hr : Represents h R) (hc : IsRing h' c) (hold : old ⊆ R)
    (hnodes : ∀ a ∈ c, (∃ d ∈ old, a ∈ d) ∨ R.Free a)
    (hsame : ∀ a, a ∉ c → (∀ d ∈ old, a ∉ d) → h' a = h a) :
    Represents h' (insert c (R \ old)) := by
  have hapart : ∀ d ∈ R \ old, ∀ a ∈ d, (∀ d' ∈ old, a ∉ d') ∧ a ∉ c := by
    rintro d ⟨hd, hdold⟩ a ha
    have hother : ∀ d' ∈ old, a ∉ d' := by
      intro d' hd' ha'
      rw [hr.disjoint d hd d' (hold hd') a ha ha'] at hdold
      exact hdold hd'
    refine ⟨hother, ?_⟩
    intro hac
    rcases hnodes a hac with ⟨d', hd', ha'⟩ | hfree
    · exact hother d' hd' ha'
    · exact hfree d hd ha
  constructor
  · rintro d (rfl | hd)
    · exact hc
    · refine (hr.rings d hd.1).congr ?_
      intro a ha
      obtain ⟨hother, hac⟩ := hapart d hd a ha
      exact hsame a hac hother
  · rintro d (rfl | hd) d' (rfl | hd') a ha ha'
    · rfl
    · exact absurd ha (hapart d' hd' a ha').2
    · exact absurd ha' (hapart d hd a ha).2
    · exact hr.disjoint d hd.1 d' hd'.1 a ha ha'

/-- **Dropping a ring**, when only its own nodes are written to. -/
theorem Represents.drop {h h' : Heap} {R : Rings} {c : Cycle Addr} (hr : Represents h R)
    (hc : c ∈ R) (hsame : ∀ a, a ∉ c → h' a = h a) : Represents h' (R \ {c}) := by
  constructor
  · rintro d ⟨hd, hne⟩
    refine (hr.rings d hd).congr ?_
    intro a ha
    refine hsame a ?_
    intro hac
    exact hne (hr.disjoint d hd c hc a ha hac)
  · rintro d ⟨hd, -⟩ d' ⟨hd', -⟩ a ha ha'
    exact hr.disjoint d hd d' hd' a ha ha'

/-! ## Members of a ring -/

/-- What the pointers of a head are: nodes of its ring, and so not `NULL`. -/
theorem Represents.head {h : Heap} {R : Rings} {list : Addr} {es : List Addr}
    (hr : Represents h R) (hmem : ring list es ∈ R) :
    list ≠ null ∧ (h list).next ∈ es ++ [list] ∧ (h list).next ≠ null ∧
      (h list).prev ∈ list :: es ∧ (h list).prev ≠ null := by
  obtain ⟨-, hnull, hseg⟩ := isRing_cons.mp (hr.rings _ hmem)
  have hnext := hseg.next_mem
  have hprev := hseg.prev_mem
  refine ⟨?_, hnext, ?_, hprev, ?_⟩
  · rintro rfl
    exact hnull List.mem_cons_self
  · intro heq
    rw [heq] at hnext
    exact hnull (by simpa [or_comm] using hnext)
  · intro heq
    rw [heq] at hprev
    exact hnull hprev

/-- The nodes of a ring with the head moved to the end. -/
theorem nodup_rotate {list : Addr} {es : List Addr} (h : (list :: es).Nodup) :
    (es ++ [list]).Nodup :=
  (List.perm_append_singleton list es).nodup_iff.mpr h

/-! ## `list_init` -/

theorem listInit_eq {h : Heap} {list : Addr} (hlist : list ≠ null) :
    listInit h list = .ok (setPrev (setNext h list list) list list) := by
  unfold listInit
  simp [hlist, Bind.bind, Except.bind]

/-- **`list_init`** makes a ring of one node. -/
theorem listInit_spec {h : Heap} {R : Rings} {list : Addr} (hr : Represents h R)
    (hlist : list ≠ null) (hfree : R.Free list) :
    ∃ h', listInit h list = .ok h' ∧ Represents h' (insert (ring list []) R) ∧
      ∀ a, a ≠ list → h' a = h a := by
  have hsame : ∀ a, a ≠ list → setPrev (setNext h list list) list list a = h a := by
    intro a ha
    rw [setPrev_of_ne _ _ ha, setNext_of_ne _ _ ha]
  refine ⟨_, listInit_eq hlist, ?_, hsame⟩
  have hring : IsRing (setPrev (setNext h list list) list list) (ring list []) := by
    rw [isRing_cons, segment_nil]
    refine ⟨List.nodup_singleton list, ?_, ?_, ?_⟩
    · simpa using hlist.symm
    · simp [setNext_next]
    · simp [setPrev_prev]
  rw [← Set.sdiff_empty (s := R)]
  refine hr.replace hring (Set.empty_subset R) ?_ ?_
  · intro a ha
    rw [Cycle.mem_coe_iff, List.mem_singleton] at ha
    exact Or.inr (ha ▸ hfree)
  · intro a ha _
    exact hsame a (by simpa using ha)

/-! ## `list_insert` -/

/-- The memory that `list_insert` leaves. -/
def inserted (h : Heap) (list elem : Addr) : Heap :=
  setPrev (setNext (setNext (setPrev h elem list) elem (h list).next) list elem)
    (h list).next elem

theorem inserted_next (h : Heap) (list elem x : Addr) :
    (inserted h list elem x).next =
      if x = list then elem else if x = elem then (h list).next else (h x).next := by
  simp only [inserted, setPrev_next, setNext_next]

theorem inserted_prev (h : Heap) (list elem x : Addr) :
    (inserted h list elem x).prev =
      if x = (h list).next then elem else if x = elem then list else (h x).prev := by
  simp only [inserted, setNext_prev, setPrev_prev]

theorem inserted_of_ne {h : Heap} {list elem x : Addr} (helem : x ≠ elem) (hlist : x ≠ list)
    (hnext : x ≠ (h list).next) : inserted h list elem x = h x := by
  unfold inserted
  rw [setPrev_of_ne _ _ hnext, setNext_of_ne _ _ hlist, setNext_of_ne _ _ helem,
    setPrev_of_ne _ _ helem]

theorem listInsert_eq {h : Heap} {list elem : Addr} (hlist : list ≠ null) (helem : elem ≠ null)
    (hne : elem ≠ list) (hnext : (h list).next ≠ null) :
    listInsert h list elem = .ok (inserted h list elem) := by
  unfold listInsert inserted
  simp [hlist, helem, hne, hnext, setNext_next, Bind.bind, Except.bind]

/-- The segment from the head to itself now has the new node in front. -/
theorem inserted_segment {h : Heap} {list elem : Addr} {es : List Addr}
    (hseg : Segment (fun a => (h a).next) (fun a => (h a).prev) list es list)
    (hnodup : (list :: es).Nodup) (hnew : elem ∉ list :: es) :
    Segment (fun a => (inserted h list elem a).next) (fun a => (inserted h list elem a).prev)
      list (elem :: es) list := by
  have hnext : (h list).next ∈ es ++ [list] := hseg.next_mem
  have hne : ∀ x ∈ es ++ [list], x ≠ elem := by
    rintro x hx rfl
    exact hnew (by simpa [or_comm] using hx)
  have hne_list : elem ≠ list := (hne list (by simp)).symm
  rw [segment_cons]
  refine ⟨⟨?_, ?_⟩, hseg.restart (nodup_rotate hnodup) ?_ ?_ ?_ ?_⟩
  · simp [inserted_next]
  · simp [inserted_prev, (hne _ hnext).symm]
  · simp [inserted_next, hne_list]
  · simp [inserted_prev]
  · intro x hx
    have hx_list : x ≠ list := by
      rintro rfl
      exact (List.nodup_cons.mp hnodup).1 hx
    simp [inserted_next, hx_list, hne x (List.mem_append_left _ hx)]
  · intro x hx hx_next
    simp [inserted_prev, hx_next, hne x hx]

/-- **`list_insert`** puts the new element right after the head. -/
theorem listInsert_spec {h : Heap} {R : Rings} {list elem : Addr} {es : List Addr}
    (hr : Represents h R) (helem : elem ≠ null) (hfree : R.Free elem)
    (hmem : ring list es ∈ R) :
    ∃ h', listInsert h list elem = .ok h' ∧
      Represents h' (insert (ring list (elem :: es)) (R \ {ring list es})) ∧
      ∀ a, a ≠ elem → a ∉ ring list es → h' a = h a := by
  obtain ⟨hlist, hnext, hnext_null, -, -⟩ := hr.head hmem
  obtain ⟨hnodup, hnull, hseg⟩ := isRing_cons.mp (hr.rings _ hmem)
  have hnew : elem ∉ list :: es := hfree _ hmem
  have hne : elem ≠ list := fun heq => hnew (heq ▸ List.mem_cons_self)
  have hsame : ∀ a, a ≠ elem → a ∉ ring list es → inserted h list elem a = h a := by
    intro a ha hring
    refine inserted_of_ne ha ?_ ?_
    · rintro rfl
      exact hring List.mem_cons_self
    · rintro rfl
      exact hring (by simpa [or_comm] using hnext)
  have hring : IsRing (inserted h list elem) (ring list (elem :: es)) := by
    rw [isRing_cons]
    refine ⟨?_, ?_, inserted_segment hseg hnodup hnew⟩
    · exact (List.Perm.swap list elem es).nodup_iff.mp (List.nodup_cons.mpr ⟨hnew, hnodup⟩)
    · simp only [List.mem_cons, not_or] at hnull ⊢
      exact ⟨hnull.1, helem.symm, hnull.2⟩
  refine ⟨_, listInsert_eq hlist helem hne hnext_null, hr.replace hring ?_ ?_ ?_, hsame⟩
  · rintro d rfl
    exact hmem
  · intro a ha
    simp only [Cycle.mem_coe_iff, List.mem_cons] at ha
    rcases ha with rfl | rfl | ha
    · exact Or.inl ⟨_, rfl, List.mem_cons_self⟩
    · exact Or.inr hfree
    · exact Or.inl ⟨_, rfl, List.mem_cons_of_mem _ ha⟩
  · intro a ha hold
    refine hsame a ?_ (hold _ rfl)
    rintro rfl
    exact ha (by simp)

/-! ## `list_remove` -/

/-- The memory that `list_remove` leaves. -/
def removed (h : Heap) (elem : Addr) : Heap :=
  setNext (setPrev (setPrev (setNext h (h elem).prev (h elem).next)
    (h elem).next (h elem).prev) elem null) elem null

theorem removed_next {h : Heap} {elem x : Addr} (hx : x ≠ elem) :
    (removed h elem x).next = if x = (h elem).prev then (h elem).next else (h x).next := by
  simp only [removed, setNext_next, setPrev_next, if_neg hx]

theorem removed_prev {h : Heap} {elem x : Addr} (hx : x ≠ elem) :
    (removed h elem x).prev = if x = (h elem).next then (h elem).prev else (h x).prev := by
  simp only [removed, setNext_prev, setPrev_prev, if_neg hx]

theorem removed_of_ne {h : Heap} {elem x : Addr} (helem : x ≠ elem) (hnext : x ≠ (h elem).next)
    (hprev : x ≠ (h elem).prev) : removed h elem x = h x := by
  unfold removed
  rw [setNext_of_ne _ _ helem, setPrev_of_ne _ _ helem, setPrev_of_ne _ _ hnext,
    setNext_of_ne _ _ hprev]

theorem listRemove_eq {h : Heap} {elem : Addr} (helem : elem ≠ null)
    (hnext : (h elem).next ≠ null) (hprev : (h elem).prev ≠ null) :
    listRemove h elem = .ok (removed h elem) := by
  have hnext₁ : (setNext h (h elem).prev (h elem).next elem).next = (h elem).next := by
    rw [setNext_next]
    split <;> rfl
  unfold listRemove removed
  simp [helem, hnext, hprev, hnext₁, Bind.bind, Except.bind]

/-- A removal writes to the node and to its two neighbours, which are on its ring. -/
theorem Represents.removed_same {h : Heap} {R : Rings} {elem : Addr} {es : List Addr}
    (hr : Represents h R) (hmem : ring elem es ∈ R) :
    ∀ a, a ∉ ring elem es → removed h elem a = h a := by
  obtain ⟨-, hnext, -, hprev, -⟩ := hr.head hmem
  intro a ha
  refine removed_of_ne ?_ ?_ ?_
  · rintro rfl
    exact ha List.mem_cons_self
  · rintro rfl
    exact ha (by simpa [or_comm] using hnext)
  · rintro rfl
    exact ha hprev

/-- The segment behind the node now ends where it starts. -/
theorem removed_segment {h : Heap} {elem first : Addr} {es : List Addr}
    (hseg : Segment (fun a => (h a).next) (fun a => (h a).prev) elem (first :: es) elem)
    (hnodup : (elem :: first :: es).Nodup) :
    Segment (fun a => (removed h elem a).next) (fun a => (removed h elem a).prev)
      first es first := by
  obtain ⟨⟨hnext, -⟩, hrest⟩ := segment_cons.mp hseg
  obtain ⟨helem_new, hnodup_rest⟩ := List.nodup_cons.mp hnodup
  have hprev_mem : (h elem).prev ∈ first :: es := hrest.prev_mem
  have hne : ∀ x ∈ first :: es, x ≠ elem := by
    rintro x hx rfl
    exact helem_new hx
  refine hrest.refinish hnodup_rest ?_ ?_ ?_ ?_
  · simp [removed_prev (hne first List.mem_cons_self), hnext]
  · simp [removed_next (hne _ hprev_mem), hnext]
  · intro x hx
    have hx_first : x ≠ first := by
      rintro rfl
      exact (List.nodup_cons.mp hnodup_rest).1 hx
    simp [removed_prev (hne x (List.mem_cons_of_mem _ hx)), hnext, hx_first]
  · intro x hx hx_prev
    simp [removed_next (hne x hx), hx_prev]

/-- **`list_remove` of the only node** of a ring takes the ring away. -/
theorem listRemove_last_spec {h : Heap} {R : Rings} {elem : Addr} (hr : Represents h R)
    (hmem : ring elem [] ∈ R) :
    ∃ h', listRemove h elem = .ok h' ∧ Represents h' (R \ {ring elem []}) ∧
      ∀ a, a ∉ ring elem [] → h' a = h a := by
  obtain ⟨helem, -, hnext_null, -, hprev_null⟩ := hr.head hmem
  have hsame := hr.removed_same hmem
  exact ⟨_, listRemove_eq helem hnext_null hprev_null, hr.drop hmem hsame, hsame⟩

/-- **`list_remove`** takes a node off its ring and closes the gap. -/
theorem listRemove_spec {h : Heap} {R : Rings} {elem first : Addr} {es : List Addr}
    (hr : Represents h R) (hmem : ring elem (first :: es) ∈ R) :
    ∃ h', listRemove h elem = .ok h' ∧
      Represents h' (insert (ring first es) (R \ {ring elem (first :: es)})) ∧
      ∀ a, a ∉ ring elem (first :: es) → h' a = h a := by
  obtain ⟨helem, -, hnext_null, -, hprev_null⟩ := hr.head hmem
  obtain ⟨hnodup, hnull, hseg⟩ := isRing_cons.mp (hr.rings _ hmem)
  have hsame := hr.removed_same hmem
  have hring : IsRing (removed h elem) (ring first es) := by
    rw [isRing_cons]
    exact ⟨(List.nodup_cons.mp hnodup).2, fun hn => hnull (List.mem_cons_of_mem _ hn),
      removed_segment hseg hnodup⟩
  refine ⟨_, listRemove_eq helem hnext_null hprev_null, hr.replace hring ?_ ?_ ?_, hsame⟩
  · rintro d rfl
    exact hmem
  · intro a ha
    exact Or.inl ⟨_, rfl, List.mem_cons_of_mem _ ha⟩
  · intro a _ hold
    exact hsame a (hold _ rfl)

/-! ## `list_join` -/

/-- Joining an empty list changes nothing. -/
theorem listJoin_empty {h : Heap} {list other : Addr} (hlist : list ≠ null)
    (hother : other ≠ null) (hne : list ≠ other) (hempty : (h other).next = other) :
    listJoin h list other = .ok h := by
  unfold listJoin listIsEmpty
  simp [hlist, hother, hne, hempty, Bind.bind, Except.bind, pure, Except.pure]

/-- The memory that `list_join` leaves, when the second list is not empty. -/
def joined (h : Heap) (list other : Addr) : Heap :=
  setNext (setPrev (setNext (setPrev h (h other).next list) (h other).prev (h list).next)
    (h list).next (h other).prev) list (h other).next

theorem joined_next (h : Heap) (list other x : Addr) :
    (joined h list other x).next =
      if x = list then (h other).next
      else if x = (h other).prev then (h list).next else (h x).next := by
  simp only [joined, setNext_next, setPrev_next]

theorem joined_prev (h : Heap) (list other x : Addr) :
    (joined h list other x).prev =
      if x = (h list).next then (h other).prev
      else if x = (h other).next then list else (h x).prev := by
  simp only [joined, setNext_prev, setPrev_prev]

theorem joined_of_ne {h : Heap} {list other x : Addr} (hlist : x ≠ list)
    (hnext : x ≠ (h list).next) (hnext' : x ≠ (h other).next) (hprev : x ≠ (h other).prev) :
    joined h list other x = h x := by
  unfold joined
  rw [setNext_of_ne _ _ hlist, setPrev_of_ne _ _ hnext, setNext_of_ne _ _ hprev,
    setPrev_of_ne _ _ hnext']

theorem listJoin_eq {h : Heap} {list other : Addr} (hlist : list ≠ null)
    (hother : other ≠ null) (hne : list ≠ other) (hnext_list : (h list).next ≠ null)
    (hnext : (h other).next ≠ null) (hprev : (h other).prev ≠ null)
    (hnext_ne : other ≠ (h other).next) (hprev_ne : (h other).prev ≠ other)
    (hprev_list : (h other).prev ≠ list) :
    listJoin h list other = .ok (joined h list other) := by
  unfold listJoin listIsEmpty joined
  simp [hlist, hother, hne, hnext_list, hnext, hprev, hnext_ne, hprev_ne.symm, hprev_list.symm,
    setNext_next, setPrev_prev, Bind.bind, Except.bind, pure, Except.pure]

section Join

variable {h : Heap} {list other last : Addr} {es fs : List Addr}

/-- From the first head the way now leads over the elements of the second list to the
last of them. -/
theorem joined_front
    (hseg : Segment (fun a => (h a).next) (fun a => (h a).prev) other fs last)
    (hlast : (h other).prev = last) (hnext_list : (h list).next ∈ es ++ [list])
    (hnodup : (fs ++ [last]).Nodup) (hapart : ∀ a ∈ fs ++ [last], a ∉ list :: es) :
    Segment (fun a => (joined h list other a).next) (fun a => (joined h list other a).prev)
      list fs last := by
  have hne : ∀ x ∈ fs ++ [last], x ≠ (h list).next ∧ x ≠ list := by
    intro x hx
    constructor
    · rintro rfl
      exact hapart _ hx (by simpa [or_comm] using hnext_list)
    · rintro rfl
      exact hapart _ hx List.mem_cons_self
  refine hseg.restart hnodup ?_ ?_ ?_ ?_
  · simp [joined_next]
  · simp [joined_prev, (hne _ hseg.next_mem).1]
  · intro x hx
    have hx_last : x ≠ last := by
      rintro rfl
      exact List.disjoint_of_nodup_append hnodup hx List.mem_cons_self
    simp [joined_next, hlast, hx_last, (hne x (List.mem_append_left _ hx)).2]
  · intro x hx hx_next
    simp [joined_prev, hx_next, (hne x hx).1]

/-- And from there over the elements of the first list back to its head. -/
theorem joined_back
    (hseg : Segment (fun a => (h a).next) (fun a => (h a).prev) list es list)
    (hlast : (h other).prev = last) (hlast_mem : last ∉ list :: es)
    (hnext : (h other).next ∉ list :: es) (hnodup : (list :: es).Nodup) :
    Segment (fun a => (joined h list other a).next) (fun a => (joined h list other a).prev)
      last es list := by
  have hlast_list : last ≠ list := by
    rintro rfl
    exact hlast_mem List.mem_cons_self
  refine hseg.restart (nodup_rotate hnodup) ?_ ?_ ?_ ?_
  · simp [joined_next, hlast, hlast_list]
  · simp [joined_prev, hlast]
  · intro x hx
    have hx_list : x ≠ list := by
      rintro rfl
      exact (List.nodup_cons.mp hnodup).1 hx
    have hx_last : x ≠ last := by
      rintro rfl
      exact hlast_mem (List.mem_cons_of_mem _ hx)
    simp [joined_next, hlast, hx_list, hx_last]
  · intro x hx hx_next
    have hx_first : x ≠ (h other).next := by
      rintro rfl
      exact hnext (by simpa [or_comm] using hx)
    simp [joined_prev, hx_next, hx_first]

/-- No node of two distinct rings without the head of the second occurs twice. -/
theorem nodup_join (hnodup : (list :: es).Nodup) (hnodup_other : (other :: fs).Nodup)
    (hapart : ∀ a ∈ list :: es, a ∉ other :: fs) : (list :: (fs ++ es)).Nodup := by
  have hall : ((list :: es) ++ (other :: fs)).Nodup :=
    List.Nodup.append hnodup hnodup_other hapart
  have hperm : ((list :: es) ++ (other :: fs)).Perm (other :: list :: (fs ++ es)) := by
    refine List.perm_middle.trans (List.Perm.cons _ (List.Perm.cons _ ?_))
    exact List.perm_append_comm
  exact (List.nodup_cons.mp (hperm.nodup_iff.mp hall)).2

/-- Two rings give way to one with the nodes of both, the second head apart. -/
theorem Represents.join {h' : Heap} {R : Rings} (hr : Represents h R) (hmem : ring list es ∈ R)
    (hmem_other : ring other fs ∈ R) (hdistinct : ring list es ≠ ring other fs)
    (hclosed : Segment (fun a => (h' a).next) (fun a => (h' a).prev) list (fs ++ es) list)
    (hsame : ∀ a, a ∉ ring list es → a ∉ ring other fs → h' a = h a) :
    Represents h' (insert (ring list (fs ++ es)) (R \ {ring list es, ring other fs})) := by
  obtain ⟨hnodup, hnull, -⟩ := isRing_cons.mp (hr.rings _ hmem)
  obtain ⟨hnodup_other, hnull_other, -⟩ := isRing_cons.mp (hr.rings _ hmem_other)
  have hring_nodup : (list :: (fs ++ es)).Nodup := by
    refine nodup_join hnodup hnodup_other ?_
    intro a ha ha'
    exact hdistinct (hr.disjoint _ hmem _ hmem_other a ha ha')
  have hring_null : null ∉ list :: (fs ++ es) := by
    simp only [List.mem_cons, List.mem_append, not_or] at hnull hnull_other ⊢
    exact ⟨hnull.1, hnull_other.2, hnull.2⟩
  refine hr.replace (isRing_cons.mpr ⟨hring_nodup, hring_null, hclosed⟩) ?_ ?_ ?_
  · rintro d (rfl | rfl)
    · exact hmem
    · exact hmem_other
  · intro a ha
    left
    simp only [Cycle.mem_coe_iff, List.mem_cons, List.mem_append] at ha
    rcases ha with rfl | ha | ha
    · exact ⟨_, Or.inl rfl, List.mem_cons_self⟩
    · exact ⟨_, Or.inr rfl, List.mem_cons_of_mem _ ha⟩
    · exact ⟨_, Or.inl rfl, List.mem_cons_of_mem _ ha⟩
  · intro a _ hold
    exact hsame a (hold _ (Or.inl rfl)) (hold _ (Or.inr rfl))

/-- **`list_join`** moves the elements of the second list in front of those of the
first. -/
theorem listJoin_spec {R : Rings} (hr : Represents h R) (hmem : ring list es ∈ R)
    (hmem_other : ring other fs ∈ R) (hdistinct : ring list es ≠ ring other fs) :
    ∃ h', listJoin h list other = .ok h' ∧
      Represents h' (insert (ring list (fs ++ es)) (R \ {ring list es, ring other fs})) ∧
      ∀ a, a ∉ ring list es → a ∉ ring other fs → h' a = h a := by
  obtain ⟨hlist, hnext_list, hnext_list_null, -, -⟩ := hr.head hmem
  obtain ⟨hother, -, hnext_null, -, hprev_null⟩ := hr.head hmem_other
  obtain ⟨hnodup, -, hseg⟩ := isRing_cons.mp (hr.rings _ hmem)
  obtain ⟨hnodup_other, -, hseg_other⟩ := isRing_cons.mp (hr.rings _ hmem_other)
  obtain ⟨hother_fs, hnodup_fs⟩ := List.nodup_cons.mp hnodup_other
  have hapart : ∀ a ∈ other :: fs, a ∉ list :: es := by
    intro a ha ha'
    exact hdistinct (hr.disjoint _ hmem _ hmem_other a ha' ha)
  have hne : list ≠ other := by
    rintro rfl
    exact hapart list List.mem_cons_self List.mem_cons_self
  rcases List.eq_nil_or_concat fs with rfl | ⟨fs₀, last, hfs⟩
  · have hempty : (h other).next = other := (segment_nil.mp hseg_other).1
    exact ⟨h, listJoin_empty hlist hother hne hempty,
      hr.join hmem hmem_other hdistinct hseg (fun _ _ _ => rfl), fun _ _ _ => rfl⟩
  rw [List.concat_eq_append] at hfs
  subst hfs
  obtain ⟨hfront, hlast_seg⟩ := Segment.append.mp hseg_other
  have hlast : (h other).prev = last := (segment_nil.mp hlast_seg).2
  have hfirst_mem : (h other).next ∈ fs₀ ++ [last] := hfront.next_mem
  have hlast_mem : last ∈ fs₀ ++ [last] := by simp
  have hother_ne : ∀ a ∈ fs₀ ++ [last], a ≠ other := by
    rintro a ha rfl
    exact hother_fs ha
  have hfs_apart : ∀ a ∈ fs₀ ++ [last], a ∉ list :: es :=
    fun a ha => hapart a (List.mem_cons_of_mem _ ha)
  have hprev_list : (h other).prev ≠ list := by
    rw [hlast]
    rintro rfl
    exact hfs_apart _ hlast_mem List.mem_cons_self
  have hsame : ∀ a, a ∉ ring list es → a ∉ ring other (fs₀ ++ [last]) →
      joined h list other a = h a := by
    intro a ha ha'
    refine joined_of_ne ?_ ?_ ?_ ?_
    · rintro rfl
      exact ha List.mem_cons_self
    · rintro rfl
      exact ha (by simpa [or_comm] using hnext_list)
    · rintro rfl
      exact ha' (List.mem_cons_of_mem _ hfirst_mem)
    · rw [hlast]
      rintro rfl
      exact ha' (List.mem_cons_of_mem _ hlast_mem)
  have hclosed : Segment (fun a => (joined h list other a).next)
      (fun a => (joined h list other a).prev) list (fs₀ ++ [last] ++ es) list := by
    rw [List.append_assoc, List.singleton_append]
    exact Segment.append.mpr
      ⟨joined_front hfront hlast hnext_list hnodup_fs hfs_apart,
        joined_back hseg hlast (hfs_apart _ hlast_mem) (hfs_apart _ hfirst_mem) hnodup⟩
  exact ⟨_, listJoin_eq hlist hother hne hnext_list_null hnext_null hprev_null
      (hother_ne _ hfirst_mem).symm (by rw [hlast]; exact hother_ne _ hlast_mem) hprev_list,
    hr.join hmem hmem_other hdistinct hclosed hsame, hsame⟩

end Join

/-! ## Going round a ring -/

/-- A loop over a segment visits its inner nodes. -/
theorem visitFrom_eq {link : Addr → Except Fault Addr} {f g : Addr → Addr}
    (hlink : ∀ a, a ≠ null → link a = .ok (f a)) {head : Addr} :
    ∀ {l : List Addr} {a : Addr}, Segment f g a l head → head ∉ l → null ∉ l →
      ∀ fuel, l.length < fuel → visitFrom link head fuel (f a) = .ok l := by
  intro l
  induction l with
  | nil =>
    intro a hseg _ _ fuel hfuel
    obtain ⟨fuel, rfl⟩ := Nat.exists_eq_succ_of_ne_zero (Nat.ne_of_gt hfuel)
    unfold visitFrom
    rw [(segment_nil.mp hseg).1, if_pos rfl]
  | cons x l ih =>
    intro a hseg hhead hnull fuel hfuel
    obtain ⟨⟨hax, -⟩, hrest⟩ := segment_cons.mp hseg
    simp only [List.mem_cons, not_or] at hhead hnull
    obtain ⟨fuel, rfl⟩ := Nat.exists_eq_succ_of_ne_zero (by omega : fuel ≠ 0)
    have hvisit := ih hrest hhead.2 hnull.2 fuel (by simpa using hfuel)
    unfold visitFrom
    rw [hax, if_neg (Ne.symm hhead.1), hlink x (Ne.symm hnull.1)]
    simp [hvisit, Bind.bind, Except.bind, pure, Except.pure]

/-- The loop of `list_length` counts the inner nodes of a segment. -/
theorem lengthFrom_eq {h : Heap} {list : Addr} :
    ∀ {l : List Addr} {a : Addr},
      Segment (fun a => (h a).next) (fun a => (h a).prev) a l list → list ∉ l → null ∉ l →
      ∀ fuel len, l.length < fuel → len + l.length < 2 ^ 64 →
        lengthFrom h list fuel (h a).next len = .ok (len + l.length) := by
  intro l
  induction l with
  | nil =>
    intro a hseg _ _ fuel len hfuel _
    obtain ⟨fuel, rfl⟩ := Nat.exists_eq_succ_of_ne_zero (Nat.ne_of_gt hfuel)
    unfold lengthFrom
    rw [(segment_nil.mp hseg).1, if_pos rfl]
    rfl
  | cons x l ih =>
    intro a hseg hlist hnull fuel len hfuel hlen
    obtain ⟨⟨hax, -⟩, hrest⟩ := segment_cons.mp hseg
    simp only [List.mem_cons, not_or] at hlist hnull
    rw [List.length_cons] at hfuel hlen
    obtain ⟨fuel, rfl⟩ := Nat.exists_eq_succ_of_ne_zero (by omega : fuel ≠ 0)
    have hcount := ih hrest hlist.2 hnull.2 fuel (len + 1) (by omega) (by omega)
    unfold lengthFrom
    rw [hax, if_neg (Ne.symm hlist.1), readNext_of_ne (Ne.symm hnull.1),
      wrap64_of_lt (by omega)]
    simp only [Bind.bind, Except.bind]
    rw [hcount, List.length_cons]
    congr 1
    omega

/-- There are fewer elements than pointers. -/
theorem length_lt_of_nodup {list : Addr} {es : List Addr} (h : (list :: es).Nodup) :
    es.length < 2 ^ 64 := by
  have hmap : ((list :: es).map BitVec.toNat).Nodup :=
    h.map (fun _ _ heq => BitVec.eq_of_toNat_eq heq)
  have hsub : (list :: es).map BitVec.toNat ⊆ List.range (2 ^ 64) := by
    intro n hn
    obtain ⟨a, -, rfl⟩ := List.mem_map.mp hn
    exact List.mem_range.mpr a.isLt
  have hle := (List.subperm_of_subset hmap hsub).length_le
  simp only [List.length_map, List.length_cons, List.length_range] at hle
  omega

/-- **A ring is its sequence of elements**, from each of its nodes taken as the head:
forwards, backwards, and in number. -/
theorem Represents.traversals {h : Heap} {R : Rings} {list : Addr} {es : List Addr}
    (hr : Represents h R) (hmem : ring list es ∈ R) {fuel : ℕ} (hfuel : es.length < fuel) :
    listForEach fuel h list = .ok es ∧ listForEachReverse fuel h list = .ok es.reverse ∧
      listLength fuel h list = .ok es.length := by
  obtain ⟨hlist, -, -, -, -⟩ := hr.head hmem
  obtain ⟨hnodup, hnull, hseg⟩ := isRing_cons.mp (hr.rings _ hmem)
  have hlist_es := (List.nodup_cons.mp hnodup).1
  have hnull_es : null ∉ es := fun hn => hnull (List.mem_cons_of_mem _ hn)
  refine ⟨?_, ?_, ?_⟩
  · unfold listForEach
    rw [readNext_of_ne hlist]
    exact visitFrom_eq (fun a ha => readNext_of_ne ha) hseg hlist_es hnull_es fuel hfuel
  · unfold listForEachReverse
    rw [readPrev_of_ne hlist]
    refine visitFrom_eq (fun a ha => readPrev_of_ne ha) hseg.reverse ?_ ?_ fuel ?_
    · simpa using hlist_es
    · simpa using hnull_es
    · simpa using hfuel
  · unfold listLength
    rw [assert_bne _ hlist, readNext_of_ne hlist]
    have hcount := lengthFrom_eq hseg hlist_es hnull_es fuel 0 hfuel
      (by have := length_lt_of_nodup hnodup; omega)
    simpa [Bind.bind, Except.bind] using hcount

/-! ## Runs -/

/-- A ring without one node of another ring shares none with it. -/
theorem Represents.spared {h : Heap} {R : Rings} {c d : Cycle Addr} {a : Addr}
    (hr : Represents h R) (hc : c ∈ R) (hd : d ∈ R) (had : a ∈ d) (hac : a ∉ c) :
    c ≠ d ∧ ∀ b ∈ c, b ∉ d := by
  have hne : c ≠ d := by
    rintro rfl
    exact hac had
  refine ⟨hne, ?_⟩
  intro b hb hb'
  exact hne (hr.disjoint c hc d hd b hb hb')

/-- **One call** does with memory what `Rings.Step` says it does with the rings, and
leaves the rings alone on which it names no node. -/
theorem Op.exec_spec {h : Heap} {R R' : Rings} {op : Op} (hr : Represents h R)
    (hstep : Rings.Step R op R') :
    ∃ h', op.exec h = .ok h' ∧ Represents h' R' ∧
      ∀ c ∈ R, (∀ a ∈ op.nodes, a ∉ c) → c ∈ R' ∧ ∀ a ∈ c, h' a = h a := by
  cases hstep with
  | @init list hlist hfree =>
    obtain ⟨h', hexec, hr', hsame⟩ := listInit_spec hr hlist hfree
    refine ⟨h', hexec, hr', ?_⟩
    intro c hc hspare
    refine ⟨Set.mem_insert_of_mem _ hc, ?_⟩
    intro a ha
    refine hsame a ?_
    rintro rfl
    exact hspare a (by simp [Op.nodes]) ha
  | @insert list elem es helem hfree hmem =>
    obtain ⟨h', hexec, hr', hsame⟩ := listInsert_spec hr helem hfree hmem
    refine ⟨h', hexec, hr', ?_⟩
    intro c hc hspare
    obtain ⟨hne, hapart⟩ :=
      hr.spared hc hmem List.mem_cons_self (hspare list (by simp [Op.nodes]))
    refine ⟨Set.mem_insert_of_mem _ ⟨hc, hne⟩, ?_⟩
    intro a ha
    refine hsame a ?_ (hapart a ha)
    rintro rfl
    exact hspare a (by simp [Op.nodes]) ha
  | @removeLast elem hmem =>
    obtain ⟨h', hexec, hr', hsame⟩ := listRemove_last_spec hr hmem
    refine ⟨h', hexec, hr', ?_⟩
    intro c hc hspare
    obtain ⟨hne, hapart⟩ :=
      hr.spared hc hmem List.mem_cons_self (hspare elem (by simp [Op.nodes]))
    exact ⟨⟨hc, hne⟩, fun a ha => hsame a (hapart a ha)⟩
  | @remove elem first es hmem =>
    obtain ⟨h', hexec, hr', hsame⟩ := listRemove_spec hr hmem
    refine ⟨h', hexec, hr', ?_⟩
    intro c hc hspare
    obtain ⟨hne, hapart⟩ :=
      hr.spared hc hmem List.mem_cons_self (hspare elem (by simp [Op.nodes]))
    exact ⟨Set.mem_insert_of_mem _ ⟨hc, hne⟩, fun a ha => hsame a (hapart a ha)⟩
  | @join list other es fs hmem hmem_other hdistinct =>
    obtain ⟨h', hexec, hr', hsame⟩ := listJoin_spec hr hmem hmem_other hdistinct
    refine ⟨h', hexec, hr', ?_⟩
    intro c hc hspare
    obtain ⟨hne, hapart⟩ :=
      hr.spared hc hmem List.mem_cons_self (hspare list (by simp [Op.nodes]))
    obtain ⟨hne_other, hapart_other⟩ :=
      hr.spared hc hmem_other List.mem_cons_self (hspare other (by simp [Op.nodes]))
    refine ⟨Set.mem_insert_of_mem _ ⟨hc, ?_⟩,
      fun a ha => hsame a (hapart a ha) (hapart_other a ha)⟩
    rintro (rfl | rfl)
    · exact hne rfl
    · exact hne_other rfl

/-- **List rings behave as sequences.**  Whatever disjoint rings there are at first,
every sequence of allowed calls returns, and leaves the rings that `Rings.Step` says:
each of them spells out its elements forwards, backwards and in number, from any of its
nodes, and a ring of which the calls name no node is left as it was. -/
theorem ring_runs {h : Heap} {R R' : Rings} {ops : List Op} (hr : Represents h R)
    (hrun : Rings.Run R ops R') :
    ∃ h', GuardedRun.exec Op.exec h ops = .ok h' ∧ Represents h' R' ∧
      (∀ list es fuel, ring list es ∈ R' → es.length < fuel →
        listForEach fuel h' list = .ok es ∧ listForEachReverse fuel h' list = .ok es.reverse ∧
          listLength fuel h' list = .ok es.length) ∧
      ∀ c ∈ R, (∀ op ∈ ops, ∀ a ∈ op.nodes, a ∉ c) → c ∈ R' ∧ ∀ a ∈ c, h' a = h a := by
  induction hrun generalizing h with
  | nil R =>
    exact ⟨h, rfl, hr, fun list es fuel hmem hfuel => hr.traversals hmem hfuel,
      fun c hc _ => ⟨hc, fun _ _ => rfl⟩⟩
  | @cons R R₁ R₂ op ops hstep _ ih =>
    obtain ⟨h₁, hexec, hr₁, hframe₁⟩ := Op.exec_spec hr hstep
    obtain ⟨h₂, hrest, hr₂, htrav, hframe₂⟩ := ih hr₁
    refine ⟨h₂, ?_, hr₂, htrav, ?_⟩
    · unfold GuardedRun.exec
      rw [hexec]
      exact hrest
    · intro c hc hspare
      obtain ⟨hc₁, hsame₁⟩ := hframe₁ c hc (hspare op List.mem_cons_self)
      obtain ⟨hc₂, hsame₂⟩ :=
        hframe₂ c hc₁ (fun op' hop => hspare op' (List.mem_cons_of_mem _ hop))
      exact ⟨hc₂, fun a ha => (hsame₂ a ha).trans (hsame₁ a ha)⟩

/-- Two lists of one element each, joined. -/
theorem ring_runs_join :
    ∃ h', GuardedRun.exec Op.exec (fun _ => ⟨0, 0⟩)
        [.init 16, .insert 16 32, .init 48, .insert 48 64, .join 16 48] = .ok h' ∧
      listForEach 3 h' 16 = .ok [64, 32] := by
  have hempty : Represents (fun _ => ⟨0, 0⟩) ∅ := ⟨by simp, by simp⟩
  have hdistinct : ring 16 [32] ≠ ring 48 [64] := by decide
  have hinit : Rings.Step ∅ (.init 16) (insert (ring 16 []) ∅) :=
    .init (by decide) (by simp [Rings.Free])
  have hinsert : Rings.Step (insert (ring 16 []) ∅) (.insert 16 32)
      (insert (ring 16 [32]) (insert (ring 16 []) ∅ \ {ring 16 []})) :=
    .insert (by decide) (by simp [Rings.Free]) (by simp)
  generalize hR : (insert (ring 16 [32]) (insert (ring 16 []) ∅ \ {ring 16 []}) : Rings) = R
    at hinsert
  have hinit' : Rings.Step R (.init 48) (insert (ring 48 []) R) :=
    .init (by decide) (by simp [← hR, Rings.Free])
  have hinsert' : Rings.Step (insert (ring 48 []) R) (.insert 48 64)
      (insert (ring 48 [64]) (insert (ring 48 []) R \ {ring 48 []})) :=
    .insert (by decide) (by simp [← hR, Rings.Free]) (by simp)
  generalize hR₁ : (insert (ring 48 [64]) (insert (ring 48 []) R \ {ring 48 []}) : Rings) = R₁
    at hinsert'
  have hjoin : Rings.Step R₁ (.join 16 48)
      (insert (ring 16 [64, 32]) (R₁ \ {ring 16 [32], ring 48 [64]})) :=
    .join (by simp [← hR₁, ← hR]) (by simp [← hR₁]) hdistinct
  obtain ⟨h', hexec, -, htrav, -⟩ := ring_runs hempty
    (.cons hinit (.cons hinsert (.cons hinit' (.cons hinsert' (.cons hjoin (.nil _))))))
  exact ⟨h', hexec, (htrav 16 [64, 32] 3 (Set.mem_insert _ _) (by decide)).1⟩

end Mimik.ListRing
