/-
# Segments of doubly linked rings

Nodes of any type carry two links, `next` and `prev`.  `Segment next prev a l b` says
that following `next` from `a` visits the nodes of `l` in order and then `b`, and that
`prev` goes the same way back.  A ring with the node `a` on it is a segment from `a`
to `a`, so that cutting a ring open, relinking it and closing it again are statements
about segments:

* `Segment.append` cuts a segment at one of its nodes;
* `Segment.congr` carries it over to links that agree on its nodes;
* `Segment.restart` and `Segment.refinish` replace its first and its last node, which
  changes one `next` and one `prev`;
* `Segment.reverse` reads it backwards.

Nothing here mentions a particular memory.
-/
import Mathlib.Data.List.Cycle

namespace LinkedRing

variable {α : Type*} {next prev next' prev' : α → α} {a a' b b' x : α} {l m : List α}

/-! ## Links and segments -/

/-- `a` and `b` are linked both ways. -/
def Link (next prev : α → α) (a b : α) : Prop := next a = b ∧ prev b = a

/-- The nodes from `a` over those of `l` to `b` are linked both ways. -/
def Segment (next prev : α → α) (a : α) (l : List α) (b : α) : Prop :=
  List.IsChain (Link next prev) (a :: (l ++ [b]))

@[simp] theorem segment_nil : Segment next prev a [] b ↔ next a = b ∧ prev b = a := by
  unfold Segment
  simp [Link]

theorem segment_cons :
    Segment next prev a (x :: l) b ↔ (next a = x ∧ prev x = a) ∧ Segment next prev x l b := by
  unfold Segment
  rw [List.cons_append, List.isChain_cons_cons]
  rfl

/-- **A ring is a segment from one of its nodes back to it.** -/
theorem chain_iff_segment :
    Cycle.Chain (Link next prev) (a :: l : List α) ↔ Segment next prev a l a :=
  Cycle.chain_coe_cons _ _ _

/-- **Cutting a segment at a node.** -/
theorem Segment.append :
    Segment next prev a (l ++ x :: m) b ↔
      Segment next prev a l x ∧ Segment next prev x m b := by
  unfold Segment
  rw [List.append_assoc, List.cons_append, List.isChain_cons_split]

/-- The first step of a segment. -/
theorem Segment.next_eq (h : Segment next prev a l b) : (l ++ [b]).head? = some (next a) := by
  cases l with
  | nil => simp [(segment_nil.mp h).1]
  | cons x l => simp [(segment_cons.mp h).1.1]

/-- Every step of a segment goes to one of its nodes. -/
theorem Segment.next_mem (h : Segment next prev a l b) : next a ∈ l ++ [b] :=
  List.mem_of_mem_head? h.next_eq

/-! ## Reading a segment backwards -/

/-- **The way back.**  With the links exchanged, a segment is its own reverse. -/
theorem Segment.reverse (h : Segment next prev a l b) : Segment prev next b l.reverse a := by
  have hflip : (fun x y => Link next prev y x) = Link prev next := by
    funext x y
    unfold Link
    rw [and_comm]
  unfold Segment at h ⊢
  have hrev : b :: (l.reverse ++ [a]) = (a :: (l ++ [b])).reverse := by simp
  rw [hrev, List.isChain_reverse, ← hflip]
  exact h

/-- The last step of a segment, seen from its end. -/
theorem Segment.prev_eq (h : Segment next prev a l b) : (a :: l).getLast? = some (prev b) := by
  have hhead := h.reverse.next_eq
  rw [← List.reverse_cons, List.head?_reverse] at hhead
  exact hhead

/-- The way back from the end of a segment leads to one of its nodes. -/
theorem Segment.prev_mem (h : Segment next prev a l b) : prev b ∈ a :: l :=
  List.mem_of_mem_getLast? h.prev_eq

/-! ## Changing links -/

/-- **The frame rule.**  A segment depends on `next` of its nodes but the last, and on
`prev` of its nodes but the first. -/
theorem Segment.congr (h : Segment next prev a l b) (hnext : ∀ x ∈ a :: l, next' x = next x)
    (hprev : ∀ x ∈ l ++ [b], prev' x = prev x) : Segment next' prev' a l b := by
  induction l generalizing a with
  | nil =>
    rw [segment_nil] at h ⊢
    rw [hnext a (by simp), hprev b (by simp)]
    exact h
  | cons y l ih =>
    rw [segment_cons] at h ⊢
    constructor
    · rw [hnext a (by simp), hprev y (by simp)]
      exact h.1
    · exact ih h.2 (fun x hx => hnext x (List.mem_cons_of_mem _ hx))
        (fun x hx => hprev x (List.mem_cons_of_mem _ hx))

/-- **Another first node.**  The links that change are `next` of the new first node
and `prev` of the node behind it. -/
theorem Segment.restart (h : Segment next prev a l b) (hnodup : (l ++ [b]).Nodup)
    (hfirst : next' a' = next a) (hback : prev' (next a) = a')
    (hnext : ∀ x ∈ l, next' x = next x)
    (hprev : ∀ x ∈ l ++ [b], x ≠ next a → prev' x = prev x) : Segment next' prev' a' l b := by
  cases l with
  | nil =>
    rw [segment_nil] at h ⊢
    rw [hfirst, ← h.1]
    exact ⟨rfl, hback⟩
  | cons y l =>
    rw [segment_cons] at h ⊢
    obtain ⟨⟨hay, -⟩, hrest⟩ := h
    rw [hay] at hfirst hback hprev
    refine ⟨⟨hfirst, hback⟩, hrest.congr hnext ?_⟩
    intro x hx
    refine hprev x (List.mem_cons_of_mem _ hx) ?_
    rintro rfl
    exact (List.nodup_cons.mp hnodup).1 hx

/-- **Another last node.**  The mirror image of `Segment.restart`. -/
theorem Segment.refinish (h : Segment next prev a l b) (hnodup : (a :: l).Nodup)
    (hlast : prev' b' = prev b) (hback : next' (prev b) = b')
    (hprev : ∀ x ∈ l, prev' x = prev x)
    (hnext : ∀ x ∈ a :: l, x ≠ prev b → next' x = next x) : Segment next' prev' a l b' := by
  have hmem : ∀ x, x ∈ l.reverse ++ [a] ↔ x ∈ a :: l := by
    intro x
    simp [or_comm]
  have hrev : Segment prev' next' b' l.reverse a := by
    refine h.reverse.restart ?_ hlast hback ?_ ?_
    · rw [← List.reverse_cons, List.nodup_reverse]
      exact hnodup
    · intro x hx
      exact hprev x (List.mem_reverse.mp hx)
    · intro x hx
      exact hnext x ((hmem x).mp hx)
  simpa using hrev.reverse

end LinkedRing
