/-
# Handing out entries to names

Entries `e 0`, `e 1`, … are handed out to the names of a list, in order.  A name that has
an entry is passed over.  Names may be names of one thing: `same` says which are, and a
name that gets an entry gets it for all of them.

`handout` is what the names have in the end, and `gone` the names that were gone through
before `n` entries were handed out.  When the first `n` names of the list have nothing and
name different things, they get the entries in order, and no other name changes but those
that name one of these things (`handout_fresh`, `handout_other`).

Nothing here mentions a particular kind of names.
-/
import Mathlib.Tactic.Common
import Mathlib.Data.List.TakeDrop

namespace Handout

variable {α E : Type*} (same : α → α → Prop) [DecidableRel same] (e : ℕ → E)

/-- What the names have when `n` entries, from `e k` on, were handed out to the names of a
list. -/
def handout : List α → ℕ → ℕ → (α → Option E) → α → Option E
  | [], _, _, has => has
  | u :: L, k, n, has =>
    if n = 0 then has
    else if (has u).isSome then handout L k n has
    else handout L (k + 1) (n - 1) fun v => if same v u then some (e k) else has v

/-- The names that are gone through. -/
def gone : List α → ℕ → (α → Bool) → List α
  | [], _, _ => []
  | u :: L, n, has =>
    if n = 0 then []
    else u :: if has u then gone L n has else gone L (n - 1) fun v => decide (same v u) || has v

variable {same e} {L : List α} {k n : ℕ} {has has' : α → Option E} {u v : α} {b : α → Bool}

theorem handout_zero : handout same e L k 0 has = has := by
  cases L with
  | nil => rfl
  | cons u L => rw [handout, if_pos rfl]

theorem gone_zero : gone same L 0 b = [] := by
  cases L with
  | nil => rfl
  | cons u L => rw [gone, if_pos rfl]

theorem gone_subset : gone same L n b ⊆ L := by
  induction L generalizing n b with
  | nil => exact List.Subset.refl _
  | cons u L ih =>
    rw [gone]
    split
    · exact List.nil_subset _
    · split
      · exact List.cons_subset_cons u ih
      · exact List.cons_subset_cons u ih

/-! ## Names that are told apart -/

/-- Only what is the same among the names at hand, and what they have, matters. -/
theorem handout_congr {same' : α → α → Prop} [DecidableRel same'] (S : α → Prop)
    (hsame : ∀ u v, S u → S v → (same' u v ↔ same u v)) (hL : ∀ u ∈ L, S u)
    (hhas : ∀ u, S u → has' u = has u) (hv : S v) :
    handout same' e L k n has' v = handout same e L k n has v := by
  induction L generalizing k n has has' with
  | nil => exact hhas v hv
  | cons u L ih =>
    have hu := hL u List.mem_cons_self
    have hrest : ∀ w ∈ L, S w := fun w hw => hL w (List.mem_cons_of_mem u hw)
    rw [handout, handout, hhas u hu]
    split
    · exact hhas v hv
    · split
      · exact ih hrest hhas
      · apply ih hrest
        intro w hw
        rw [hhas w hw]
        exact if_congr (hsame w u hw hu) rfl rfl

/-- The names that are gone through are the same when they have the same, and are the same among
themselves. -/
theorem gone_eq_gone {same' : α → α → Prop} [DecidableRel same'] {b' : α → Bool} (S : α → Prop)
    (hsame : ∀ u v, S u → S v → (same' u v ↔ same u v)) (hL : ∀ u ∈ gone same L n b, S u)
    (hb : ∀ u, S u → b' u = b u) : gone same' L n b' = gone same L n b := by
  induction L generalizing n b b' with
  | nil => rfl
  | cons u L ih =>
    rw [gone] at hL ⊢
    rw [gone]
    split
    next => rfl
    next hn =>
      rw [if_neg hn] at hL
      have hu := hL u List.mem_cons_self
      rw [hb u hu]
      split
      next hfree =>
        rw [if_pos hfree] at hL
        rw [ih (fun w hw => hL w (List.mem_cons_of_mem u hw)) hb]
      next hfree =>
        rw [if_neg hfree] at hL
        rw [ih (fun w hw => hL w (List.mem_cons_of_mem u hw)) fun w hw => ?_]
        rw [hb w hw]
        congr 1
        exact decide_eq_decide.mpr (hsame w u hw hu)

theorem gone_congr {same' : α → α → Prop} [DecidableRel same'] {b' : α → Bool} (S : α → Prop)
    (hsame : ∀ u v, S u → S v → (same' u v ↔ same u v)) (hL : ∀ u ∈ L, S u)
    (hb : ∀ u, S u → b' u = b u) : gone same' L n b' = gone same L n b :=
  gone_eq_gone S hsame (fun u hu => hL u (gone_subset hu)) hb

/-! ## Names of different things -/

/-- A name that is the same as none of the list keeps what it has. -/
theorem handout_other (h : ∀ u ∈ L.take n, ¬ same v u) (hfree : ∀ u ∈ L.take n, has u = none)
    (hapart : (L.take n).Pairwise fun u w => ¬ same w u) :
    handout same e L k n has v = has v := by
  induction L generalizing k n has with
  | nil => rfl
  | cons u L ih =>
    rw [handout]
    by_cases hn : n = 0
    · rw [if_pos hn]
    · obtain ⟨n, rfl⟩ := Nat.exists_eq_succ_of_ne_zero hn
      rw [Nat.succ_eq_add_one, List.take_succ_cons] at h hfree hapart
      rw [List.pairwise_cons] at hapart
      rw [if_neg hn, hfree u List.mem_cons_self, Nat.succ_sub_one]
      show handout same e L (k + 1) n _ v = has v
      rw [ih (fun w hw => h w (List.mem_cons_of_mem u hw)) _ hapart.2,
        if_neg (h u List.mem_cons_self)]
      intro w hw
      rw [if_neg (hapart.1 w hw)]
      exact hfree w (List.mem_cons_of_mem u hw)

/-- Free names of different things get the entries in order. -/
theorem handout_fresh (hsame : Equivalence same) (hfree : ∀ u ∈ L.take n, has u = none)
    (hapart : (L.take n).Pairwise fun u w => ¬ same w u) {j : ℕ} (hj : j < n)
    (hu : L[j]? = some u) (hv : same v u) : handout same e L k n has v = some (e (k + j)) := by
  induction L generalizing k n j has with
  | nil => cases hu
  | cons w L ih =>
    obtain ⟨n, rfl⟩ : ∃ m, n = m + 1 := ⟨n - 1, by omega⟩
    rw [List.take_succ_cons] at hfree hapart
    rw [List.pairwise_cons] at hapart
    have hfree' : ∀ x ∈ L.take n, (if same x w then some (e k) else has x) = none := by
      intro x hx
      rw [if_neg (hapart.1 x hx)]
      exact hfree x (List.mem_cons_of_mem w hx)
    rw [handout, if_neg (Nat.succ_ne_zero n), hfree w List.mem_cons_self]
    show handout same e L (k + 1) n _ v = _
    cases j with
    | zero =>
      rw [List.getElem?_cons_zero, Option.some.injEq] at hu
      subst hu
      rw [handout_other _ hfree' hapart.2, if_pos hv]
      · rfl
      · intro x hx hvx
        exact hapart.1 x hx (hsame.trans (hsame.symm hvx) hv)
    | succ j =>
      rw [List.getElem?_cons_succ] at hu
      rw [ih hfree' hapart.2 (by omega) hu, Nat.add_right_comm, Nat.add_assoc]

/-- They are the names that are gone through. -/
theorem gone_fresh (hfree : ∀ u ∈ L.take n, b u = false)
    (hapart : (L.take n).Pairwise fun u w => ¬ same w u) : gone same L n b = L.take n := by
  induction L generalizing n b with
  | nil => rw [List.take_nil]; rfl
  | cons u L ih =>
    rw [gone]
    by_cases hn : n = 0
    · rw [if_pos hn, hn, List.take_zero]
    · obtain ⟨n, rfl⟩ := Nat.exists_eq_succ_of_ne_zero hn
      rw [Nat.succ_eq_add_one, List.take_succ_cons] at hfree hapart ⊢
      rw [List.pairwise_cons] at hapart
      rw [if_neg hn, hfree u List.mem_cons_self, if_neg Bool.false_ne_true, Nat.add_sub_cancel,
        ih _ hapart.2]
      intro w hw
      rw [hfree w (List.mem_cons_of_mem u hw), Bool.or_false]
      exact decide_eq_false (hapart.1 w hw)

end Handout
