/-
# Mapping from behind the end of a table

`find_space` can leave an index that is behind the end of its table, next to indices of
entries.  From such indices `recurse_map` comes to no leaf entry: it goes through the entries
of the tables above, makes them and gives them the permissions, all of them up to the end of
the table (`recurseMap_spent`).

What it does is described by the paths to the entries above the leaf tables that it goes
through (`InnerEffect`).  The same description holds for a mapping that comes to leaf entries,
with the ways to the paths that are visited (`MapEffect.innerEffect`).
-/
import Mimik.VmMapEffect
import Mathlib.Data.List.TakeWhile

namespace Mimik.Vm

open FaultState

variable {flags : Flags} {p q root tmpPaddr : PAddr} {i n level pages : ℕ} {u index : List ℕ}
  {K K' : List (List ℕ)} {t t' t₁ : FlatState} {mem mem' mem₁ : Tables}

/-- The paths of a list lead to entries above the leaf tables. -/
def Above (level : ℕ) (K : List (List ℕ)) : Prop :=
  ∀ u ∈ K, level + u.length ≤ 3 ∧ ∀ i ∈ u, i < ptLength

/-- What is done to the entries above the leaf tables: those on the paths of a list are made
and have the permissions, and of those that were there no others change. -/
structure InnerEffect (flags : Flags) (root p : PAddr) (K : List (List ℕ)) (mem mem' : Tables) :
    Prop where
  extended : Extended flags root mem mem'
  given : ∀ u ∈ K, Given flags mem' p u
  changed : ∀ n < 3, ∀ q, TableOf root mem n q → ∀ i, present (mem q i) = true →
    mem' q i ≠ mem q i → ∃ u ∈ K, (q, i) ∈ pageTables.slots mem p u

/-- Nothing is done where there is nothing on the paths. -/
theorem InnerEffect.refl (h : ∀ u ∈ K, u = []) : InnerEffect flags root p K mem mem where
  extended := Extended.refl flags root mem
  given u hu slot hslot := by
    rw [h u hu] at hslot
    cases hslot
  changed _ _ _ _ _ _ hne := absurd rfl hne

/-- First one part, then another. -/
theorem InnerEffect.append (h : InnerEffect flags root p K mem mem₁)
    (h' : InnerEffect flags root p K' mem₁ mem')
    (htable : ∀ n ≤ 3, ∀ q, TableOf root mem n q → TableOf root mem₁ n q)
    (hp : TableOf root mem level p) (hlevel : level ≤ 3) (hK : Above level K)
    (hK' : Above level K') : InnerEffect flags root p (K ++ K') mem mem' where
  extended := h.extended.trans h'.extended htable
  given u hu := by
    rcases List.mem_append.mp hu with hu | hu
    · obtain ⟨hlen, hwidth⟩ := hK u hu
      exact ((h.given u hu).extended h'.extended (htable level hlevel p hp) hlen hwidth).2
    · exact h'.given u hu
  changed n hn q hq i hi hne := by
    by_cases hsame : mem₁ q i = mem q i
    · obtain ⟨u, hu, hslot⟩ := h'.changed n hn q (htable n (by omega) q hq) i
        (by rw [hsame]; exact hi) (by rw [hsame]; exact hne)
      obtain ⟨hlen, hwidth⟩ := hK' u hu
      exact ⟨u, List.mem_append_right _ hu,
        h.extended.back level p u (by omega) hp hwidth (q, i) hslot n (by omega) hq⟩
    · obtain ⟨u, hu, hslot⟩ := h.changed n hn q hq i hi hsame
      exact ⟨u, List.mem_append_left _ hu, hslot⟩

/-- **Below one entry**: it is made, and then what is done to the table it leads to. -/
theorem Sound.innerEffect_cons (h : Sound tmpPaddr root t) (hp : TableOf root t.mem level p)
    (hlevel : level < 3) (hi : i < ptLength) (hsettled : t.settled flags p i = some t₁)
    (hK : Above (level + 1) K) (hne : K ≠ [])
    (hbelow : InnerEffect flags root (ptePaddr (t₁.mem p i)) K t₁.mem mem')
    (habove : mem' p i = t₁.mem p i) :
    InnerEffect flags root p (K.map (i :: ·)) t.mem mem' := by
  obtain ⟨hvis, hpres, hre, hnext⟩ := h.settled hp hlevel hi hsettled
  obtain ⟨hext, -⟩ := h.settled_extended hp hlevel hsettled
  have hslots : ∀ {m : Tables}, m p i = t₁.mem p i → ∀ u, pageTables.slots m p (i :: u) =
      (p, i) :: pageTables.slots m (ptePaddr (t₁.mem p i)) u := by
    intro m hm u
    rw [Radix.slots, hm, if_pos (show pageTables.present _ = true from hpres)]
    rfl
  refine ⟨hext.trans hbelow.extended hvis.table, ?_, ?_⟩
  · intro u hu slot hslot
    obtain ⟨v, hv, rfl⟩ := List.mem_map.mp hu
    rw [hslots habove] at hslot
    rcases List.mem_cons.mp hslot with rfl | hslot
    · rw [habove]
      exact ⟨hpres, hre⟩
    · exact hbelow.given v hv slot hslot
  · intro n hn q hq j hj hchanged
    by_cases hhere : q = p ∧ j = i
    · obtain ⟨u, hu⟩ := List.exists_mem_of_ne_nil K hne
      refine ⟨i :: u, List.mem_map_of_mem hu, ?_⟩
      rw [hhere.1, hhere.2, Radix.slots]
      exact List.mem_cons_self
    · have hsame := h.settled_other hp hlevel hsettled (by omega) hq hhere
      rw [← hsame] at hj hchanged
      obtain ⟨u, hu, hslot⟩ := hbelow.changed n hn q (hvis.table n (by omega) q hq) j hj hchanged
      obtain ⟨hlen, hwidth⟩ := hK u hu
      refine ⟨i :: u, List.mem_map_of_mem hu, ?_⟩
      refine hext.back level p (i :: u) ?_ hp ?_ (q, j) ?_ n (by omega) hq
      · rw [List.length_cons]
        omega
      · intro k hk
        rcases List.mem_cons.mp hk with rfl | hk
        · exact hi
        · exact hwidth k hk
      · rw [hslots rfl]
        exact List.mem_cons_of_mem _ hslot

/-! ## The recursion -/

/-- The indices before the first one that is behind the end of its table. -/
def front (index : List ℕ) : List ℕ := index.takeWhile (· < ptLength)

theorem front_cons_of_lt (hi : i < ptLength) : front (i :: index) = i :: front index := by
  unfold front
  rw [List.takeWhile_cons, if_pos (by simpa using hi)]

theorem front_cons_of_le (hi : ptLength ≤ i) : front (i :: index) = [] := by
  unfold front
  rw [List.takeWhile_cons, if_neg (by simpa using hi)]

/-- The indices of the front are those of entries. -/
theorem lt_of_mem_front (h : i ∈ front index) : i < ptLength := by
  have htrue := List.mem_takeWhile_imp h
  simpa using htrue

/-- The front is shorter, when an index is behind the end of its table. -/
theorem length_front (h : ∃ i ∈ index, ptLength ≤ i) : (front index).length < index.length := by
  induction index with
  | nil =>
    obtain ⟨i, hi, -⟩ := h
    cases hi
  | cons j index ih =>
    by_cases hj : j < ptLength
    · obtain ⟨i, hi, hle⟩ := h
      rcases List.mem_cons.mp hi with rfl | hi
      · omega
      · rw [front_cons_of_lt hj, List.length_cons, List.length_cons]
        have := ih ⟨i, hi, hle⟩
        omega
    · rw [front_cons_of_le (by omega)]
      exact Nat.succ_pos _

/-- Paths below the entries of a table. -/
theorem above_boxFrom (hK : Above (level + 1) K) : Above level (Radix.boxFrom 512 K i) := by
  intro u hu
  obtain ⟨j, hj, rest, hrest, rfl⟩ := Radix.mem_boxFrom.mp hu
  obtain ⟨hlen, hwidth⟩ := hK rest hrest
  rw [List.length_cons]
  refine ⟨by omega, ?_⟩
  intro k hk
  rcases List.mem_cons.mp hk with rfl | hk
  · exact hj.2
  · exact hwidth k hk

/-- A part of `recurse_map` that comes to no leaf entry. -/
def Spent (tmpPaddr root : PAddr) (flags : Flags) (p : PAddr) (level pages : ℕ)
    (K : List (List ℕ)) (t : FlatState) (x : Except Fault ((Status × MapVars) × FlatState)) :
    Prop :=
  x = .error swapped ∨ ∃ w t', x = .ok ((success, w), t') ∧ w.pages = pages ∧
    Visited tmpPaddr root level t t' ∧ InnerEffect flags root p K t.mem t'.mem ∧
    SameLeaves root t.mem t'.mem

/-- Behind the end of the table nothing is done. -/
theorem Sound.spent_refl (h : Sound tmpPaddr root t) (hi : 512 ≤ i) :
    Visited tmpPaddr root level t t ∧
      InnerEffect flags root p (Radix.boxFrom 512 K i) t.mem t.mem ∧
      SameLeaves root t.mem t.mem := by
  rw [Radix.boxFrom_of_le hi]
  exact ⟨Visited.refl h, InnerEffect.refl (List.forall_mem_nil _), fun _ _ _ => rfl⟩

/-- The loop, when its rounds come to no leaf entry. -/
theorem spent_rounds
    {body : MapVars → Prog Fault FlatState (FaultState.Flow MapVars (Status × MapVars))}
    (hlevel : level ≤ 3) (hK : Above (level + 1) K)
    (hstop : ∀ v t, ¬ (v.i < ptLength ∧ 0 < v.pages) → body v t = .ok (.done (success, v), t))
    (hbody : ∀ v t, Sound tmpPaddr root t → TableOf root t.mem level p → v.i < ptLength →
      0 < v.pages → body v t = .error swapped ∨ ∃ v' t', body v t = .ok (.next v', t') ∧
        v'.i = v.i + 1 ∧ v'.pages = v.pages ∧ Visited tmpPaddr root level t t' ∧
        InnerEffect flags root p (K.map (v.i :: ·)) t.mem t'.mem ∧ SameLeaves root t.mem t'.mem)
    (h : Sound tmpPaddr root t) (hp : TableOf root t.mem level p) (v : MapVars)
    (hpages : 0 < v.pages) (hn : 512 ≤ n + v.i) :
    Spent tmpPaddr root flags p level v.pages (Radix.boxFrom 512 K v.i) t
      (rounds body (fun v => return (success, v)) n v t) := by
  induction n generalizing v t with
  | zero => exact .inr ⟨v, t, rfl, rfl, h.spent_refl (by omega)⟩
  | succ n ih =>
    by_cases hi : v.i < ptLength
    · rcases hbody v t h hp hi hpages with hfault | ⟨v', t', hnext, hstep, hkept, hvis, heff, hsame⟩
      · exact .inl (bind_eq_error hfault _)
      · rw [rounds_of_next hnext]
        have hp' := hvis.table level hlevel p hp
        rcases ih hvis.sound hp' v' (by omega) (by omega) with
          hfault | ⟨w, t₁, hok, hpages', hvis', heff', hsame'⟩
        · exact .inl hfault
        · refine .inr ⟨w, t₁, hok, by rw [hpages', hkept], hvis.trans hvis' (by omega), ?_, ?_⟩
          · have hi' : v.i < 512 := hi
            rw [Radix.boxFrom_of_lt hi', ← hstep]
            refine heff.append heff' hvis.table hp hlevel ?_ (above_boxFrom hK)
            intro u hu
            obtain ⟨rest, hrest, rfl⟩ := List.mem_map.mp hu
            have hmem : v.i :: rest ∈ Radix.boxFrom 512 K v.i :=
              Radix.mem_boxFrom.mpr ⟨v.i, ⟨le_rfl, hi⟩, rest, hrest, rfl⟩
            exact above_boxFrom hK _ hmem
          · intro q path hq
            rw [hsame' q path (hq.mono hvis.table), hsame q path hq]
    · rw [rounds_of_done (hstop v t fun hgo => hi hgo.1)]
      rw [ptLength] at hi
      exact .inr ⟨v, t, rfl, rfl, h.spent_refl (by omega)⟩

/-- A loop that starts behind the end of its table. -/
theorem spent_behind
    {body : MapVars → Prog Fault FlatState (FaultState.Flow MapVars (Status × MapVars))}
    (hstop : ∀ v t, ¬ (v.i < ptLength ∧ 0 < v.pages) → body v t = .ok (.done (success, v), t))
    (h : Sound tmpPaddr root t) (v : MapVars) (hi : ptLength ≤ v.i) :
    Spent tmpPaddr root flags p level v.pages [[]] t
      (rounds body (fun v => return (success, v)) ptLength v t) := by
  refine .inr ⟨v, t, rounds_of_done (hstop v t ?_) _, rfl, Visited.refl h,
    InnerEffect.refl (by simp), fun _ _ _ => rfl⟩
  rintro ⟨hlt, -⟩
  exact Nat.not_lt.mpr hi hlt

/-- **From behind the end of a table** `recurse_map` makes the entries above, and fills none. -/
theorem recurseMap_spent (height : ℕ) (hheight : height ≤ 3) (index : List ℕ)
    (hlen : index.length = height + 1) (hspent : ∃ i ∈ index, ptLength ≤ i) (p paddr : PAddr)
    (hpages : 0 < pages) (t : FlatState) (h : Sound tmpPaddr root t)
    (hp : TableOf root t.mem (3 - height) p) :
    Spent tmpPaddr root flags p (3 - height) pages (Radix.box 512 (front index)) t
      (recurseMap (flat tmpPaddr) flags height index p paddr pages t) := by
  induction height generalizing index p paddr pages t with
  | zero =>
    obtain ⟨i, rfl⟩ := List.length_eq_one_iff.mp hlen
    obtain ⟨j, hj, hle⟩ := hspent
    rw [List.mem_singleton] at hj
    rw [hj] at hle
    rw [front_cons_of_le hle]
    exact spent_behind (fun v t hgo => by rw [mapLeaf, if_neg hgo]; rfl) h { i, paddr, pages } hle
  | succ height ih =>
    obtain ⟨i, index, rfl⟩ := List.exists_cons_of_length_eq_add_one hlen
    have hstop : ∀ v (t : FlatState), ¬ (v.i < ptLength ∧ 0 < v.pages) →
        mapInner (flat tmpPaddr) (recurseMap (flat tmpPaddr) flags height index) flags p v t =
          .ok (.done (success, v), t) := fun v t hgo => by rw [mapInner, if_neg hgo]; rfl
    by_cases hi : ptLength ≤ i
    · rw [front_cons_of_le hi]
      exact spent_behind hstop h { i, paddr, pages } hi
    · have hlen' : index.length = height + 1 := by simpa using hlen
      have hspent' : ∃ j ∈ index, ptLength ≤ j := by
        obtain ⟨j, hj, hle⟩ := hspent
        rcases List.mem_cons.mp hj with rfl | hj
        · exact absurd hle hi
        · exact ⟨j, hj, hle⟩
      have hK : Above (3 - (height + 1) + 1) (Radix.box 512 (front index)) := by
        intro u hu
        obtain ⟨hulen, hwidth⟩ := Radix.of_mem_box hu
        have := length_front hspent'
        exact ⟨by omega, hwidth⟩
      have hne : Radix.box 512 (front index) ≠ [] :=
        List.ne_nil_of_mem (Radix.self_mem_box fun j hj => lt_of_mem_front hj)
      rw [front_cons_of_lt (by omega)]
      refine spent_rounds (by omega) hK hstop ?_ h hp { i, paddr, pages } hpages
        (by rw [ptLength]; omega)
      intro v t h hp hi hpages
      have hread : (flat tmpPaddr).read p v.i t = .ok (t.mem p v.i, t) := rfl
      rw [mapInner, if_pos ⟨hi, hpages⟩, bind_eq_of_ok hread]
      cases hs : t.settled flags p v.i with
      | none =>
        refine .inl ((openTable_eq h hp (by omega) hi _).trans ?_)
        rw [hs]
      | some t₁ =>
        obtain ⟨hvis, -, -, hnext⟩ := h.settled hp (by omega) hi hs
        obtain ⟨-, hsame⟩ := h.settled_extended hp (by omega) hs
        rw [show 3 - (height + 1) + 1 = 3 - height by omega] at hnext
        rcases ih (by omega) index hlen' hspent' _ v.paddr hpages t₁
            hvis.sound hnext with
          hfault | ⟨w, t', hok, hkept, hvis', heff, hsame'⟩
        · refine .inl ((openTable_eq h hp (by omega) hi _).trans ?_)
          rw [hs]
          exact bind_eq_error hfault _
        · right
          refine ⟨{ i := v.i + 1, paddr := w.paddr, pages := w.pages }, t',
            (openTable_eq h hp (by omega) hi _).trans ?_, rfl, hkept,
            hvis.trans (hvis'.mono (by omega)) (by omega), ?_, ?_⟩
          · rw [hs]
            exact (bind_eq_of_ok hok _).trans rfl
          · refine h.innerEffect_cons hp (by omega) hi hs hK hne heff ?_
            exact hvis'.above (3 - (height + 1)) (by omega) p (hvis.table _ (by omega) p hp) v.i
          · intro q path hq
            rw [hsame' q path (hq.mono hvis.table), hsame q path hq]

end Mimik.Vm
