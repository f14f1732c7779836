/-
# Mapping in tables that lead to `tmp_pt`

The table of the kernel has an entry that leads to `tmp_pt`, a gate.  A call that does not come
to `tmp_pt` opens no gate, so that it does what it does where the gates are cut off
(`transfers_recurseMap`).  Tables without gates do not lead into the window (`Ordered.soundCut`),
and what is known of mapping in such tables says what happens in front of the gates; behind
them nothing changes (`rewritten_of_ran`).
-/
import Mimik.VmMapRan

namespace Mimik.Vm

open FaultState

section Cut

variable (tmpPaddr root : PAddr) (tmpPt : ℕ → Pte) (mem₀ : Tables)

/-- The entry is above the leaf tables, and leads to `tmp_pt`. -/
def Gate (p : PAddr) (i : ℕ) : Prop :=
  (∃ n < 3, TableAt tmpPaddr tmpPt root mem₀ n p) ∧ i < ptLength ∧ present (mem₀ p i) = true ∧
    ptePaddr (mem₀ p i) = tmpPaddr

open Classical in
/-- The tables without `tmp_pt`, and without the entries that lead to it. -/
noncomputable def cut (mem : Tables) : Tables := fun p i =>
  if p = tmpPaddr ∨ Gate tmpPaddr root tmpPt mem₀ p i then 0#64 else mem p i

/-- The same for a state. -/
noncomputable def FlatState.cut (t : FlatState) : FlatState :=
  { t with mem := Vm.cut tmpPaddr root tmpPt mem₀ t.mem }

variable {tmpPaddr root tmpPt mem₀} {mem mem' : Tables} {p q f : PAddr} {i n level : ℕ} {e : Pte}
  {t₀ t t₁ : FlatState} {flags : Flags}

theorem cut_of_not_gate (hne : p ≠ tmpPaddr) (hgate : ¬ Gate tmpPaddr root tmpPt mem₀ p i) :
    cut tmpPaddr root tmpPt mem₀ mem p i = mem p i := if_neg fun h => h.elim hne hgate

theorem cut_of_gate (hgate : Gate tmpPaddr root tmpPt mem₀ p i) :
    cut tmpPaddr root tmpPt mem₀ mem p i = 0#64 := if_pos (.inr hgate)

/-- What is present there is as it was. -/
theorem of_present_cut (h : present (cut tmpPaddr root tmpPt mem₀ mem p i) = true) :
    p ≠ tmpPaddr ∧ ¬ Gate tmpPaddr root tmpPt mem₀ p i := by
  by_contra hnot
  rw [not_and_or, not_not, not_not] at hnot
  rw [cut, if_pos hnot, present_zero] at h
  cases h

/-- A store to another entry. -/
theorem cut_set (hne : p ≠ tmpPaddr) (hgate : ¬ Gate tmpPaddr root tmpPt mem₀ p i) :
    cut tmpPaddr root tmpPt mem₀ (mem.set p i e) =
      (cut tmpPaddr root tmpPt mem₀ mem).set p i e := by
  funext q j
  rw [Tables.set_apply, cut, Tables.set_apply]
  by_cases hqj : q = p ∧ j = i
  · rw [if_pos hqj, if_pos hqj, hqj.1, hqj.2, if_neg fun h => h.elim hne hgate]
  · rw [if_neg hqj, if_neg hqj]
    rfl

/-- The store to a whole page. -/
theorem cut_clear :
    cut tmpPaddr root tmpPt mem₀ (mem.clear p) = (cut tmpPaddr root tmpPt mem₀ mem).clear p := by
  funext q j
  rw [Tables.clear_apply, cut, Tables.clear_apply]
  by_cases hq : q = p
  · rw [if_pos hq, if_pos hq, ite_self]
  · rw [if_neg hq, if_neg hq]
    rfl

theorem cut_set_state (hne : p ≠ tmpPaddr) (hgate : ¬ Gate tmpPaddr root tmpPt mem₀ p i) :
    (t.set p i e).cut tmpPaddr root tmpPt mem₀ =
      (t.cut tmpPaddr root tmpPt mem₀).set p i e := by
  rw [FlatState.cut, FlatState.set_mem, cut_set hne hgate]
  rfl

theorem cut_created (hne : p ≠ tmpPaddr) (hgate : ¬ Gate tmpPaddr root tmpPt mem₀ p i) :
    (t.created p i f).cut tmpPaddr root tmpPt mem₀ =
      (t.cut tmpPaddr root tmpPt mem₀).created p i f := by
  rw [FlatState.cut, FlatState.created, cut_set hne hgate, cut_clear]
  rfl

/-! ## The tables in front of the gates -/

/-- They are tables, and `tmp_pt` is none of them. -/
theorem at_cut (hroot : root ≠ tmpPaddr)
    (h : TableOf root (cut tmpPaddr root tmpPt mem₀ mem₀) n p) (hn : n ≤ 3) :
    TableAt tmpPaddr tmpPt root mem₀ n p ∧ p ≠ tmpPaddr := by
  induction h with
  | root => exact ⟨.root, hroot⟩
  | @step n p i hp hi hpres ih =>
    obtain ⟨hat, hne⟩ := ih (by omega)
    obtain ⟨-, hgate⟩ := of_present_cut hpres
    replace hpres : present (cut tmpPaddr root tmpPt mem₀ mem₀ p i) = true := hpres
    show TableAt tmpPaddr tmpPt root mem₀ (n + 1) (ptePaddr (cut tmpPaddr root tmpPt mem₀ mem₀ p i))
      ∧ ptePaddr (cut tmpPaddr root tmpPt mem₀ mem₀ p i) ≠ tmpPaddr
    rw [cut_of_not_gate hne hgate] at hpres ⊢
    have hstep := hat.step hi (by rw [view_of_ne hne]; exact hpres)
    rw [view_of_ne hne] at hstep
    exact ⟨hstep, fun heq => hgate ⟨⟨n, by omega, hat⟩, hi, hpres, heq⟩⟩

/-- They are in order, and do not lead into the window. -/
theorem Ordered.soundCut (h : Ordered tmpPaddr tmpPt root t.mem t.frames)
    (hroot : root ≠ tmpPaddr) (htmp : tmpPaddr ∉ t.frames) :
    Sound tmpPaddr root (t.cut tmpPaddr root tmpPt t.mem) where
  oneLevel p n hn m hm hpn hpm := by
    obtain ⟨hatn, hne⟩ := at_cut hroot hpn hn
    exact h.oneLevel p hne n hn m hm hatn (at_cut hroot hpm hm).1
  avoids n hn hat := (at_cut hroot hat hn).2 rfl
  aligned := h.aligned
  noTmp := htmp
  noTable f hf n hn hat := h.noTable f hf n hn (at_cut hroot hat hn).1
  nodup := h.nodup

/-! ## The recursion -/

/-- The table that a level of the recursion works on, while the gates are as they were. -/
structure Intact (tmpPaddr : PAddr) (tmpPt : ℕ → Pte) (root : PAddr) (t₀ : FlatState)
    (level : ℕ) (p : PAddr) (t : FlatState) : Prop
    extends Working tmpPaddr tmpPt root t₀ level p t where
  gates : ∀ q i, Gate tmpPaddr root tmpPt t₀.mem q i → t.mem q i = t₀.mem q i

/-- A leaf table has no gates. -/
theorem Intact.not_gate (h : Intact tmpPaddr tmpPt root t₀ 3 p t) (hne : p ≠ tmpPaddr) (i : ℕ) :
    ¬ Gate tmpPaddr root tmpPt t₀.mem p i := by
  rintro ⟨⟨n, hn, hat⟩, -⟩
  have := h.grown.ordered.oneLevel p hne n (by omega) 3 le_rfl
    (h.grown.grows.table n (by omega) p hat) h.table
  omega

/-- A store to another entry leaves the gates. -/
theorem Intact.of_set (h : Intact tmpPaddr tmpPt root t₀ level p t) (hlevel : level ≤ 3)
    (hgate : ¬ Gate tmpPaddr root tmpPt t₀.mem p i)
    (hgrown : Grown tmpPaddr tmpPt root t (t.set p i e)) :
    Intact tmpPaddr tmpPt root t₀ level p (t.set p i e) := by
  refine ⟨h.toWorking.of_grown hlevel hgrown, fun q j hqj => ?_⟩
  rw [FlatState.set_mem, Tables.set_apply, if_neg]
  · exact h.gates q j hqj
  · rintro ⟨rfl, rfl⟩
    exact hgate hqj

theorem transfers_read (hne : p ≠ tmpPaddr) {P : FlatState → Prop}
    (hgate : ∀ t, P t → ¬ Gate tmpPaddr root tmpPt mem₀ p i) :
    Transfers (FlatState.cut tmpPaddr root tmpPt mem₀) P ((flat tmpPaddr).read p i)
      ((flat tmpPaddr).read p i) fun e t => P t ∧ e = t.mem p i := by
  refine Transfers.of_apply (fun t : FlatState => t.mem p i) id (fun _ => rfl) (fun t ht => ?_)
    fun t ht => ⟨ht, rfl⟩
  have hread : (t.cut tmpPaddr root tmpPt mem₀).mem p i = t.mem p i :=
    cut_of_not_gate hne (hgate t ht)
  show Except.ok ((t.cut tmpPaddr root tmpPt mem₀).mem p i, _) = _
  rw [hread]
  rfl

theorem transfers_write (hne : p ≠ tmpPaddr) {P : FlatState → Prop}
    {Q : Unit → FlatState → Prop}
    (h : ∀ t, P t → ¬ Gate tmpPaddr root tmpPt mem₀ p i ∧ Q () (t.set p i e)) :
    Transfers (FlatState.cut tmpPaddr root tmpPt mem₀) P ((flat tmpPaddr).write p i e)
      ((flat tmpPaddr).write p i e) Q := by
  refine Transfers.of_apply (fun _ => ()) (fun t : FlatState => t.set p i e) (fun _ => rfl)
    (fun t ht => ?_) fun t ht => (h t ht).2
  show Except.ok ((), FlatState.set (t.cut tmpPaddr root tmpPt mem₀) p i e) = _
  rw [cut_set_state hne (h t ht).1]

theorem transfers_mapLeaf (hne : p ≠ tmpPaddr) (v : MapVars) :
    Transfers (FlatState.cut tmpPaddr root tmpPt t₀.mem) (Intact tmpPaddr tmpPt root t₀ 3 p)
      (mapLeaf (flat tmpPaddr) flags p v) (mapLeaf (flat tmpPaddr) flags p v)
      fun _ => Intact tmpPaddr tmpPt root t₀ 3 p := by
  by_cases hrange : v.i < ptLength ∧ 0 < v.pages
  swap
  · rw [mapLeaf, if_neg hrange]
    exact Transfers.pure fun _ h => h
  rw [mapLeaf, if_pos hrange]
  apply Transfers.bind (transfers_read hne fun t ht => ht.not_gate hne v.i)
  intro e
  apply Transfers.ite
  · exact fun _ => Transfers.pure fun t ht => ht.1
  · intro habs
    apply Transfers.bind (Q := fun _ => Intact tmpPaddr tmpPt root t₀ 3 p)
    · apply transfers_write hne
      rintro t ⟨ht, rfl⟩
      have hgate := ht.not_gate hne v.i
      have hfill := ht.grown.ordered.fill (e := setPte v.paddr flags) hne ht.table
        (Bool.not_eq_true _ ▸ habs)
      exact ⟨hgate, ht.of_set le_rfl hgate ⟨hfill.1, hfill.2⟩⟩
    · exact fun _ => Transfers.pure fun _ h => h

/-- A table of the level below is made. -/
theorem transfers_createPt (hne : p ≠ tmpPaddr) (hlevel : level < 3) (hi : i < ptLength)
    (hgate : ¬ Gate tmpPaddr root tmpPt t₀.mem p i) :
    Transfers (FlatState.cut tmpPaddr root tmpPt t₀.mem)
      (fun t => Intact tmpPaddr tmpPt root t₀ level p t ∧ present (t.mem p i) = false)
      (createPt (flat tmpPaddr) p i) (createPt (flat tmpPaddr) p i)
      fun q t => Intact tmpPaddr tmpPt root t₀ level p t ∧ q ≠ tmpPaddr ∧
        TableAt tmpPaddr tmpPt root t.mem (level + 1) q where
  toTriple := by
    apply flat_createPt
    rintro t f frames ⟨ht, habs⟩ hframes hq
    have hordered := ht.grown.ordered
    rw [hframes] at hordered
    have hal : ptePaddr f = f := hordered.aligned f List.mem_cons_self
    rw [hal] at hq ⊢
    have hlink := hordered.link (e := setPte f vmFlagWritable) hne ht.table hlevel hi habs hq
      (present_setPte _ _) (by rw [ptePaddr_setPte, hal])
    rw [FlatState.created, hal, hframes]
    refine ⟨⟨ht.toWorking.of_grown (by omega) ⟨hlink.1, hlink.2.1⟩, fun q j hqj => ?_⟩, hq,
      hlink.2.2⟩
    -- a gate is an entry of another table, or another entry
    obtain ⟨⟨n, hn, hat⟩, -⟩ := id hqj
    have hold := ht.grown.grows.table n (by omega) q hat
    show (t.mem.clear f).set p i (setPte f vmFlagWritable) q j = _
    rw [Tables.set_apply, if_neg, Tables.clear_apply, if_neg]
    · exact ht.gates q j hqj
    · rintro rfl
      exact hordered.noTable q List.mem_cons_self n (by omega) hold
    · rintro ⟨rfl, rfl⟩
      exact hgate hqj
  transfers t ht q t' hok := by
    have hmade : Triple (fun u => u = t) (createPt (flat tmpPaddr) p i) fun q t' =>
        ∃ f frames, t.frames = f :: frames ∧ ptePaddr f ≠ tmpPaddr ∧ q = ptePaddr f ∧
          t' = t.created p i f := by
      apply flat_createPt
      rintro _ f frames rfl hframes hf
      exact ⟨f, frames, hframes, hf, rfl, rfl⟩
    obtain ⟨f, frames, hframes, hf, rfl, rfl⟩ := hmade.run t rfl q t' hok
    rw [cut_created hne hgate]
    exact flat_createPt_eq (t := t.cut tmpPaddr root tmpPt t₀.mem) hframes hf p i

/-- The table of the level below, found or made. -/
theorem transfers_openTable (hne : p ≠ tmpPaddr) (hlevel : level < 3) (hi : i < ptLength)
    (hgate : ¬ Gate tmpPaddr root tmpPt t₀.mem p i) (e : Pte) :
    Transfers (FlatState.cut tmpPaddr root tmpPt t₀.mem)
      (fun t => Intact tmpPaddr tmpPt root t₀ level p t ∧ e = t.mem p i)
      (if present e then (flat tmpPaddr).mapPageTmp (ptePaddr e) vmFlagWritable
        else createPt (flat tmpPaddr) p i)
      (if present e then (flat tmpPaddr).mapPageTmp (ptePaddr e) vmFlagWritable
        else createPt (flat tmpPaddr) p i)
      fun q t => Intact tmpPaddr tmpPt root t₀ level p t ∧ q ≠ tmpPaddr ∧
        TableAt tmpPaddr tmpPt root t.mem (level + 1) q := by
  apply Transfers.ite
  · intro hpres
    show Transfers _ _ (if _ then fault strayed else pure _) (if _ then fault strayed else pure _) _
    apply Transfers.ite
    · exact fun _ => Transfers.fault _
    · intro hq
      apply Transfers.pure
      rintro t ⟨ht, rfl⟩
      rw [ptePaddr_ptePaddr] at hq ⊢
      have hstep := ht.table.step hi (by rw [view_of_ne hne]; exact hpres)
      rw [view_of_ne hne] at hstep
      exact ⟨ht, hq, hstep⟩
  · intro habs
    apply (transfers_createPt hne hlevel hi hgate).mono _ fun _ _ h => h
    rintro t ⟨ht, rfl⟩
    exact ⟨ht, Bool.not_eq_true _ ▸ habs⟩

theorem transfers_updatePtPteFlags (hne : p ≠ tmpPaddr) {P Q : FlatState → Prop}
    (h : ∀ t, P t → ¬ Gate tmpPaddr root tmpPt mem₀ p i ∧
      Q (t.set p i (reflag (t.mem p i) flags))) :
    Transfers (FlatState.cut tmpPaddr root tmpPt mem₀) P
      (updatePtPteFlags (flat tmpPaddr) p i flags) (updatePtPteFlags (flat tmpPaddr) p i flags)
      fun _ => Q := by
  apply Transfers.bind (transfers_read hne fun t ht => (h t ht).1)
  intro e
  apply transfers_write hne
  rintro t ⟨ht, rfl⟩
  exact h t ht

/-- A gate is not opened. -/
theorem mapInner_gate {child : PAddr → PAddr → ℕ → Prog Fault FlatState (Status × MapVars)}
    (h : Intact tmpPaddr tmpPt root t₀ level p t) {v : MapVars}
    (hgate : Gate tmpPaddr root tmpPt t₀.mem p v.i) (hrange : v.i < ptLength ∧ 0 < v.pages) :
    mapInner (flat tmpPaddr) child flags p v t = .error strayed := by
  have hread : (flat tmpPaddr).read p v.i t = .ok (t.mem p v.i, t) := rfl
  obtain ⟨-, -, hpres, hnext⟩ := id hgate
  rw [← h.gates p v.i hgate] at hpres hnext
  rw [mapInner, if_pos hrange, bind_eq_of_ok hread, if_pos hpres]
  apply bind_eq_error
  show (if ptePaddr (ptePaddr (t.mem p v.i)) = tmpPaddr then _ else _ : Prog _ _ _) t = _
  rw [if_pos (by rw [ptePaddr_ptePaddr]; exact hnext)]
  rfl

theorem transfers_mapInner (hne : p ≠ tmpPaddr) (hlevel : level < 3)
    {child : PAddr → PAddr → ℕ → Prog Fault FlatState (Status × MapVars)}
    (hchild : ∀ q paddr pages, q ≠ tmpPaddr → Transfers (FlatState.cut tmpPaddr root tmpPt t₀.mem)
      (Intact tmpPaddr tmpPt root t₀ (level + 1) q) (child q paddr pages) (child q paddr pages)
      fun _ => Intact tmpPaddr tmpPt root t₀ (level + 1) q)
    (hgrows : ∀ t₁ q paddr pages, q ≠ tmpPaddr →
      Keeps (Working tmpPaddr tmpPt root t₁ (level + 1) q) (child q paddr pages)) (v : MapVars) :
    Transfers (FlatState.cut tmpPaddr root tmpPt t₀.mem) (Intact tmpPaddr tmpPt root t₀ level p)
      (mapInner (flat tmpPaddr) child flags p v) (mapInner (flat tmpPaddr) child flags p v)
      fun _ => Intact tmpPaddr tmpPt root t₀ level p := by
  by_cases hrange : v.i < ptLength ∧ 0 < v.pages
  swap
  · rw [mapInner, if_neg hrange]
    exact Transfers.pure fun _ h => h
  by_cases hgate : Gate tmpPaddr root tmpPt t₀.mem p v.i
  · -- the call does not return
    apply Transfers.of_start
    intro t ht
    have hfault : ∀ r, mapInner (flat tmpPaddr) child flags p v t ≠ .ok r := by
      intro r hok
      rw [mapInner_gate ht hgate hrange] at hok
      cases hok
    refine ⟨⟨fun t₁ heq a t' hok => ?_⟩, fun t₁ heq a t' hok => ?_⟩
    · exact absurd (heq ▸ hok) (hfault _)
    · exact absurd (heq ▸ hok) (hfault _)
  rw [mapInner, if_pos hrange]
  apply Transfers.bind (transfers_read hne fun t _ => hgate)
  intro e
  apply Transfers.bind (transfers_openTable hne hlevel hrange.1 hgate e)
  intro q
  apply Transfers.bind (Q := fun _ t => Intact tmpPaddr tmpPt root t₀ level p t ∧ q ≠ tmpPaddr ∧
    TableAt tmpPaddr tmpPt root t.mem (level + 1) q)
  · apply transfers_updatePtPteFlags hne
    rintro t ⟨ht, hq, hat⟩
    have hreflag := ht.grown.ordered.reflag (e := reflag (t.mem p v.i) flags) hne ht.table hlevel
      (present_reflag _ _) (ptePaddr_reflag _ _)
    exact ⟨hgate, ht.of_set (by omega) hgate ⟨hreflag.1, hreflag.2⟩, hq,
      hreflag.2.table (level + 1) (by omega) q hat⟩
  · intro _
    apply Transfers.of_start
    rintro t₁ ⟨ht, hq, hat⟩
    apply Transfers.bind (Q := fun _ t => Intact tmpPaddr tmpPt root t₀ level p t)
    · refine ⟨⟨fun t₂ heq a t hok => ?_⟩, fun t₂ heq a t hok => ?_⟩
      · rw [heq] at hok
        have hchild := (hchild q v.paddr v.pages hq).run t₁ ⟨⟨ht.grown, hat⟩, ht.gates⟩ a t hok
        have hgrown := ((hgrows t₁ q v.paddr v.pages hq).run t₁
          ⟨⟨ht.grown.ordered, Grows.refl _⟩, hat⟩ a t hok).grown
        exact ⟨ht.toWorking.of_grown (by omega) hgrown, hchild.gates⟩
      · rw [heq] at hok ⊢
        exact (hchild q v.paddr v.pages hq).transfers t₁ ⟨⟨ht.grown, hat⟩, ht.gates⟩ a t hok
    · rintro ⟨res, w⟩
      apply Transfers.bind (Q := fun _ t => Intact tmpPaddr tmpPt root t₀ level p t)
      · exact Transfers.pure fun _ h => h
      · exact fun _ => Transfers.pure fun _ h => h

/-- A level of the recursion. -/
theorem transfers_mapRounds {body : MapVars → Prog Fault FlatState
      (FaultState.Flow MapVars (Status × MapVars))}
    (hbody : ∀ v, Transfers (FlatState.cut tmpPaddr root tmpPt t₀.mem)
      (Intact tmpPaddr tmpPt root t₀ level p) (body v) (body v)
      fun _ => Intact tmpPaddr tmpPt root t₀ level p) (v : MapVars) :
    Transfers (FlatState.cut tmpPaddr root tmpPt t₀.mem) (Intact tmpPaddr tmpPt root t₀ level p)
      (rounds body (fun v => return (success, v)) ptLength v)
      (rounds body (fun v => return (success, v)) ptLength v)
      fun _ => Intact tmpPaddr tmpPt root t₀ level p := by
  apply Transfers.rounds (fun _ => Intact tmpPaddr tmpPt root t₀ level p)
  · refine fun v => (hbody v).mono (fun _ h => h) fun flow t ht => ?_
    cases flow <;> exact ht
  · exact fun _ => Transfers.pure fun _ h => h

/-- **Without the gates** `recurse_map` does the same. -/
theorem transfers_recurseMap (height : ℕ) (hheight : height ≤ 3) (index : List ℕ) (p paddr : PAddr)
    (pages : ℕ) (hne : p ≠ tmpPaddr) :
    Transfers (FlatState.cut tmpPaddr root tmpPt t₀.mem)
      (Intact tmpPaddr tmpPt root t₀ (3 - height) p)
      (recurseMap (flat tmpPaddr) flags height index p paddr pages)
      (recurseMap (flat tmpPaddr) flags height index p paddr pages)
      fun _ => Intact tmpPaddr tmpPt root t₀ (3 - height) p := by
  induction height generalizing index p paddr pages with
  | zero => exact transfers_mapRounds (transfers_mapLeaf hne) _
  | succ height ih =>
    apply transfers_mapRounds (transfers_mapInner hne (by omega) _ _)
    · intro q paddr pages hq
      rw [show 3 - (height + 1) + 1 = 3 - height by omega]
      exact ih (by omega) index.tail q paddr pages hq
    · intro t₁ q paddr pages hq
      rw [show 3 - (height + 1) + 1 = 3 - height by omega]
      exact recurseMap_working flags height (by omega) t₁ index.tail q paddr pages hq

end Cut

/-! ## The entries that are passed -/

section Passed

variable {tmpPaddr root paddr p : PAddr} {tmpPt : ℕ → Pte} {mem mem' : Tables} {t₀ t : FlatState}
  {flags : Flags} {index path : List ℕ} {pages n i : ℕ} {K : List (List ℕ)}

/-- Entries that stay present are passed on the same way. -/
theorem mem_slots_extended {x : PAddr × ℕ} (hx : x ∈ pageTables.slots mem p path)
    (h : ∀ x ∈ pageTables.slots mem p path, present (mem x.1 x.2) = true →
      present (mem' x.1 x.2) = true ∧ ptePaddr (mem' x.1 x.2) = ptePaddr (mem x.1 x.2)) :
    x ∈ pageTables.slots mem' p path := by
  induction path generalizing p with
  | nil => cases hx
  | cons i path ih =>
    have hfirst := h (p, i) (by rw [Radix.slots]; exact List.mem_cons_self)
    rw [Radix.slots] at hx ⊢
    rcases List.mem_cons.mp hx with rfl | hx
    · exact List.mem_cons_self
    · split at hx
      next hpres =>
        obtain ⟨hpres', hnext⟩ := hfirst hpres
        have hpres'' : pageTables.present (mem' p i) = true := hpres'
        have hnext' : pageTables.next (mem' p i) = pageTables.next (mem p i) := hnext
        rw [if_pos hpres'', hnext']
        refine List.mem_cons_of_mem _ (ih hx fun y hy => h y ?_)
        rw [Radix.slots, if_pos hpres]
        exact List.mem_cons_of_mem _ hy
      next => cases hx

/-- The entries on the ways that are described have the permissions. -/
theorem InnerEffect.passed (h : InnerEffect flags root root K mem mem') (hK : Above 0 K)
    {way : List ℕ} (hway : way ∈ K) {x : PAddr × ℕ} (hx : x ∈ pageTables.slots mem root way) :
    present (mem' x.1 x.2) = true ∧ reflag (mem' x.1 x.2) flags = mem' x.1 x.2 := by
  obtain ⟨hlen, hwidth⟩ := hK way hway
  refine h.given way hway x (mem_slots_extended hx fun y hy hpres => ?_)
  obtain ⟨m, -, hm, hat, -⟩ := Radix.At.root.slots hwidth hy
  rcases h.extended.inner m (by omega) y.1 hat y.2 hpres with heq | heq
  · rw [heq]
    exact ⟨hpres, rfl⟩
  · rw [heq, present_reflag, ptePaddr_reflag]
    exact ⟨hpres, rfl⟩

/-- No entry on a path in front of the gates is a gate. -/
def Open (tmpPaddr root : PAddr) (tmpPt : ℕ → Pte) (mem : Tables) (p : PAddr) (path : List ℕ) :
    Prop :=
  ∀ x ∈ pageTables.slots (cut tmpPaddr root tmpPt mem mem) p path,
    ¬ Gate tmpPaddr root tmpPt mem x.1 x.2

/-- The entries of such a path are the same with the gates. -/
theorem Open.entry_eq (h : Open tmpPaddr root tmpPt mem root path) (hroot : root ≠ tmpPaddr)
    (hlen : path.length ≤ 4) (hwidth : ∀ i ∈ path, i < ptLength) :
    ∀ x ∈ pageTables.slots (cut tmpPaddr root tmpPt mem mem) root path,
      view tmpPaddr tmpPt mem x.1 x.2 = cut tmpPaddr root tmpPt mem mem x.1 x.2 := by
  intro x hx
  obtain ⟨m, -, hm, hat, -⟩ := Radix.At.root.slots hwidth hx
  have hne := (at_cut hroot hat (by omega)).2
  rw [cut_of_not_gate hne (h x hx), view_of_ne hne]

/-- A path in front of the gates is the same with them, and so is what is mapped there. -/
theorem Open.slots_eq (h : Open tmpPaddr root tmpPt mem root path) (hroot : root ≠ tmpPaddr)
    (hlen : path.length ≤ 4) (hwidth : ∀ i ∈ path, i < ptLength) :
    pageTables.slots (view tmpPaddr tmpPt mem) root path =
      pageTables.slots (cut tmpPaddr root tmpPt mem mem) root path :=
  (Radix.leaf_congr (h.entry_eq hroot hlen hwidth)).1

/-- The entry in the place of a path. -/
theorem Open.place_eq (h : Open tmpPaddr root tmpPt mem root path.dropLast)
    (hordered : Ordered tmpPaddr tmpPt root mem t.frames) (hroot : root ≠ tmpPaddr)
    (hpath : IsPath path) :
    pageTables.place (view tmpPaddr tmpPt mem) root path =
        pageTables.place (cut tmpPaddr root tmpPt mem mem) root path ∧
      mapped (view tmpPaddr tmpPt mem) root path =
        mapped (cut tmpPaddr root tmpPt mem mem) root path := by
  have hplace : pageTables.place (view tmpPaddr tmpPt mem) root path =
      pageTables.place (cut tmpPaddr root tmpPt mem mem) root path := by
    refine Radix.place_of_slots (h.entry_eq hroot ?_ ?_)
    · rw [List.length_dropLast, hpath.1]
      omega
    · exact fun i hi => hpath.2 i (List.mem_of_mem_dropLast hi)
  refine ⟨hplace, ?_⟩
  rw [mapped, mapped, Radix.leaf_eq_placed, Radix.leaf_eq_placed, hplace]
  have htop : TableOf root (cut tmpPaddr root tmpPt mem mem) 0 root := .root
  obtain ⟨m, hat, hm, -⟩ := htop.place hpath.2
  rw [hpath.1] at hm
  generalize pageTables.place (cut tmpPaddr root tmpPt mem mem) root path = pl at hat hm
  obtain ⟨q, rest⟩ := pl
  rcases rest with _ | ⟨i, _ | ⟨j, rest⟩⟩
  · rfl
  · -- the leaf tables have no gates
    replace hm : m + 1 = 0 + 4 := hm
    obtain rfl : m = 3 := by omega
    obtain ⟨hleaf, hne⟩ := at_cut hroot hat le_rfl
    have hgate : ¬ Gate tmpPaddr root tmpPt mem q i := by
      rintro ⟨⟨n, hn, hat'⟩, -⟩
      have := hordered.oneLevel q hne n (by omega) 3 le_rfl hat' hleaf
      omega
    show (pageTables.entry _ (q, i)).isSome = (pageTables.entry _ (q, i)).isSome
    rw [Radix.entry, Radix.entry, cut_of_not_gate hne hgate, view_of_ne hne]
  · rfl

/-- `recurse_map` passes the entry, when it goes on from the indices. -/
def PassedFrom (mem : Tables) (root : PAddr) (index : List ℕ) (pages : ℕ) (x : PAddr × ℕ) : Prop :=
  ∃ way ∈ fillWays mem root index pages, x ∈ pageTables.slots mem root way

/-- The ways on which `recurse_map` makes entries are in front of the gates. -/
theorem InnerEffect.open {t : FlatState} (h : InnerEffect flags root root K
      (cut tmpPaddr root tmpPt mem mem) (cut tmpPaddr root tmpPt mem t.mem)) (hK : Above 0 K)
    {way : List ℕ} (hway : way ∈ K) : Open tmpPaddr root tmpPt mem root way := by
  intro x hx hgate
  have hpres := (h.passed hK hway hx).1
  rw [cut_of_gate hgate, present_zero] at hpres
  cases hpres

/-- They are the same ways with the gates. -/
theorem fillWays_view (hordered : Ordered tmpPaddr tmpPt root mem t.frames)
    (hroot : root ≠ tmpPaddr) (hlen : index.length = 4)
    (hopen : ∀ way ∈ fillWays (cut tmpPaddr root tmpPt mem mem) root index pages,
      Open tmpPaddr root tmpPt mem root way) :
    fillWays (view tmpPaddr tmpPt mem) root index pages =
      fillWays (cut tmpPaddr root tmpPt mem mem) root index pages := by
  unfold fillWays at hopen ⊢
  split
  next hidx =>
    rw [if_pos hidx] at hopen
    congr 1
    refine Handout.gone_eq_gone (fun u => IsPath u ∧ Open tmpPaddr root tmpPt mem root u.dropLast)
      (fun u v hu hv => ?_) (fun u hu => ⟨?_, hopen _ (List.mem_map_of_mem hu)⟩) fun u hu => ?_
    · rw [Together, Together, (hu.2.place_eq hordered hroot hu.1).1,
        (hv.2.place_eq hordered hroot hv.1).1]
    · obtain ⟨hulen, hwidth⟩ := Radix.of_mem_box (Handout.gone_subset hu)
      exact ⟨hulen.trans hlen, hwidth⟩
    · exact (hu.2.place_eq hordered hroot hu.1).2
  next => rfl

/-- **What mapping does to an entry that is present**: above the leaf tables, those that are passed
get the permissions, and no other changes. -/
theorem recurseMap_rewrites {res : Status} {w : MapVars} (hroot : root ≠ tmpPaddr)
    (hordered : Ordered tmpPaddr tmpPt root t₀.mem t₀.frames) (htmp : tmpPaddr ∉ t₀.frames)
    (hlen : index.length = 4) (hpages : 0 < pages)
    (hok : recurseMap (flat tmpPaddr) flags 3 index root paddr pages t₀ = .ok ((res, w), t))
    {q : PAddr} (hn : n ≤ 3) (hat : TableAt tmpPaddr tmpPt root t₀.mem n q)
    (hpres : present (view tmpPaddr tmpPt t₀.mem q i) = true) :
    (PassedFrom (view tmpPaddr tmpPt t₀.mem) root index pages (q, i) →
      view tmpPaddr tmpPt t.mem q i = reflag (view tmpPaddr tmpPt t₀.mem q i) flags) ∧
    (¬ PassedFrom (view tmpPaddr tmpPt t₀.mem) root index pages (q, i) →
      view tmpPaddr tmpPt t.mem q i = view tmpPaddr tmpPt t₀.mem q i) := by
  have htransfers : Transfers (FlatState.cut tmpPaddr root tmpPt t₀.mem)
      (Intact tmpPaddr tmpPt root t₀ 0 root)
      (recurseMap (flat tmpPaddr) flags 3 index root paddr pages)
      (recurseMap (flat tmpPaddr) flags 3 index root paddr pages)
      fun _ => Intact tmpPaddr tmpPt root t₀ 0 root :=
    transfers_recurseMap 3 le_rfl index root paddr pages hroot
  have hstart : Intact tmpPaddr tmpPt root t₀ 0 root t₀ :=
    ⟨⟨⟨hordered, Grows.refl _⟩, .root⟩, fun _ _ _ => rfl⟩
  have hgates := (htransfers.run t₀ hstart _ _ hok).gates
  obtain ⟨hvis, hran⟩ := recurseMap_ran (hordered.soundCut hroot htmp) hlen hpages
    (htransfers.transfers t₀ hstart _ _ hok)
  have heff := hran.innerEffect
  have hK : Above 0 (fillWays (cut tmpPaddr root tmpPt t₀.mem t₀.mem) root index pages) :=
    above_fillWays hlen
  have hopen : ∀ way ∈ fillWays (cut tmpPaddr root tmpPt t₀.mem t₀.mem) root index pages,
      Open tmpPaddr root tmpPt t₀.mem root way := fun way hway => heff.open hK hway
  have hpasses : PassedFrom (view tmpPaddr tmpPt t₀.mem) root index pages (q, i) ↔
      PassedFrom (cut tmpPaddr root tmpPt t₀.mem t₀.mem) root index pages (q, i) := by
    rw [PassedFrom, PassedFrom, fillWays_view hordered hroot hlen hopen]
    refine exists_congr fun way => and_congr_right fun hway => ?_
    obtain ⟨hwaylen, hwidth⟩ := hK way hway
    rw [(hopen way hway).slots_eq hroot (by omega) hwidth]
  rw [hpasses]
  constructor
  · rintro ⟨way, hway, hx⟩
    obtain ⟨hwaylen, hwidth⟩ := hK way hway
    obtain ⟨m, -, hm, hcut, -⟩ := Radix.At.root.slots hwidth hx
    have hne : q ≠ tmpPaddr := (at_cut hroot hcut (by omega)).2
    have hgate := hopen way hway (q, i) hx
    have hgiven := (heff.passed hK hway hx).2
    rw [view_of_ne hne] at hpres ⊢
    rw [view_of_ne hne]
    replace hgiven : reflag (cut tmpPaddr root tmpPt t₀.mem t.mem q i) flags =
      cut tmpPaddr root tmpPt t₀.mem t.mem q i := hgiven
    have hinner := heff.extended.inner m (by omega) q hcut i
      (by rw [show (t₀.cut tmpPaddr root tmpPt t₀.mem).mem q i = t₀.mem q i from
        cut_of_not_gate hne hgate]; exact hpres)
    replace hinner : cut tmpPaddr root tmpPt t₀.mem t.mem q i =
        cut tmpPaddr root tmpPt t₀.mem t₀.mem q i ∨ cut tmpPaddr root tmpPt t₀.mem t.mem q i =
          reflag (cut tmpPaddr root tmpPt t₀.mem t₀.mem q i) flags := hinner
    rw [cut_of_not_gate hne hgate, cut_of_not_gate hne hgate] at hinner
    rw [cut_of_not_gate hne hgate] at hgiven
    rcases hinner with heq | heq
    · rw [heq] at hgiven ⊢
      exact hgiven.symm
    · exact heq
  · intro hnot
    by_cases htmpq : q = tmpPaddr
    · rw [htmpq, view_self, view_self]
    rw [view_of_ne htmpq] at hpres ⊢
    rw [view_of_ne htmpq]
    by_cases hgate : Gate tmpPaddr root tmpPt t₀.mem q i
    · exact hgates q i hgate
    have hread : ∀ mem, cut tmpPaddr root tmpPt t₀.mem mem q i = mem q i :=
      fun mem => cut_of_not_gate htmpq hgate
    rw [← hread t₀.mem] at hpres ⊢
    rw [← hread t.mem]
    by_cases hcut : ∃ m ≤ 3, TableOf root (cut tmpPaddr root tmpPt t₀.mem t₀.mem) m q
    · obtain ⟨m, hm, hcut⟩ := hcut
      by_cases hleaf : m = 3
      · exact hvis.leaves q (hleaf ▸ hcut) i hpres
      · by_contra hne
        exact hnot (heff.changed m (by omega) q hcut i hpres hne)
    · -- the table is behind a gate
      refine hvis.other q (fun m hm hm' => hcut ⟨m, hm, hm'⟩) (fun hf => ?_) i
      exact hordered.noTable q hf n hn hat

end Passed

end Mimik.Vm
