/-
# The machine without a window

What the operations of `flat` do, as rules for `Triple`.
-/
import Mimik.GuardedRun
import Mimik.PageWalk
import Mimik.VmWindow
import Mathlib.Tactic.IntervalCases

namespace Mimik.Vm

open FaultState

variable {tmpPaddr : PAddr} {α : Type} {P : FlatState → Prop}

/-- The state after a store. -/
def FlatState.set (t : FlatState) (p : PAddr) (i : ℕ) (e : Pte) : FlatState :=
  { t with mem := t.mem.set p i e }

@[simp] theorem FlatState.set_mem (t : FlatState) (p : PAddr) (i : ℕ) (e : Pte) :
    (t.set p i e).mem = t.mem.set p i e := rfl

@[simp] theorem FlatState.set_frames (t : FlatState) (p : PAddr) (i : ℕ) (e : Pte) :
    (t.set p i e).frames = t.frames := rfl

@[simp] theorem FlatState.set_tlb (t : FlatState) (p : PAddr) (i : ℕ) (e : Pte) :
    (t.set p i e).tlb = t.tlb := rfl

/-- The state after `create_pt` with the first of the frames. -/
def FlatState.created (t : FlatState) (p : PAddr) (i : ℕ) (f : PAddr) : FlatState :=
  { t with
    mem := (t.mem.clear (ptePaddr f)).set p i (setPte f vmFlagWritable)
    frames := t.frames.tail }

theorem flat_read {Q : Pte → FlatState → Prop} (p : PAddr) (i : ℕ)
    (h : ∀ t, P t → Q (t.mem p i) t) : Triple P ((flat tmpPaddr).read p i) Q :=
  Triple.of_apply (fun t => t.mem p i) id (fun _ => rfl) h

theorem flat_write {Q : Unit → FlatState → Prop} (p : PAddr) (i : ℕ) (e : Pte)
    (h : ∀ t, P t → Q () (t.set p i e)) : Triple P ((flat tmpPaddr).write p i e) Q :=
  Triple.of_apply (fun _ => ()) (fun t => t.set p i e) (fun _ => rfl) h

theorem flat_invalidatePage {Q : Unit → FlatState → Prop} (vaddr : ℕ)
    (h : ∀ t, P t → Q () { t with tlb := t.tlb.invlpg vaddr }) :
    Triple P ((flat tmpPaddr).invalidatePage vaddr) Q :=
  Triple.of_apply (fun _ => ()) _ (fun _ => rfl) h

theorem flat_mapPageTmp {Q : PAddr → FlatState → Prop} (paddr : PAddr) (flags : Flags)
    (h : ∀ t, P t → ptePaddr paddr ≠ tmpPaddr → Q (ptePaddr paddr) t) :
    Triple P ((flat tmpPaddr).mapPageTmp paddr flags) Q := by
  show Triple P (if ptePaddr paddr = tmpPaddr then fault strayed else pure (ptePaddr paddr)) Q
  apply Triple.ite
  · exact fun _ => Triple.fault _
  · exact fun hne => Triple.pure fun t ht => h t ht hne

theorem flat_unmapPageTmp {Q : Unit → FlatState → Prop} (p : PAddr) (h : ∀ t, P t → Q () t) :
    Triple P ((flat tmpPaddr).unmapPageTmp p) Q :=
  Triple.pure h

/-- A table of the level below is worked on in place. -/
theorem flat_withTable {Q : α → FlatState → Prop} {body : PAddr → Prog Fault FlatState α}
    (paddr : PAddr) (h : ptePaddr paddr ≠ tmpPaddr → Triple P (body (ptePaddr paddr)) Q) :
    Triple P (withTable (flat tmpPaddr) paddr body) Q := by
  apply Triple.bind (Q := fun q t => P t ∧ q = ptePaddr paddr ∧ ptePaddr paddr ≠ tmpPaddr)
    (flat_mapPageTmp paddr _ fun t ht hne => ⟨ht, rfl, hne⟩)
  intro q
  apply Triple.bind (Q := Q)
  · constructor
    rintro t ⟨ht, rfl, hne⟩
    exact (h hne).run t ht
  · intro res
    apply Triple.bind (Q := fun _ t => Q res t) (flat_unmapPageTmp q fun _ ht => ht)
    exact fun _ => Triple.pure fun _ ht => ht

theorem flat_updatePtPteFlags {Q : Unit → FlatState → Prop} (p : PAddr) (i : ℕ) (flags : Flags)
    (h : ∀ t, P t → Q () (t.set p i (reflag (t.mem p i) flags))) :
    Triple P (updatePtPteFlags (flat tmpPaddr) p i flags) Q := by
  apply Triple.bind (Q := fun e t => P t ∧ e = t.mem p i) (flat_read p i fun t ht => ⟨ht, rfl⟩)
  intro e
  apply flat_write
  rintro t ⟨ht, rfl⟩
  exact h t ht

theorem flat_createPt {Q : PAddr → FlatState → Prop} (p : PAddr) (i : ℕ)
    (h : ∀ t f frames, P t → t.frames = f :: frames → ptePaddr f ≠ tmpPaddr →
      Q (ptePaddr f) (t.created p i f)) : Triple P (createPt (flat tmpPaddr) p i) Q where
  run t ht q t' hok := by
    obtain ⟨f, t₁, hreq, hok⟩ := bind_eq_ok_iff.mp hok
    obtain ⟨q₁, t₂, hmap, hok⟩ := bind_eq_ok_iff.mp hok
    obtain ⟨_, t₃, hset, hok⟩ := bind_eq_ok_iff.mp hok
    obtain ⟨_, t₄, hwrite, hok⟩ := bind_eq_ok_iff.mp hok
    rw [pure_eq_ok_iff] at hok
    simp only [flat] at hreq hmap hset hwrite
    split at hreq
    next => cases hreq
    next f₁ frames hfr =>
      cases hreq
      split at hmap
      next => cases hmap
      next hne =>
        cases hmap
        cases hset
        cases hwrite
        rw [hok.1, hok.2]
        have hq := h t f frames ht hfr hne
        rw [FlatState.created, hfr] at hq
        exact hq

/-! ### The operations return -/

/-- `create_pt` with the first of the frames. -/
theorem flat_createPt_eq {t : FlatState} {f : PAddr} {frames : List PAddr}
    (hframes : t.frames = f :: frames) (hne : ptePaddr f ≠ tmpPaddr) (p : PAddr) (i : ℕ) :
    createPt (flat tmpPaddr) p i t = .ok (ptePaddr f, t.created p i f) := by
  have hreq : (flat tmpPaddr).pmRequestPage t = .ok (f, { t with frames }) := by
    simp only [flat, hframes]
  have hmap : (flat tmpPaddr).mapPageTmp f vmFlagWritable { t with frames } =
      .ok (ptePaddr f, { t with frames }) := by
    show (if ptePaddr f = tmpPaddr then _ else _ : Prog Fault FlatState PAddr) _ = _
    rw [if_neg hne]
    rfl
  rw [createPt, bind_eq_of_ok hreq, bind_eq_of_ok hmap, FlatState.created, hframes]
  rfl

theorem flatTotal_read {Q : Pte → FlatState → Prop} (p : PAddr) (i : ℕ)
    (h : ∀ t, P t → Q (t.mem p i) t) : Total P ((flat tmpPaddr).read p i) Q :=
  Total.of_apply (fun t => t.mem p i) id (fun _ => rfl) h

theorem flatTotal_write {Q : Unit → FlatState → Prop} (p : PAddr) (i : ℕ) (e : Pte)
    (h : ∀ t, P t → Q () (t.set p i e)) : Total P ((flat tmpPaddr).write p i e) Q :=
  Total.of_apply (fun _ => ()) (fun t => t.set p i e) (fun _ => rfl) h

/-- A table of the level below is worked on in place, unless it is `tmp_pt`. -/
theorem flatTotal_withTable {Q : α → FlatState → Prop} {body : PAddr → Prog Fault FlatState α}
    (paddr : PAddr) (hne : ptePaddr paddr ≠ tmpPaddr) (h : Total P (body (ptePaddr paddr)) Q) :
    Total P (withTable (flat tmpPaddr) paddr body) Q := by
  have hmap : (flat tmpPaddr).mapPageTmp paddr vmFlagWritable =
      (pure (ptePaddr paddr) : Prog Fault FlatState PAddr) := if_neg hne
  rw [withTable, hmap, pure_bind]
  apply Total.bind h
  intro res
  exact Total.bind (Q := fun _ t => Q res t) (Total.pure fun _ ht => ht) fun _ =>
    Total.pure fun _ ht => ht

/-- The same for the absence of a fault. -/
theorem flatSafe_withTable {f : Fault} {Q : α → FlatState → Prop}
    {body : PAddr → Prog Fault FlatState α} (paddr : PAddr) (hne : ptePaddr paddr ≠ tmpPaddr)
    (h : Safe f P (body (ptePaddr paddr)) Q) :
    Safe f P (withTable (flat tmpPaddr) paddr body) Q := by
  have hmap : (flat tmpPaddr).mapPageTmp paddr vmFlagWritable =
      (pure (ptePaddr paddr) : Prog Fault FlatState PAddr) := if_neg hne
  rw [withTable, hmap, pure_bind]
  apply Safe.bind h
  intro res
  exact Safe.bind (Q := fun _ t => Q res t) (Safe.pure fun _ ht => ht) fun _ =>
    Safe.pure fun _ ht => ht

theorem flatTotal_updatePtPteFlags {Q : Unit → FlatState → Prop} (p : PAddr) (i : ℕ)
    (flags : Flags) (h : ∀ t, P t → Q () (t.set p i (reflag (t.mem p i) flags))) :
    Total P (updatePtPteFlags (flat tmpPaddr) p i flags) Q := by
  apply Total.bind (Q := fun e t => P t ∧ e = t.mem p i)
    (flatTotal_read p i fun t ht => ⟨ht, rfl⟩)
  intro e
  apply flatTotal_write
  rintro t ⟨ht, rfl⟩
  exact h t ht

/-- The operations that only look at tables leave the state. -/
theorem flat_lookKeeps (kept : FlatState → Prop) : (flat tmpPaddr).LookKeeps kept where
  read p i := flat_read p i fun _ h => h
  mapPageTmp paddr flags := flat_mapPageTmp paddr flags fun _ h _ => h
  unmapPageTmp p := flat_unmapPageTmp p fun _ h => h

/-- `find_space` changes nothing. -/
theorem flat_findSpace (fuel : ℕ) (paddrStart : PAddr) (pages : ℕ) (flags : Flags) (height : ℕ)
    (index : List ℕ) (p : PAddr) :
    Triple P (findSpace (flat tmpPaddr) fuel paddrStart pages flags height index p)
      fun _ t => P t :=
  keeps_findSpace (flat_lookKeeps P) fuel paddrStart pages flags height index p

/-! ## A small address space -/

/-- Four tables in a row, at the first four pages after page 0: what is mapped lies in
the first 2 MiB, with the leaf entries `leaves`. -/
def rowTables (leaves : ℕ → Pte) (flags : Flags) : Tables := fun p i =>
  if p = 0x4000#64 then leaves i
  else if i = 0 ∧ (p = 0x1000#64 ∨ p = 0x2000#64 ∨ p = 0x3000#64) then
    setPte (p + 0x1000#64) flags
  else 0#64

/-- A state with these tables, an empty window in `tmp_pt` at `0x8000`, and the frames
that `pm_request_page` is going to return. -/
def rowState (leaves : ℕ → Pte) (flags : Flags) (frames : List PAddr) : VmState where
  mem := rowTables leaves flags
  tmpPt := fun i => if i = 511 then setPte 0x8000#64 vmFlagWritable else 0#64
  firstFreeTmpIndex := 0
  frames
  tlb := []
  opened := []

/-- The tables of the row serve at one level each. -/
theorem at_rowTables {leaves : ℕ → Pte} {flags : Flags} {tmpPt : ℕ → Pte} {n : ℕ} {p : PAddr}
    (h : pageTables.At (view 0x8000#64 tmpPt (rowTables leaves flags)) 0x1000#64 n p)
    (hn : n ≤ 3) : p = BitVec.ofNat 64 (0x1000 * (n + 1)) := by
  induction h with
  | root => rfl
  | @step n p i hp _ hpres ih =>
    have hlt : n < 3 := by omega
    have ih := ih (by omega)
    have hne : p ≠ 0x8000#64 := by
      rw [ih]
      interval_cases n <;> decide
    replace hpres : present (view 0x8000#64 tmpPt (rowTables leaves flags) p i) = true := hpres
    show ptePaddr (view 0x8000#64 tmpPt (rowTables leaves flags) p i) = _
    have hnot : p ≠ 0x4000#64 := by
      rw [ih]
      interval_cases n <;> decide
    rw [view_of_ne hne, rowTables, if_neg hnot] at hpres ⊢
    split at hpres
    next hrow =>
      rw [if_pos hrow, ptePaddr_setPte, ih]
      interval_cases n <;> decide
    next => simp at hpres

/-- They do not lead into the window. -/
theorem clear_rowTables {leaves : ℕ → Pte} {flags : Flags} {tmpPt : ℕ → Pte} :
    ¬ LeadsToWindow 0x8000#64 tmpPt (rowTables leaves flags) 0x1000#64 := by
  rintro ⟨n, hn, hat⟩
  have heq := congrArg BitVec.toNat (at_rowTables hat hn)
  rw [BitVec.toNat_ofNat, BitVec.toNat_ofNat] at heq
  omega

/-- The entries of the row above the leaf table: only the first leads on. -/
theorem present_rowTables {leaves : ℕ → Pte} {flags : Flags} {p : PAddr} {i : ℕ}
    (hp : p = 0x1000#64 ∨ p = 0x2000#64 ∨ p = 0x3000#64) :
    (present (rowTables leaves flags p i) = true ↔ i = 0) ∧
      ptePaddr (rowTables leaves flags p 0) = p + 0x1000#64 := by
  have hne : p ≠ 0x4000#64 := by rcases hp with rfl | rfl | rfl <;> decide
  have hal : ptePaddr (p + 0x1000#64) = p + 0x1000#64 := by
    rcases hp with rfl | rfl | rfl <;> decide
  constructor
  · rw [rowTables, if_neg hne]
    by_cases hi : i = 0
    · rw [if_pos ⟨hi, hp⟩, present_setPte]
      simp [hi]
    · rw [if_neg fun h => hi h.1, present_zero]
      simp [hi]
  · rw [rowTables, if_neg hne, if_pos ⟨rfl, hp⟩, ptePaddr_setPte, hal]

/-- A walk goes on along the row. -/
theorem leafSlot_row {leaves : ℕ → Pte} {flags : Flags} {p : PAddr} {i j : ℕ} {path : List ℕ}
    (hp : p = 0x1000#64 ∨ p = 0x2000#64 ∨ p = 0x3000#64) :
    pageTables.leafSlot (rowTables leaves flags) p (i :: j :: path) =
      if i = 0 then pageTables.leafSlot (rowTables leaves flags) (p + 0x1000#64) (j :: path)
      else none := by
  have h : (present (rowTables leaves flags p i) = true ↔ i = 0) ∧
      ptePaddr (rowTables leaves flags p 0) = p + 0x1000#64 := present_rowTables hp
  show (if present (rowTables leaves flags p i) = true then
    pageTables.leafSlot (rowTables leaves flags) (ptePaddr (rowTables leaves flags p i)) (j :: path)
    else none) = _
  by_cases hi : i = 0
  · subst hi
    rw [if_pos (h.1.mpr rfl), if_pos rfl, h.2]
  · rw [if_neg fun hpres => hi (h.1.mp hpres), if_neg hi]

/-- What is mapped lies below 2 MiB. -/
theorem leafSlot_rowTables {leaves : ℕ → Pte} {flags : Flags} {a b c d : ℕ} :
    pageTables.leafSlot (rowTables leaves flags) 0x1000#64 [a, b, c, d] =
      if a = 0 ∧ b = 0 ∧ c = 0 then some (0x4000#64, d) else none := by
  rw [leafSlot_row (.inl rfl), show (0x1000#64 + 0x1000#64 : PAddr) = 0x2000#64 from rfl,
    leafSlot_row (.inr (.inl rfl)), show (0x2000#64 + 0x1000#64 : PAddr) = 0x3000#64 from rfl,
    leafSlot_row (.inr (.inr rfl))]
  by_cases ha : a = 0
  · by_cases hb : b = 0
    · by_cases hc : c = 0
      · rw [if_pos ha, if_pos hb, if_pos hc, if_pos ⟨ha, hb, hc⟩]
        rfl
      · rw [if_pos ha, if_pos hb, if_neg hc, if_neg fun h => hc h.2.2]
    · rw [if_pos ha, if_neg hb, if_neg fun h => hb h.2.1]
  · rw [if_neg ha, if_neg fun h => ha h.1]

/-- The window of these states. -/
theorem window_rowState {leaves : ℕ → Pte} {flags : Flags} {frames : List PAddr} :
    WindowOk (rowState leaves flags frames).tmpPt (rowState leaves flags frames).firstFreeTmpIndex
    where
  clear i _ h := by
    show (if i = 511 then _ else _) = _
    by_cases hi : i = 511
    · subst hi
      have hself : present ((rowState leaves flags frames).tmpPt 511) = true :=
        present_setPte 0x8000#64 vmFlagWritable
      rw [hself] at h
      cases h
    · rw [if_neg hi]
  le := Nat.zero_le _
  ne := by show (0 : ℕ) ≠ 511; decide
  free _ := present_zero
  lowest i hi := by cases hi

/-- The window of these states has room. -/
theorem room_rowState {leaves : ℕ → Pte} {flags : Flags} {frames : List PAddr} :
    Room 3 (rowState leaves flags frames).tmpPt := by
  have hfree : ∀ i ∈ Finset.range 511,
    present ((rowState leaves flags frames).tmpPt i) = false := by
    intro i hi
    have hne : i ≠ 511 := (Finset.mem_range.mp hi).ne
    show present (if i = 511 then setPte 0x8000#64 vmFlagWritable else 0#64) = false
    rw [if_neg hne, present_zero]
  rw [Room, Finset.filter_true_of_mem hfree, Finset.card_range]
  omega

/-- The window is balanced when the page after the one that is mapped is mapped. -/
theorem window_balanced_second :
    ∃ s', call 0x1000#64 ((VmCall.mapPages 2 0x6000#64 1 0x1000 vmFlagWritable).run
        (kernel 0x8000#64) (.table 0x1000#64))
        (rowState (fun i => if i = 0 then 0x5003#64 else 0#64) vmFlagWritable []) = .ok ((), s') ∧
      s'.tmpPt = (rowState (fun i => if i = 0 then 0x5003#64 else 0#64) vmFlagWritable []).tmpPt ∧
      s'.firstFreeTmpIndex = 0 := by
  have hrun : (call 0x1000#64 ((VmCall.mapPages 2 0x6000#64 1 0x1000 vmFlagWritable).run
      (kernel 0x8000#64) (.table 0x1000#64))
      (rowState (fun i => if i = 0 then 0x5003#64 else 0#64) vmFlagWritable [])).toOption.any
      (fun x => decide (0x8000#64 ∉ x.2.opened)) = true := by
    decide +kernel
  obtain ⟨⟨_, s'⟩, hok, htest⟩ := Except.exists_of_any hrun
  exact ⟨s', hok, (window_balanced _ window_rowState room_rowState).1 s' hok
    (of_decide_eq_true htest)⟩

end Mimik.Vm
