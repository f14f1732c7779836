/-
# The temporary window

A call of the manager opens and closes slots of `tmp_pt` as it goes down and up the
levels.  While it does not walk `tmp_pt` itself, this is invisible: the call does to
the tables what it does on the machine without a window, and it leaves `tmp_pt` and
`first_free_tmp_index` as it found them (`call_flat`).  With a free slot for each
level below the root no assertion of the window fails (`flat_call`).

`Rel` relates the two machines at one level of the recursion: `tmpPt` and `first` are
the window at that level, and the translations held for the slots that are open
there (`slots`) are the only ones the second machine need not have.
-/
import Mimik.Vm
import Mathlib.Data.Finset.Card

namespace Mimik.Vm

open FaultState

/-! ## The invariant of the window -/

/-- What holds of `tmp_pt` and `first_free_tmp_index` between two calls: the slots that
are not in use are zero, and `first_free_tmp_index` is the lowest of them, 511 apart,
which is not handed out. -/
structure WindowOk (tmpPt : ℕ → Pte) (first : ℕ) : Prop where
  clear : ∀ i < ptLength, present (tmpPt i) = false → tmpPt i = 0#64
  le : first ≤ ptLength
  ne : first ≠ 511
  free : first < ptLength → present (tmpPt first) = false
  lowest : ∀ i < first, i ≠ 511 → present (tmpPt i) = true

/-- At least `n` slots can be handed out. -/
def Room (n : ℕ) (tmpPt : ℕ → Pte) : Prop :=
  n ≤ ((Finset.range 511).filter fun i => present (tmpPt i) = false).card

/-- Where there is room there is a lowest free slot. -/
theorem WindowOk.first_lt {tmpPt : ℕ → Pte} {first n : ℕ} (hwin : WindowOk tmpPt first)
    (hroom : Room (n + 1) tmpPt) : first < 511 := by
  have hpos : 0 < ((Finset.range 511).filter fun i => present (tmpPt i) = false).card := by
    rw [Room] at hroom
    omega
  obtain ⟨i, hi⟩ := Finset.card_pos.mp hpos
  rw [Finset.mem_filter, Finset.mem_range] at hi
  by_contra hge
  have hpres := hwin.lowest i (by have := hwin.ne; omega) (by omega)
  rw [hi.2] at hpres
  cases hpres

/-- A slot that is taken leaves one slot less. -/
theorem Room.take {tmpPt : ℕ → Pte} {first n : ℕ} (hroom : Room (n + 1) tmpPt)
    (e : Pte) : Room n (Function.update tmpPt first e) := by
  have hsub : ((Finset.range 511).filter fun i => present (tmpPt i) = false).erase first ⊆
      (Finset.range 511).filter fun i => present (Function.update tmpPt first e i) = false := by
    intro i hi
    rw [Finset.mem_erase, Finset.mem_filter] at hi
    rw [Finset.mem_filter, Function.update_of_ne hi.1]
    exact hi.2
  have hcard := Finset.card_le_card hsub
  have herase := Finset.pred_card_le_card_erase (s := (Finset.range 511).filter fun i =>
    present (tmpPt i) = false) (a := first)
  rw [Room] at hroom ⊢
  omega

/-- The search for the next free slot ends at the lowest free slot above, 511 apart. -/
theorem nextFreeTmpIndex_spec (tmpPt : ℕ → Pte) (n i : ℕ) (hi : i < 511) (hn : 512 ≤ i + n) :
    let j := Kernel.nextFreeTmpIndex tmpPt n i
    i < j ∧ j ≤ 512 ∧ j ≠ 511 ∧ (j < 512 → present (tmpPt j) = false) ∧
      ∀ k, i < k → k < j → k ≠ 511 → present (tmpPt k) = true := by
  induction n generalizing i with
  | zero => omega
  | succ n ih =>
    simp only [Kernel.nextFreeTmpIndex]
    by_cases h511 : i + 1 = 511
    · -- the step over 511 ends the search
      have hlast : ¬ (i + 1 + 1 < ptLength ∧ present (tmpPt (i + 1 + 1)) = true) := by
        rw [ptLength]; omega
      rw [if_pos h511, if_neg hlast]
      exact ⟨by omega, by omega, by omega, by omega, fun k _ _ _ => by omega⟩
    · rw [if_neg h511]
      by_cases hgo : i + 1 < ptLength ∧ present (tmpPt (i + 1)) = true
      · rw [if_pos hgo]
        obtain ⟨hlt, hle, hne, hfree, hlow⟩ :=
          ih (i + 1) (by rw [ptLength] at hgo; omega) (by omega)
        refine ⟨by omega, hle, hne, hfree, fun k hk hkj hk' => ?_⟩
        by_cases hki : k = i + 1
        · rw [hki]; exact hgo.2
        · exact hlow k (by omega) hkj hk'
      · rw [if_neg hgo]
        refine ⟨by omega, by omega, h511, fun hlt => ?_, fun k _ _ _ => by omega⟩
        rw [ptLength] at hgo
        simpa [hlt] using hgo

/-- `map_page_tmp` keeps the invariant. -/
theorem WindowOk.take {tmpPt : ℕ → Pte} {first : ℕ} (hwin : WindowOk tmpPt first)
    (hfirst : first < 511) {e : Pte} (he : present e = true) :
    WindowOk (Function.update tmpPt first e)
      (Kernel.nextFreeTmpIndex (Function.update tmpPt first e) ptLength first) := by
  obtain ⟨hlt, hle, hne, hfree, hlow⟩ :=
    nextFreeTmpIndex_spec (Function.update tmpPt first e) ptLength first hfirst
      (by rw [ptLength]; omega)
  refine ⟨fun i hi habs => ?_, hle, hne, hfree, fun i hi hi' => ?_⟩
  · by_cases hif : i = first
    · rw [hif, Function.update_self, he] at habs
      cases habs
    · rw [Function.update_of_ne hif] at habs ⊢
      exact hwin.clear i hi habs
  · rcases Nat.lt_trichotomy i first with hif | hif | hif
    · rw [Function.update_of_ne hif.ne]
      exact hwin.lowest i hif hi'
    · rw [hif, Function.update_self, he]
    · exact hlow i hif hi hi'

/-- The index of a slot is read off its address. -/
theorem tmpIndex_tmpVaddr {i : ℕ} (hi : i < 512) : tmpIndex (tmpVaddr i) = i := by
  rw [tmpIndex, tmpVaddr, ptTmpStartVaddr, pageSize]
  omega

/-! ## What every call keeps -/

section Keeping

variable {σ π : Type} {M : Machine σ π} {kept : σ → Prop}

/-- The operations that only look at tables keep a property of the state. -/
structure Machine.LookKeeps (M : Machine σ π) (kept : σ → Prop) : Prop where
  read : ∀ pt i, Keeps kept (M.read pt i)
  mapPageTmp : ∀ paddr flags, Keeps kept (M.mapPageTmp paddr flags)
  unmapPageTmp : ∀ pt, Keeps kept (M.unmapPageTmp pt)

/-- All operations keep a property of the state. -/
structure Machine.Keeps (M : Machine σ π) (kept : σ → Prop) : Prop
    extends M.LookKeeps kept where
  write : ∀ pt i e, FaultState.Keeps kept (M.write pt i e)
  pmRequestPage : FaultState.Keeps kept M.pmRequestPage
  memSet : ∀ pt, FaultState.Keeps kept (M.memSet pt)
  invalidatePage : ∀ vaddr, FaultState.Keeps kept (M.invalidatePage vaddr)

/-- The same machine with another `mem_set`. -/
def Machine.withMemSet (M : Machine σ π) (memSet : π → Prog Fault σ Unit) : Machine σ π :=
  { M with memSet }

/-- It keeps what `M` and that `mem_set` keep. -/
theorem Machine.Keeps.withMemSet (hM : M.Keeps kept) {memSet : π → Prog Fault σ Unit}
    (h : ∀ pt, FaultState.Keeps kept (memSet pt)) : (M.withMemSet memSet).Keeps kept :=
  { hM with memSet := h }

theorem keeps_check (b : Bool) (expr : String) : Keeps kept (check b expr : Prog Fault σ Unit) :=
  Keeps.ite (Keeps.pure ()) (Keeps.fault _)

theorem keeps_withTable {α : Type} (hM : M.LookKeeps kept) {body : π → Prog Fault σ α}
    (hbody : ∀ pt, Keeps kept (body pt)) (paddr : PAddr) :
    Keeps kept (withTable M paddr body) := by
  apply Keeps.bind (hM.mapPageTmp paddr _)
  intro pt
  apply Keeps.bind (hbody pt)
  intro res
  apply Keeps.bind (hM.unmapPageTmp pt)
  intro _
  exact Keeps.pure res

theorem keeps_createPt (hM : M.Keeps kept) (pt : π) (i : ℕ) : Keeps kept (createPt M pt i) := by
  apply Keeps.bind hM.pmRequestPage
  intro paddr
  apply Keeps.bind (hM.mapPageTmp paddr _)
  intro vaddr
  apply Keeps.bind (hM.memSet vaddr)
  intro _
  apply Keeps.bind (hM.write pt i _)
  intro _
  exact Keeps.pure vaddr

theorem keeps_updatePtPteFlags (hM : M.Keeps kept) (pt : π) (i : ℕ) (flags : Flags) :
    Keeps kept (updatePtPteFlags M pt i flags) :=
  Keeps.bind (hM.read pt i) fun e => hM.write pt i (reflag e flags)

theorem keeps_scanLeaf (hM : M.LookKeeps kept) (pt : π) (pages : ℕ) (flags : Flags) (v : Search) :
    Keeps kept (scanLeaf M pt pages flags v) := by
  apply Keeps.ite _ (Keeps.pure _)
  exact Keeps.bind (hM.read pt v.i) fun e => Keeps.pure _

theorem keeps_scanInner (hM : M.LookKeeps kept)
    {child : List ℕ → π → Prog Fault σ (Status × List ℕ)}
    (hchild : ∀ below pt, Keeps kept (child below pt)) (pt : π) (pages : ℕ) (v : Search) :
    Keeps kept (scanInner M child pt pages v) := by
  apply Keeps.ite _ (Keeps.pure _)
  apply Keeps.bind (hM.read pt v.i)
  intro e
  apply Keeps.ite _ (Keeps.pure _)
  apply Keeps.bind (hM.read pt v.index)
  intro parent
  exact Keeps.bind (keeps_withTable hM (hchild v.below) (ptePaddr parent)) fun _ => Keeps.pure _

theorem keeps_countFree (hM : M.LookKeeps kept) (pt : π) (height pages : ℕ) (flags : Flags)
    (v : ℕ × ℕ × PAddr) : Keeps kept (countFree M pt height pages flags v) := by
  apply Keeps.ite _ (Keeps.pure _)
  exact Keeps.bind (hM.read pt v.1) fun e => Keeps.pure _

theorem keeps_nextFreeEntry (hM : M.LookKeeps kept)
    {scan : Search → Prog Fault σ (Flow Search (Option Status × Search))}
    (hscan : ∀ v, Keeps kept (scan v)) (pt : π) (height : ℕ) (paddrStart : PAddr) (pages : ℕ)
    (flags : Flags) (fuel i : ℕ) (below : List ℕ) :
    Keeps kept (nextFreeEntry M scan pt height paddrStart pages flags fuel i below) := by
  induction fuel generalizing i below with
  | zero => exact Keeps.fault _
  | succ fuel ih =>
    apply Keeps.bind (Keeps.rounds hscan (fun _ => Keeps.pure _) ptLength _)
    rintro ⟨_ | res, v⟩
    · apply Keeps.ite (Keeps.pure _)
      apply Keeps.bind (Keeps.rounds (keeps_countFree hM pt height pages flags)
        (fun _ => Keeps.pure _) ptLength _)
      rintro ⟨i, foundPages⟩
      apply Keeps.ite _ (Keeps.pure _)
      exact Keeps.ite (Keeps.pure _) (ih i v.below)
    · exact Keeps.pure _

theorem keeps_findSpace (hM : M.LookKeeps kept) (fuel : ℕ) (paddrStart : PAddr) (pages : ℕ)
    (flags : Flags) (height : ℕ) (index : List ℕ) (pt : π) :
    Keeps kept (findSpace M fuel paddrStart pages flags height index pt) := by
  induction height generalizing index pt with
  | zero => exact keeps_nextFreeEntry hM (keeps_scanLeaf hM pt pages flags) pt 0 ..
  | succ height ih =>
    exact keeps_nextFreeEntry hM (keeps_scanInner hM ih pt pages) pt (height + 1) ..

theorem keeps_mapLeaf (hM : M.Keeps kept) (flags : Flags) (pt : π) (v : MapVars) :
    Keeps kept (mapLeaf M flags pt v) := by
  apply Keeps.ite _ (Keeps.pure _)
  apply Keeps.bind (hM.read pt v.i)
  intro e
  apply Keeps.ite (Keeps.pure _)
  exact Keeps.bind (hM.write pt v.i _) fun _ => Keeps.pure _

theorem keeps_mapInner (hM : M.Keeps kept)
    {child : π → PAddr → ℕ → Prog Fault σ (Status × MapVars)}
    (hchild : ∀ pt paddr pages, Keeps kept (child pt paddr pages)) (flags : Flags) (pt : π)
    (v : MapVars) : Keeps kept (mapInner M child flags pt v) := by
  apply Keeps.ite _ (Keeps.pure _)
  apply Keeps.bind (hM.read pt v.i)
  intro e
  apply Keeps.bind (Keeps.ite (hM.mapPageTmp _ _) (keeps_createPt hM pt v.i))
  intro ptVaddr
  apply Keeps.bind (keeps_updatePtPteFlags hM pt v.i flags)
  intro _
  apply Keeps.bind (hchild ptVaddr v.paddr v.pages)
  rintro ⟨res, w⟩
  exact Keeps.bind (hM.unmapPageTmp ptVaddr) fun _ => Keeps.pure _

theorem keeps_recurseMap (hM : M.Keeps kept) (flags : Flags) (height : ℕ) (index : List ℕ)
    (pt : π) (paddr : PAddr) (pages : ℕ) :
    Keeps kept (recurseMap M flags height index pt paddr pages) := by
  induction height generalizing index pt paddr pages with
  | zero => exact Keeps.rounds (keeps_mapLeaf hM flags pt) (fun _ => Keeps.pure _) ..
  | succ height ih =>
    exact Keeps.rounds (keeps_mapInner hM (ih index.tail) flags pt) (fun _ => Keeps.pure _) ..

theorem keeps_unmapLeaf (hM : M.Keeps kept) (pt : π) (pages : ℕ) (v : UnmapVars) :
    Keeps kept (unmapLeaf M pt pages v) := by
  apply Keeps.ite _ (Keeps.pure _)
  apply Keeps.bind (hM.write pt v.index _)
  intro _
  exact Keeps.bind (hM.invalidatePage v.vaddr) fun _ => Keeps.pure _

theorem keeps_unmapInner (hM : M.Keeps kept) {child : List ℕ → π → ℕ → Prog Fault σ UnmapVars}
    (hchild : ∀ below pt vaddr, Keeps kept (child below pt vaddr)) (height : ℕ) (pt : π)
    (pages : ℕ) (v : UnmapVars) : Keeps kept (unmapInner M child height pt pages v) := by
  apply Keeps.ite _ (Keeps.pure _)
  apply Keeps.bind (hM.read pt v.index)
  intro pte
  apply Keeps.ite _ (Keeps.pure _)
  apply Keeps.bind (keeps_withTable hM.toLookKeeps (fun pt => hchild v.below pt v.vaddr) _)
  intro w
  exact Keeps.pure _

theorem keeps_recurseUnmap (hM : M.Keeps kept) (pages height : ℕ) (index : List ℕ) (pt : π)
    (vaddr : ℕ) : Keeps kept (recurseUnmap M pages height index pt vaddr) := by
  induction height generalizing index pt vaddr with
  | zero => exact Keeps.rounds (keeps_unmapLeaf hM pt pages) (fun _ => Keeps.pure _) ..
  | succ height ih =>
    exact Keeps.rounds (keeps_unmapInner hM ih (height + 1) pt pages) (fun _ => Keeps.pure _) ..

theorem keeps_recurseFind (hM : M.LookKeeps kept) (height : ℕ) (index : List ℕ) (pt : π) :
    Keeps kept (recurseFind M height index pt) := by
  induction height generalizing index pt with
  | zero =>
    apply Keeps.bind (hM.read pt _)
    intro pte
    exact Keeps.ite (Keeps.pure _) (Keeps.pure _)
  | succ height ih =>
    apply Keeps.bind (hM.read pt _)
    intro pte
    exact Keeps.ite (keeps_withTable hM (ih index.tail) _) (Keeps.pure _)

theorem keeps_recurseSetBacking (hM : M.Keeps kept) (paddr : PAddr) (height : ℕ)
    (index : List ℕ) (pt : π) : Keeps kept (recurseSetBacking M paddr height index pt) := by
  induction height generalizing index pt with
  | zero =>
    apply Keeps.bind (hM.read pt _)
    intro pte
    apply Keeps.ite _ (Keeps.pure _)
    exact Keeps.bind (hM.write pt _ _) fun _ => Keeps.pure _
  | succ height ih =>
    apply Keeps.bind (hM.read pt _)
    intro pte
    exact Keeps.ite (keeps_withTable hM.toLookKeeps (ih index.tail) _) (Keeps.pure _)

theorem keeps_flagLeaf (hM : M.Keeps kept) (flags : Flags) (pt : π) (v : ℕ × ℕ) :
    Keeps kept (flagLeaf M flags pt v) := by
  apply Keeps.ite _ (Keeps.pure _)
  apply Keeps.bind (hM.read pt v.1)
  intro pte
  apply Keeps.ite _ (Keeps.pure _)
  exact Keeps.bind (hM.write pt v.1 _) fun _ => Keeps.pure _

theorem keeps_flagInner (hM : M.Keeps kept) {child : π → ℕ → Prog Fault σ (Status × ℕ)}
    (hchild : ∀ pt pages, Keeps kept (child pt pages)) (flags : Flags) (pt : π) (v : ℕ × ℕ) :
    Keeps kept (flagInner M child flags pt v) := by
  apply Keeps.ite _ (Keeps.pure _)
  apply Keeps.bind (hM.read pt v.1)
  intro pte
  apply Keeps.ite _ (Keeps.pure _)
  exact Keeps.bind (keeps_withTable hM.toLookKeeps (fun ptVaddr =>
    Keeps.bind (keeps_updatePtPteFlags hM pt v.1 flags) fun _ => hchild ptVaddr v.2) _)
    fun _ => Keeps.pure _

theorem keeps_recurseFlag (hM : M.Keeps kept) (flags : Flags) (height : ℕ) (index : List ℕ)
    (pt : π) (pages : ℕ) : Keeps kept (recurseFlag M flags height index pt pages) := by
  induction height generalizing index pt pages with
  | zero => exact Keeps.rounds (keeps_flagLeaf hM flags pt) (fun _ => Keeps.pure _) ..
  | succ height ih =>
    exact Keeps.rounds (keeps_flagInner hM (ih index.tail) flags pt) (fun _ => Keeps.pure _) ..

theorem keeps_vmMapPages (hM : M.Keeps kept) (fuel : ℕ) (table : π) (paddrStart : PAddr)
    (pages vaddrHint : ℕ) (flags : Flags) :
    Keeps kept (vmMapPages M fuel table paddrStart pages vaddrHint flags) := by
  apply Keeps.bind (keeps_check _ _)
  intro _
  apply Keeps.bind (keeps_check _ _)
  intro _
  apply Keeps.bind (keeps_check _ _)
  intro _
  apply Keeps.bind (keeps_findSpace hM.toLookKeeps ..)
  rintro ⟨res, index⟩
  apply Keeps.ite (Keeps.pure _)
  exact Keeps.bind (keeps_recurseMap hM ..) fun _ => Keeps.ite (Keeps.pure _) (Keeps.pure _)

theorem keeps_vmUnmapPages (hM : M.Keeps kept) (table : π) (vaddrStart pages : ℕ) :
    Keeps kept (vmUnmapPages M table vaddrStart pages) := by
  apply Keeps.bind (keeps_check _ _)
  intro _
  apply Keeps.bind (keeps_check _ _)
  intro _
  exact Keeps.bind (keeps_recurseUnmap hM ..) fun _ => Keeps.pure _

theorem keeps_vmSetBacking (hM : M.Keeps kept) (table : π) (vaddr : ℕ) (paddr : PAddr) :
    Keeps kept (vmSetBacking M table vaddr paddr) := by
  apply Keeps.bind (keeps_check _ _)
  intro _
  apply Keeps.bind (keeps_check _ _)
  exact fun _ => keeps_recurseSetBacking hM ..

theorem keeps_vmFlagPages (hM : M.Keeps kept) (table : π) (vaddrStart pages : ℕ)
    (flags : Flags) : Keeps kept (vmFlagPages M table vaddrStart pages flags) := by
  apply Keeps.bind (keeps_check _ _)
  intro _
  apply Keeps.bind (keeps_check _ _)
  intro _
  exact Keeps.bind (keeps_recurseFlag hM ..) fun _ => Keeps.pure _

theorem keeps_vmVaddrToPaddr (hM : M.LookKeeps kept) (table : π) (vaddr : ℕ) :
    Keeps kept (vmVaddrToPaddr M table vaddr) :=
  Keeps.bind (keeps_recurseFind hM ..) fun _ => Keeps.ite (Keeps.pure _) (Keeps.pure _)

theorem keeps_run (hM : M.Keeps kept) (table : π) (c : VmCall) : Keeps kept (c.run M table) := by
  cases c with
  | mapPages => exact Keeps.bind (keeps_vmMapPages hM ..) fun _ => Keeps.pure _
  | unmapPages => exact Keeps.bind (keeps_vmUnmapPages hM ..) fun _ => Keeps.pure _
  | vaddrToPaddr => exact Keeps.bind (keeps_vmVaddrToPaddr hM.toLookKeeps ..) fun _ => Keeps.pure _
  | setBacking => exact Keeps.bind (keeps_vmSetBacking hM ..) fun _ => Keeps.pure _
  | flagPages => exact Keeps.bind (keeps_vmFlagPages hM ..) fun _ => Keeps.pure _

end Keeping

/-! ## The relation between the two machines -/

section Relation

variable (tmpPaddr : PAddr)

/-- The machine of the kernel in the state `s`, with the window as described, and the
machine without a window in the state `t`. -/
structure Rel (tmpPt : ℕ → Pte) (first : ℕ) (slots : List ℕ) (s : VmState) (t : FlatState) :
    Prop where
  tmpPt_eq : s.tmpPt = tmpPt
  first_eq : s.firstFreeTmpIndex = first
  mem_eq : s.mem = t.mem
  frames_eq : s.frames = t.frames
  tlb : ∀ x ∈ s.tlb, x ∈ t.tlb ∨ x.1 ∈ slots

/-- In this window the pointer leads to the table at `p`, which is not `tmp_pt`. -/
def Points (tmpPt : ℕ → Pte) (pt : PtPtr) (p : PAddr) : Prop :=
  p ≠ tmpPaddr ∧
    match pt with
    | .table q => q = p
    | .window vaddr =>
      present (tmpPt (tmpIndex vaddr)) = true ∧ ptePaddr (tmpPt (tmpIndex vaddr)) = p

/-- The call has walked `tmp_pt`. -/
def Strayed (s : VmState) : Prop := tmpPaddr ∈ s.opened

variable {tmpPaddr} {tmpPt : ℕ → Pte} {first : ℕ} {slots : List ℕ} {room : Prop}

/-- A pointer is resolved to the table it leads to. -/
theorem Points.resolve {pt : PtPtr} {p : PAddr} (h : Points tmpPaddr tmpPt pt p) {s : VmState}
    (hs : s.tmpPt = tmpPt) : Kernel.resolve pt s = .ok (p, s) := by
  cases pt with
  | table q => rw [← h.2]; rfl
  | window vaddr => simp only [Kernel.resolve, hs, h.2.1, h.2.2, if_true]

/-- A pointer stays good when a free slot is taken. -/
theorem Points.take {pt : PtPtr} {p : PAddr} (h : Points tmpPaddr tmpPt pt p)
    (hfree : present (tmpPt first) = false) (e : Pte) :
    Points tmpPaddr (Function.update tmpPt first e) pt p := by
  refine ⟨h.1, ?_⟩
  cases pt with
  | table q => exact h.2
  | window vaddr =>
    have hne : tmpIndex vaddr ≠ first := by
      intro heq
      have hpres := h.2.1
      rw [heq, hfree] at hpres
      cases hpres
    show present _ = true ∧ ptePaddr _ = p
    rw [Function.update_of_ne hne]
    exact h.2

/-- Simulation in this setting: equal results, and the window as before. -/
abbrev Window.Same {α : Type} (tmpPaddr : PAddr) (room : Prop) (tmpPt : ℕ → Pte) (first : ℕ)
    (slots : List ℕ) (x : Prog Fault VmState α) (y : Prog Fault FlatState α) : Prop :=
  FaultState.Same (Strayed tmpPaddr) Vm.strayed room (Rel tmpPt first slots) x y

/-- Two programs that return everywhere simulate each other when one run of each does. -/
theorem sim_of_run {σ τ α β : Type} {stray : σ → Prop} {out : Fault} {P : σ → τ → Prop}
    {x : Prog Fault σ α} {y : Prog Fault τ β} {Q : α → β → σ → τ → Prop}
    (h : ∀ s t, P s t → ∃ a s' b t', x s = .ok (a, s') ∧ y t = .ok (b, t') ∧ Q a b s' t') :
    Sim stray out room P x y Q where
  back s t hs a s' hok := by
    obtain ⟨a₁, s₁, b, t', hx, hy, hq⟩ := h s t hs
    rw [hx] at hok
    cases hok
    exact .inl ⟨b, t', hy, hq⟩
  forth _ s t hs b t' hok := by
    obtain ⟨a, s', b₁, t₁, hx, hy, hq⟩ := h s t hs
    rw [hy] at hok
    cases hok
    exact ⟨a, s', hx, hq⟩

/-! ### Accesses -/

theorem sim_read {pt : PtPtr} {p : PAddr} (hpt : Points tmpPaddr tmpPt pt p) (i : ℕ) :
    Window.Same tmpPaddr room tmpPt first slots ((kernel tmpPaddr).read pt i)
      ((flat tmpPaddr).read p i) := by
  apply sim_of_run
  intro s t h
  refine ⟨t.mem p i, s, t.mem p i, t, ?_, rfl, rfl, h⟩
  show Kernel.read tmpPaddr pt i s = _
  rw [Kernel.read, bind_eq_of_ok (hpt.resolve h.tmpPt_eq), Kernel.entryAt, if_neg hpt.1, h.mem_eq]

theorem sim_write {pt : PtPtr} {p : PAddr} (hpt : Points tmpPaddr tmpPt pt p) (i : ℕ) (e : Pte) :
    Window.Same tmpPaddr room tmpPt first slots ((kernel tmpPaddr).write pt i e)
      ((flat tmpPaddr).write p i e) := by
  apply sim_of_run
  intro s t h
  refine ⟨(), { s with mem := s.mem.set p i e }, (), { t with mem := t.mem.set p i e },
    ?_, rfl, rfl, ?_⟩
  · show Kernel.write tmpPaddr pt i e s = _
    rw [Kernel.write, bind_eq_of_ok (hpt.resolve h.tmpPt_eq), Kernel.setEntry, if_neg hpt.1]
  · exact ⟨h.tmpPt_eq, h.first_eq, congrArg (Tables.set · p i e) h.mem_eq, h.frames_eq, h.tlb⟩

theorem sim_memSet {pt : PtPtr} {p : PAddr} (hpt : Points tmpPaddr tmpPt pt p) :
    Window.Same tmpPaddr room tmpPt first slots ((kernel tmpPaddr).memSet pt)
      ((flat tmpPaddr).memSet p) := by
  apply sim_of_run
  intro s t h
  refine ⟨(), { s with mem := s.mem.clear p }, (), { t with mem := t.mem.clear p },
    ?_, rfl, rfl, ?_⟩
  · show Kernel.memSet tmpPaddr pt s = _
    rw [Kernel.memSet, bind_eq_of_ok (hpt.resolve h.tmpPt_eq), if_neg hpt.1]
  · exact ⟨h.tmpPt_eq, h.first_eq, congrArg (Tables.clear · p) h.mem_eq, h.frames_eq, h.tlb⟩

theorem sim_invalidatePage (vaddr : ℕ) :
    Window.Same tmpPaddr room tmpPt first slots ((kernel tmpPaddr).invalidatePage vaddr)
      ((flat tmpPaddr).invalidatePage vaddr) := by
  apply sim_of_run
  intro s t h
  refine ⟨(), _, (), _, rfl, rfl, rfl, ⟨h.tmpPt_eq, h.first_eq, h.mem_eq, h.frames_eq, ?_⟩⟩
  intro x hx
  have hx := List.mem_filter.mp hx
  rcases h.tlb x hx.1 with htlb | hslot
  · exact .inl (List.mem_filter.mpr ⟨htlb, hx.2⟩)
  · exact .inr hslot

theorem sim_pmRequestPage :
    Window.Same tmpPaddr room tmpPt first slots (kernel tmpPaddr).pmRequestPage
      (flat tmpPaddr).pmRequestPage := by
  constructor
  · intro s t h a s' hok
    refine .inl ?_
    replace hok : Kernel.pmRequestPage s = .ok (a, s') := hok
    rw [Kernel.pmRequestPage] at hok
    cases hfr : s.frames with
    | nil => rw [hfr] at hok; cases hok
    | cons paddr frames =>
      rw [hfr] at hok
      cases hok
      refine ⟨_, { t with frames }, ?_, rfl, ⟨h.tmpPt_eq, h.first_eq, h.mem_eq, rfl, h.tlb⟩⟩
      simp only [flat, ← h.frames_eq, hfr]
  · intro _ s t h b t' hok
    simp only [flat] at hok
    cases hfr : t.frames with
    | nil => rw [hfr] at hok; cases hok
    | cons paddr frames =>
      rw [hfr] at hok
      cases hok
      refine ⟨_, { s with frames }, ?_, rfl, ⟨h.tmpPt_eq, h.first_eq, h.mem_eq, rfl, h.tlb⟩⟩
      show Kernel.pmRequestPage s = _
      rw [Kernel.pmRequestPage, h.frames_eq, hfr]

/-! ### Opening and closing a table -/

/-- The window one level further down, with the table at `p` in the slot `first`. -/
def openedPt (tmpPt : ℕ → Pte) (first : ℕ) (p : PAddr) : ℕ → Pte :=
  Function.update tmpPt first (setPte p vmFlagWritable)

/-- The lowest free slot one level further down. -/
def openedFirst (tmpPt : ℕ → Pte) (first : ℕ) (p : PAddr) : ℕ :=
  Kernel.nextFreeTmpIndex (openedPt tmpPt first p) ptLength first

/-- The slots in use one level further down. -/
def openedSlots (first : ℕ) (slots : List ℕ) : List ℕ := vpage (tmpVaddr first) :: slots

/-- A table was opened: the pointer `pt` into the window leads to the table at `p`. -/
structure Opened (tmpPaddr : PAddr) (tmpPt : ℕ → Pte) (first : ℕ) (slots : List ℕ) (pt : PtPtr)
    (p : PAddr) (s : VmState) (t : FlatState) : Prop where
  pt_eq : pt = .window (tmpVaddr first)
  lt : first < 511
  ne : p ≠ tmpPaddr
  aligned : ptePaddr p = p
  rel : Rel (openedPt tmpPt first p) (openedFirst tmpPt first p) (openedSlots first slots) s t

/-- `x` and `y` open the same table. -/
abbrev Opens (tmpPaddr : PAddr) (room : Prop) (tmpPt : ℕ → Pte) (first : ℕ) (slots : List ℕ)
    (x : Prog Fault VmState PtPtr) (y : Prog Fault FlatState PAddr) : Prop :=
  Sim (Strayed tmpPaddr) strayed room (Rel tmpPt first slots) x y
    (Opened tmpPaddr tmpPt first slots)

/-- The pointer that was opened leads to the table. -/
theorem points_opened {p : PAddr} (hne : p ≠ tmpPaddr) (hal : ptePaddr p = p)
    (hfirst : first < 511) :
    Points tmpPaddr (openedPt tmpPt first p) (.window (tmpVaddr first)) p := by
  refine ⟨hne, ?_⟩
  show present _ = true ∧ ptePaddr _ = p
  rw [tmpIndex_tmpVaddr (by omega), openedPt, Function.update_self, present_setPte,
    ptePaddr_setPte]
  exact ⟨rfl, hal⟩

/-- What is stored for an address depends on its address bits. -/
theorem setPte_ptePaddr (paddr : PAddr) (flags : Flags) :
    setPte (ptePaddr paddr) flags = setPte paddr flags := by
  simp only [setPte, ← ptePaddr.eq_1, ptePaddr_ptePaddr]

/-- `map_page_tmp` opens a table. -/
theorem sim_mapPageTmp (hwin : WindowOk tmpPt first) (hroom : room → Room 1 tmpPt)
    (paddr : PAddr) :
    Opens tmpPaddr room tmpPt first slots ((kernel tmpPaddr).mapPageTmp paddr vmFlagWritable)
      ((flat tmpPaddr).mapPageTmp paddr vmFlagWritable) := by
  have hopen : ∀ s t, Rel tmpPt first slots s t → first < 511 → ptePaddr paddr ≠ tmpPaddr →
      Opened tmpPaddr tmpPt first slots (.window (tmpVaddr (s.firstFreeTmpIndex % 512)))
        (ptePaddr paddr) (Kernel.tmpMapped s paddr vmFlagWritable) t := by
    intro s t h hfirst hne
    have hmod : s.firstFreeTmpIndex % 512 = first := by rw [h.first_eq]; omega
    have hpt : Function.update s.tmpPt (s.firstFreeTmpIndex % 512) (setPte paddr vmFlagWritable) =
        openedPt tmpPt first (ptePaddr paddr) := by
      rw [hmod, h.tmpPt_eq, openedPt, setPte_ptePaddr]
    refine ⟨by rw [hmod], hfirst, hne, ptePaddr_ptePaddr paddr, hpt, ?_, h.mem_eq, h.frames_eq, ?_⟩
    · show Kernel.nextFreeTmpIndex _ ptLength s.firstFreeTmpIndex = _
      rw [hpt, h.first_eq, openedFirst]
    · intro x hx
      rcases List.mem_cons.mp hx with rfl | hx
      · exact .inr (by rw [hmod]; exact List.mem_cons_self)
      · rcases h.tlb x hx with htlb | hslot
        · exact .inl htlb
        · exact .inr (List.mem_cons_of_mem _ hslot)
  constructor
  · intro s t h pt s' hok
    replace hok : Kernel.mapPageTmp paddr vmFlagWritable s = .ok (pt, s') := hok
    rw [Kernel.mapPageTmp] at hok
    split at hok
    next hlt =>
      cases hok
      have hfirst : first < 511 := by
        have hne := hwin.ne
        rw [h.first_eq, ptLength] at hlt
        omega
      by_cases hne : ptePaddr paddr = tmpPaddr
      · refine .inr ⟨?_, ?_⟩
        · simp only [flat, if_pos hne]
          rfl
        · show tmpPaddr ∈ ptePaddr paddr :: s.opened
          rw [hne]
          exact List.mem_cons_self
      · refine .inl ⟨ptePaddr paddr, t, ?_, hopen s t h hfirst hne⟩
        simp only [flat, if_neg hne]
        rfl
    next => cases hok
  · intro hr s t h p t' hok
    have hfirst : first < 511 := hwin.first_lt (hroom hr)
    simp only [flat] at hok
    by_cases hne : ptePaddr paddr = tmpPaddr
    · rw [if_pos hne] at hok
      cases hok
    · rw [if_neg hne] at hok
      cases hok
      refine ⟨_, _, ?_, hopen s t h hfirst hne⟩
      show Kernel.mapPageTmp paddr vmFlagWritable s = _
      rw [Kernel.mapPageTmp, if_pos (by rw [h.first_eq, ptLength]; omega)]

/-- `unmap_page_tmp` leaves the window as it was before the table was opened. -/
theorem sim_unmapPageTmp (hwin : WindowOk tmpPt first) (hfirst : first < 511) (p : PAddr) :
    Sim (Strayed tmpPaddr) strayed room
      (Rel (openedPt tmpPt first p) (openedFirst tmpPt first p) (openedSlots first slots))
      ((kernel tmpPaddr).unmapPageTmp (.window (tmpVaddr first)))
      ((flat tmpPaddr).unmapPageTmp p) fun _ _ s t => Rel tmpPt first slots s t := by
  apply sim_of_run
  intro s t h
  have hindex : tmpIndex (tmpVaddr first) = first := tmpIndex_tmpVaddr (by omega)
  have hnext : first < openedFirst tmpPt first p :=
    (nextFreeTmpIndex_spec _ ptLength first hfirst (by rw [ptLength]; omega)).1
  refine ⟨(), Kernel.tmpUnmapped s (tmpVaddr first), (), t, ?_, rfl, ?_, ?_, h.mem_eq,
    h.frames_eq, ?_⟩
  · have hge : ¬ tmpVaddr first < ptTmpStartVaddr := by rw [tmpVaddr]; omega
    simp only [kernel, Kernel.unmapPageTmp, hindex, if_neg hge]
    rw [if_neg (by omega)]
  · show Function.update s.tmpPt (tmpIndex (tmpVaddr first)) 0#64 = tmpPt
    rw [hindex, h.tmpPt_eq, openedPt, Function.update_idem,
      ← hwin.clear first (by rw [ptLength]; omega) (hwin.free (by rw [ptLength]; omega)),
      Function.update_eq_self]
  · show (if tmpIndex (tmpVaddr first) < s.firstFreeTmpIndex then tmpIndex (tmpVaddr first)
      else s.firstFreeTmpIndex) = first
    rw [hindex, h.first_eq, if_pos hnext]
  · intro x hx
    have hx := List.mem_filter.mp hx
    rcases h.tlb x hx.1 with htlb | hslot
    · exact .inl htlb
    · rcases List.mem_cons.mp hslot with heq | hslot
      · have hne := hx.2
        simp [heq] at hne
      · exact .inr hslot

/-- The window at a level of the recursion below which there are `n` more. -/
structure Level (room : Prop) (n : ℕ) (tmpPt : ℕ → Pte) (first : ℕ) : Prop where
  win : WindowOk tmpPt first
  room : room → Room n tmpPt

/-- The window one level further down. -/
theorem Level.opened {n : ℕ} (h : Level room (n + 1) tmpPt first) (hfirst : first < 511)
    (p : PAddr) : Level room n (openedPt tmpPt first p) (openedFirst tmpPt first p) :=
  ⟨h.win.take hfirst (present_setPte _ _), fun hr => (h.room hr).take _⟩

/-- A pointer of the level above stays good. -/
theorem Points.opened {n : ℕ} (h : Level room n tmpPt first) (hfirst : first < 511) {pt : PtPtr}
    {p : PAddr} (hpt : Points tmpPaddr tmpPt pt p) (q : PAddr) :
    Points tmpPaddr (openedPt tmpPt first q) pt p :=
  hpt.take (h.win.free (by rw [ptLength]; omega)) _

/-- What follows the opening of a table is compared in the window one level down. -/
theorem Opens.bind {α β : Type} {x : Prog Fault VmState PtPtr} {y : Prog Fault FlatState PAddr}
    {f : PtPtr → Prog Fault VmState α} {g : PAddr → Prog Fault FlatState β}
    {S : α → β → VmState → FlatState → Prop} (hxy : Opens tmpPaddr room tmpPt first slots x y)
    (hf : ∀ pt, Keeps (Strayed tmpPaddr) (f pt))
    (hfg : ∀ p, p ≠ tmpPaddr → ptePaddr p = p → first < 511 →
      Sim (Strayed tmpPaddr) strayed room
        (Rel (openedPt tmpPt first p) (openedFirst tmpPt first p) (openedSlots first slots))
        (f (.window (tmpVaddr first))) (g p) S) :
    Sim (Strayed tmpPaddr) strayed room (Rel tmpPt first slots) (x >>= f) (y >>= g) S := by
  apply Sim.bind hxy hf
  intro pt p
  apply Sim.assume fun s t h => And.intro h.pt_eq (And.intro h.lt (And.intro h.ne h.aligned))
  rintro ⟨rfl, hfirst, hne, hal⟩
  exact (hfg p hne hal hfirst).mono id (fun s t h => h.rel) fun _ _ _ _ h => h

/-- What the kernel keeps, when the states that follow each of its operations keep it. -/
theorem kernel_keeps {kept : VmState → Prop}
    (hset : ∀ s p i e, kept s → kept (Kernel.setEntry tmpPaddr s p i e))
    (hzero : ∀ s, kept s → kept { s with tmpPt := fun _ => 0#64 })
    (hclear : ∀ s p, p ≠ tmpPaddr → kept s → kept { s with mem := s.mem.clear p })
    (hmap : ∀ s paddr flags, kept s → kept (Kernel.tmpMapped s paddr flags))
    (hunmap : ∀ s vaddr, kept s → kept (Kernel.tmpUnmapped s vaddr))
    (hframes : ∀ s frames, kept s → kept { s with frames })
    (htlb : ∀ s tlb, kept s → kept { s with tlb }) : (kernel tmpPaddr).Keeps kept := by
  have hresolve : ∀ pt, Keeps kept (Kernel.resolve pt) := by
    intro pt
    constructor
    intro s hs p s' hok
    cases pt with
    | table q => cases hok; exact hs
    | window vaddr =>
      simp only [Kernel.resolve] at hok
      split at hok
      next => cases hok; exact hs
      next => cases hok
  refine ⟨⟨?_, ?_, ?_⟩, ?_, ?_, ?_, ?_⟩
  · intro pt i
    exact Keeps.bind (hresolve pt) fun p => ⟨by intro s hs e s' hok; cases hok; exact hs⟩
  · intro paddr flags
    constructor
    intro s hs pt s' hok
    replace hok : Kernel.mapPageTmp paddr flags s = .ok (pt, s') := hok
    rw [Kernel.mapPageTmp] at hok
    split at hok
    next => cases hok; exact hmap s paddr flags hs
    next => cases hok
  · intro pt
    constructor
    intro s hs _ s' hok
    cases pt with
    | table q => cases hok
    | window vaddr =>
      replace hok : Kernel.unmapPageTmp (.window vaddr) s = .ok ((), s') := hok
      simp only [Kernel.unmapPageTmp] at hok
      split at hok
      next => cases hok
      next =>
        split at hok
        next => cases hok
        next => cases hok; exact hunmap s vaddr hs
  · intro pt i e
    apply Keeps.bind (hresolve pt)
    intro p
    constructor
    intro s hs _ s' hok
    cases hok
    exact hset s p i e hs
  · constructor
    intro s hs paddr s' hok
    replace hok : Kernel.pmRequestPage s = .ok (paddr, s') := hok
    rw [Kernel.pmRequestPage] at hok
    split at hok
    next => cases hok
    next => cases hok; exact hframes s _ hs
  · intro pt
    apply Keeps.bind (hresolve pt)
    intro p
    constructor
    intro s hs _ s' hok
    split at hok
    next => cases hok; exact hzero s hs
    next hne => cases hok; exact hclear s p hne hs
  · intro vaddr
    exact ⟨by intro s hs _ s' hok; cases hok; exact htlb s _ hs⟩

/-- The kernel never forgets that it has walked a table. -/
theorem keeps_kernel (tmpPaddr q : PAddr) : (kernel tmpPaddr).Keeps fun s => q ∈ s.opened := by
  apply kernel_keeps
  case hset =>
    intro s p i e hs
    rw [Kernel.setEntry]
    split <;> exact hs
  case hmap => exact fun s paddr flags hs => List.mem_cons_of_mem _ hs
  all_goals
    intros
    assumption

/-- A table of the level below is opened, worked on and closed. -/
theorem sim_withTable {α : Type} {n : ℕ} (hlevel : Level room (n + 1) tmpPt first)
    {body : PtPtr → Prog Fault VmState α} {body' : PAddr → Prog Fault FlatState α}
    (hkeeps : ∀ pt, Keeps (Strayed tmpPaddr) (body pt))
    (hbody : ∀ p, p ≠ tmpPaddr → ptePaddr p = p → first < 511 →
      Window.Same tmpPaddr room (openedPt tmpPt first p) (openedFirst tmpPt first p)
        (openedSlots first slots) (body (.window (tmpVaddr first))) (body' p)) (paddr : PAddr) :
    Window.Same tmpPaddr room tmpPt first slots (withTable (kernel tmpPaddr) paddr body)
      (withTable (flat tmpPaddr) paddr body') := by
  have hK := keeps_kernel tmpPaddr tmpPaddr
  have hroom : room → Room 1 tmpPt := fun hr => le_trans (by omega) (hlevel.room hr)
  apply Opens.bind (sim_mapPageTmp hlevel.win hroom paddr)
  · intro pt
    exact Keeps.bind (hkeeps pt) fun res =>
      Keeps.bind (hK.unmapPageTmp pt) fun _ => Keeps.pure res
  · intro p hne hal hfirst
    apply Sim.same_bind (hbody p hne hal hfirst)
    · exact fun res => Keeps.bind (hK.unmapPageTmp _) fun _ => Keeps.pure res
    · intro res
      apply Sim.bind (sim_unmapPageTmp hlevel.win hfirst p) fun _ => Keeps.pure res
      intro _ _
      exact Sim.pure fun s t h => ⟨rfl, h⟩

/-- `create_pt` opens the new table. -/
theorem sim_createPt {n : ℕ} (hlevel : Level room (n + 1) tmpPt first) {pt : PtPtr} {p : PAddr}
    (hpt : Points tmpPaddr tmpPt pt p) (i : ℕ) :
    Opens tmpPaddr room tmpPt first slots (createPt (kernel tmpPaddr) pt i)
      (createPt (flat tmpPaddr) p i) := by
  have hK := keeps_kernel tmpPaddr tmpPaddr
  have hroom : room → Room 1 tmpPt := fun hr => le_trans (by omega) (hlevel.room hr)
  apply Sim.same_bind sim_pmRequestPage
  · exact fun paddr => Keeps.bind (hK.mapPageTmp _ _) fun vaddr => Keeps.bind (hK.memSet vaddr)
      fun _ => Keeps.bind (hK.write _ _ _) fun _ => Keeps.pure vaddr
  · intro paddr
    apply Opens.bind (sim_mapPageTmp hlevel.win hroom paddr)
    · exact fun vaddr => Keeps.bind (hK.memSet vaddr)
        fun _ => Keeps.bind (hK.write _ _ _) fun _ => Keeps.pure vaddr
    · intro q hne hal hfirst
      apply Sim.same_bind (sim_memSet (points_opened hne hal hfirst))
      · exact fun _ => Keeps.bind (hK.write _ _ _) fun _ => Keeps.pure _
      · intro _
        apply Sim.same_bind (sim_write (hpt.opened hlevel hfirst q) i _)
        · exact fun _ => Keeps.pure _
        · intro _
          exact Sim.pure fun s t h => ⟨rfl, hfirst, hne, hal, h⟩

theorem sim_updatePtPteFlags {pt : PtPtr} {p : PAddr} (hpt : Points tmpPaddr tmpPt pt p) (i : ℕ)
    (flags : Flags) :
    Window.Same tmpPaddr room tmpPt first slots (updatePtPteFlags (kernel tmpPaddr) pt i flags)
      (updatePtPteFlags (flat tmpPaddr) p i flags) := by
  apply Sim.same_bind (sim_read hpt i)
  · exact fun e => (keeps_kernel tmpPaddr tmpPaddr).write pt i _
  · exact fun e => sim_write hpt i _

/-! ### The recursions -/

/-- Programs that return at once. -/
theorem sim_pure {α : Type} (a : α) :
    Window.Same tmpPaddr room tmpPt first slots (pure a) (pure a) :=
  Sim.pure fun _ _ h => ⟨rfl, h⟩

theorem sim_check (b : Bool) (expr : String) :
    Window.Same tmpPaddr room tmpPt first slots (check b expr) (check b expr) := by
  apply Sim.ite fun _ => sim_pure ()
  exact fun _ => Sim.of_fault (fun s a s' h => by cases h) fun t b t' h => by cases h

theorem sim_scanLeaf {pt : PtPtr} {p : PAddr} (hpt : Points tmpPaddr tmpPt pt p) (pages : ℕ)
    (flags : Flags) (v : Search) :
    Window.Same tmpPaddr room tmpPt first slots (scanLeaf (kernel tmpPaddr) pt pages flags v)
      (scanLeaf (flat tmpPaddr) p pages flags v) := by
  apply Sim.ite _ fun _ => sim_pure _
  exact fun _ => Sim.same_bind (sim_read hpt v.i) (fun _ => Keeps.pure _) fun _ => sim_pure _

theorem sim_countFree {pt : PtPtr} {p : PAddr} (hpt : Points tmpPaddr tmpPt pt p)
    (height pages : ℕ) (flags : Flags) (v : ℕ × ℕ × PAddr) :
    Window.Same tmpPaddr room tmpPt first slots
      (countFree (kernel tmpPaddr) pt height pages flags v)
      (countFree (flat tmpPaddr) p height pages flags v) := by
  apply Sim.ite _ fun _ => sim_pure _
  exact fun _ => Sim.same_bind (sim_read hpt v.1) (fun _ => Keeps.pure _) fun _ => sim_pure _

theorem sim_scanInner {n : ℕ} (hlevel : Level room (n + 1) tmpPt first)
    {child : List ℕ → PtPtr → Prog Fault VmState (Status × List ℕ)}
    {child' : List ℕ → PAddr → Prog Fault FlatState (Status × List ℕ)}
    (hkeeps : ∀ below pt, Keeps (Strayed tmpPaddr) (child below pt))
    (hchild : ∀ below p, p ≠ tmpPaddr → ptePaddr p = p → first < 511 →
      Window.Same tmpPaddr room (openedPt tmpPt first p) (openedFirst tmpPt first p)
        (openedSlots first slots) (child below (.window (tmpVaddr first))) (child' below p))
    {pt : PtPtr} {p : PAddr} (hpt : Points tmpPaddr tmpPt pt p) (pages : ℕ) (v : Search) :
    Window.Same tmpPaddr room tmpPt first slots (scanInner (kernel tmpPaddr) child pt pages v)
      (scanInner (flat tmpPaddr) child' p pages v) := by
  have hK := (keeps_kernel tmpPaddr tmpPaddr).toLookKeeps
  have hopen : ∀ paddr, Keeps (Strayed tmpPaddr)
      (withTable (kernel tmpPaddr) paddr (child v.below)) := keeps_withTable hK (hkeeps v.below)
  apply Sim.ite _ fun _ => sim_pure _
  intro _
  apply Sim.same_bind (sim_read hpt v.i)
  · intro e
    apply Keeps.ite _ (Keeps.pure _)
    exact Keeps.bind (hK.read pt v.index) fun _ => Keeps.bind (hopen _) fun _ => Keeps.pure _
  · intro e
    apply Sim.ite _ fun _ => sim_pure _
    intro _
    apply Sim.same_bind (sim_read hpt v.index)
    · exact fun _ => Keeps.bind (hopen _) fun _ => Keeps.pure _
    · intro parent
      apply Sim.same_bind (sim_withTable hlevel (hkeeps v.below) (hchild v.below) _)
      · exact fun _ => Keeps.pure _
      · exact fun _ => sim_pure _

theorem sim_nextFreeEntry
    {scan : Search → Prog Fault VmState (Flow Search (Option Status × Search))}
    {scan' : Search → Prog Fault FlatState (Flow Search (Option Status × Search))}
    (hkeeps : ∀ v, Keeps (Strayed tmpPaddr) (scan v))
    (hscan : ∀ v, Window.Same tmpPaddr room tmpPt first slots (scan v) (scan' v))
    {pt : PtPtr} {p : PAddr} (hpt : Points tmpPaddr tmpPt pt p) (height : ℕ)
    (paddrStart : PAddr) (pages : ℕ) (flags : Flags) (fuel i : ℕ) (below : List ℕ) :
    Window.Same tmpPaddr room tmpPt first slots
      (nextFreeEntry (kernel tmpPaddr) scan pt height paddrStart pages flags fuel i below)
      (nextFreeEntry (flat tmpPaddr) scan' p height paddrStart pages flags fuel i below) := by
  have hK := (keeps_kernel tmpPaddr tmpPaddr).toLookKeeps
  have hcount := keeps_countFree hK pt height pages flags
  induction fuel generalizing i below with
  | zero => exact Sim.of_fault (fun s a s' h => by cases h) fun t b t' h => by cases h
  | succ fuel ih =>
    have hagain : ∀ i below, Keeps (Strayed tmpPaddr)
        (nextFreeEntry (kernel tmpPaddr) scan pt height paddrStart pages flags fuel i below) :=
      keeps_nextFreeEntry hK hkeeps pt height paddrStart pages flags fuel
    have hrest : ∀ (v : Search) (i foundPages : ℕ), Keeps (Strayed tmpPaddr)
        (if foundPages < pages then
          if isFlagSet flags vmFlagStrict then pure (-eoverlap, v.index :: v.below)
          else nextFreeEntry (kernel tmpPaddr) scan pt height paddrStart pages flags fuel i v.below
        else pure ((foundPages : ℤ), v.index :: v.below)) := fun v i foundPages =>
      Keeps.ite (Keeps.ite (Keeps.pure _) (hagain i v.below)) (Keeps.pure _)
    apply Sim.same_bind (Sim.rounds hkeeps (fun _ => Keeps.pure _) hscan
      (fun _ => sim_pure _) ptLength _)
    · rintro ⟨_ | res, v⟩
      · apply Keeps.ite (Keeps.pure _)
        exact Keeps.bind (Keeps.rounds hcount (fun _ => Keeps.pure _) ptLength _)
          fun w => hrest v w.1 w.2
      · exact Keeps.pure _
    · rintro ⟨_ | res, v⟩
      · apply Sim.ite fun _ => sim_pure _
        intro _
        apply Sim.same_bind (Sim.rounds hcount (fun _ => Keeps.pure _)
          (sim_countFree hpt height pages flags) (fun _ => sim_pure _) ptLength _)
        · exact fun w => hrest v w.1 w.2
        · rintro ⟨i, foundPages⟩
          apply Sim.ite _ fun _ => sim_pure _
          exact fun _ => Sim.ite (fun _ => sim_pure _) fun _ => ih i v.below
      · exact sim_pure _

theorem sim_findSpace (fuel : ℕ) (paddrStart : PAddr) (pages : ℕ) (flags : Flags) (height : ℕ)
    {tmpPt : ℕ → Pte} {first : ℕ} {slots : List ℕ} (hlevel : Level room height tmpPt first)
    (index : List ℕ) {pt : PtPtr} {p : PAddr} (hpt : Points tmpPaddr tmpPt pt p) :
    Window.Same tmpPaddr room tmpPt first slots
      (findSpace (kernel tmpPaddr) fuel paddrStart pages flags height index pt)
      (findSpace (flat tmpPaddr) fuel paddrStart pages flags height index p) := by
  have hK := (keeps_kernel tmpPaddr tmpPaddr).toLookKeeps
  induction height generalizing tmpPt first slots index pt p with
  | zero =>
    exact sim_nextFreeEntry (keeps_scanLeaf hK pt pages flags) (sim_scanLeaf hpt pages flags) hpt ..
  | succ height ih =>
    have hchild := keeps_findSpace hK fuel paddrStart pages flags height
    apply sim_nextFreeEntry (keeps_scanInner hK hchild pt pages) _ hpt
    apply sim_scanInner hlevel hchild _ hpt
    exact fun below q hne hal hfirst =>
      ih (hlevel.opened hfirst q) below (points_opened hne hal hfirst)

/-- The search clears no table. -/
theorem nextFreeEntry_withMemSet {σ π : Type} (M : Machine σ π) (memSet : π → Prog Fault σ Unit)
    (scan : Search → Prog Fault σ (FaultState.Flow Search (Option Status × Search))) (pt : π)
    (height : ℕ) (paddrStart : PAddr) (pages : ℕ) (flags : Flags) (fuel i : ℕ) (below : List ℕ) :
    nextFreeEntry (M.withMemSet memSet) scan pt height paddrStart pages flags fuel i below =
      nextFreeEntry M scan pt height paddrStart pages flags fuel i below := by
  induction fuel generalizing i below with
  | zero => rfl
  | succ fuel ih =>
    rw [nextFreeEntry, nextFreeEntry]
    simp only [ih]
    rfl

theorem findSpace_withMemSet {σ π : Type} (M : Machine σ π) (memSet : π → Prog Fault σ Unit)
    (fuel : ℕ) (paddrStart : PAddr) (pages : ℕ) (flags : Flags) (height : ℕ) (index : List ℕ)
    (pt : π) : findSpace (M.withMemSet memSet) fuel paddrStart pages flags height index pt =
      findSpace M fuel paddrStart pages flags height index pt := by
  induction height generalizing index pt with
  | zero => exact nextFreeEntry_withMemSet ..
  | succ height ih =>
    rw [findSpace, findSpace, nextFreeEntry_withMemSet,
      show findSpace (M.withMemSet memSet) fuel paddrStart pages flags height =
        findSpace M fuel paddrStart pages flags height from funext fun index => funext (ih index)]
    rfl

theorem sim_mapLeaf {pt : PtPtr} {p : PAddr} (hpt : Points tmpPaddr tmpPt pt p) (flags : Flags)
    (v : MapVars) :
    Window.Same tmpPaddr room tmpPt first slots (mapLeaf (kernel tmpPaddr) flags pt v)
      (mapLeaf (flat tmpPaddr) flags p v) := by
  have hwrite : ∀ e, Keeps (Strayed tmpPaddr) ((kernel tmpPaddr).write pt v.i e) :=
    (keeps_kernel tmpPaddr tmpPaddr).write pt v.i
  apply Sim.ite _ fun _ => sim_pure _
  intro _
  apply Sim.same_bind (sim_read hpt v.i)
  · exact fun e => Keeps.ite (Keeps.pure _) (Keeps.bind (hwrite _) fun _ => Keeps.pure _)
  · intro e
    apply Sim.ite fun _ => sim_pure _
    exact fun _ => Sim.same_bind (sim_write hpt v.i _) (fun _ => Keeps.pure _) fun _ => sim_pure _

/-- With these ways to clear a table, the two machines open new tables in the same way, while the
window has a certain shape, which may depend on the number of levels below. -/
structure MakesSame (tmpPaddr : PAddr) (room : Prop) (shape : ℕ → (ℕ → Pte) → ℕ → Prop)
    (memSet : PtPtr → Prog Fault VmState Unit) (memSet' : PAddr → Prog Fault FlatState Unit) :
    Prop where
  keeps : ∀ pt, Keeps (Strayed tmpPaddr) (memSet pt)
  opened : ∀ {n tmpPt first}, shape (n + 1) tmpPt first → first < 511 → ∀ p,
    shape n (openedPt tmpPt first p) (openedFirst tmpPt first p)
  creates : ∀ {n tmpPt first slots}, Level room (n + 1) tmpPt first → shape (n + 1) tmpPt first →
    ∀ {pt p}, Points tmpPaddr tmpPt pt p → ∀ i, Opens tmpPaddr room tmpPt first slots
      (createPt ((kernel tmpPaddr).withMemSet memSet) pt i)
      (createPt ((flat tmpPaddr).withMemSet memSet') p i)

/-- So they do when they clear exactly the table, whatever the window is. -/
theorem makesSame_kernel : MakesSame tmpPaddr room (fun _ _ _ => True) (kernel tmpPaddr).memSet
    (flat tmpPaddr).memSet where
  keeps := (keeps_kernel tmpPaddr tmpPaddr).memSet
  opened _ _ _ := trivial
  creates hlevel _ _ _ hpt i := sim_createPt hlevel hpt i

section MakesSame

variable {shape : ℕ → (ℕ → Pte) → ℕ → Prop} {memSet : PtPtr → Prog Fault VmState Unit}
  {memSet' : PAddr → Prog Fault FlatState Unit}

theorem MakesSame.sim_mapInner (hmakes : MakesSame tmpPaddr room shape memSet memSet') {n : ℕ}
    (hlevel : Level room (n + 1) tmpPt first) (hshape : shape (n + 1) tmpPt first)
    {child : PtPtr → PAddr → ℕ → Prog Fault VmState (Status × MapVars)}
    {child' : PAddr → PAddr → ℕ → Prog Fault FlatState (Status × MapVars)}
    (hkeeps : ∀ pt paddr pages, Keeps (Strayed tmpPaddr) (child pt paddr pages))
    (hchild : ∀ p, p ≠ tmpPaddr → ptePaddr p = p → first < 511 → ∀ paddr pages,
      Window.Same tmpPaddr room (openedPt tmpPt first p) (openedFirst tmpPt first p)
        (openedSlots first slots) (child (.window (tmpVaddr first)) paddr pages)
        (child' p paddr pages))
    {pt : PtPtr} {p : PAddr} (hpt : Points tmpPaddr tmpPt pt p) (flags : Flags) (v : MapVars) :
    Window.Same tmpPaddr room tmpPt first slots
      (mapInner ((kernel tmpPaddr).withMemSet memSet) child flags pt v)
      (mapInner ((flat tmpPaddr).withMemSet memSet') child' flags p v) := by
  have hK := (keeps_kernel tmpPaddr tmpPaddr).withMemSet hmakes.keeps
  have hunmap : ∀ pt, Keeps (Strayed tmpPaddr) ((kernel tmpPaddr).unmapPageTmp pt) :=
    (keeps_kernel tmpPaddr tmpPaddr).unmapPageTmp
  have hroom : room → Room 1 tmpPt := fun hr => le_trans (by omega) (hlevel.room hr)
  -- what is done once the table of the level below is open
  have hinside : ∀ ptVaddr, Keeps (Strayed tmpPaddr) (do
      updatePtPteFlags ((kernel tmpPaddr).withMemSet memSet) pt v.i flags
      let r ← child ptVaddr v.paddr v.pages
      (kernel tmpPaddr).unmapPageTmp ptVaddr
      return v.afterChild r.1 r.2) := fun ptVaddr =>
    Keeps.bind (keeps_updatePtPteFlags hK pt v.i flags) fun _ =>
      Keeps.bind (hkeeps ptVaddr v.paddr v.pages) fun _ =>
        Keeps.bind (hunmap ptVaddr) fun _ => Keeps.pure _
  apply Sim.ite _ fun _ => sim_pure _
  intro _
  apply Sim.same_bind (sim_read hpt v.i)
  · exact fun e => Keeps.bind (Keeps.ite (hK.mapPageTmp _ _) (keeps_createPt hK pt v.i)) hinside
  · intro e
    apply Opens.bind _ hinside
    · intro q hne hal hfirst
      apply Sim.same_bind (sim_updatePtPteFlags (hpt.opened hlevel hfirst q) v.i flags)
      · exact fun _ => Keeps.bind (hkeeps _ v.paddr v.pages) fun _ =>
          Keeps.bind (hunmap _) fun _ => Keeps.pure _
      · intro _
        apply Sim.same_bind (hchild q hne hal hfirst v.paddr v.pages)
        · exact fun _ => Keeps.bind (hunmap _) fun _ => Keeps.pure _
        · rintro ⟨res, w⟩
          apply Sim.bind (sim_unmapPageTmp hlevel.win hfirst q) fun _ => Keeps.pure _
          exact fun _ _ => sim_pure _
    · exact Sim.ite (fun _ => sim_mapPageTmp hlevel.win hroom _)
        fun _ => hmakes.creates hlevel hshape hpt v.i

theorem MakesSame.sim_recurseMap (hmakes : MakesSame tmpPaddr room shape memSet memSet')
    (flags : Flags) (height : ℕ) {tmpPt : ℕ → Pte} {first : ℕ} {slots : List ℕ}
    (hlevel : Level room height tmpPt first) (hshape : shape height tmpPt first) (index : List ℕ)
    {pt : PtPtr} {p : PAddr} (hpt : Points tmpPaddr tmpPt pt p) (paddr : PAddr) (pages : ℕ) :
    Window.Same tmpPaddr room tmpPt first slots
      (recurseMap ((kernel tmpPaddr).withMemSet memSet) flags height index pt paddr pages)
      (recurseMap ((flat tmpPaddr).withMemSet memSet') flags height index p paddr pages) := by
  have hK := (keeps_kernel tmpPaddr tmpPaddr).withMemSet hmakes.keeps
  induction height generalizing tmpPt first slots index pt p paddr pages with
  | zero =>
    exact Sim.rounds (keeps_mapLeaf hK flags pt) (fun _ => Keeps.pure _) (sim_mapLeaf hpt flags)
      (fun _ => sim_pure _) ..
  | succ height ih =>
    have hchild := keeps_recurseMap hK flags height index.tail
    apply Sim.rounds (keeps_mapInner hK hchild flags pt) (fun _ => Keeps.pure _) _
      (fun _ => sim_pure _)
    apply hmakes.sim_mapInner hlevel hshape hchild _ hpt
    exact fun q hne hal hfirst =>
      ih (hlevel.opened hfirst q) (hmakes.opened hshape hfirst q) _ (points_opened hne hal hfirst)

end MakesSame

theorem sim_unmapLeaf {pt : PtPtr} {p : PAddr} (hpt : Points tmpPaddr tmpPt pt p) (pages : ℕ)
    (v : UnmapVars) :
    Window.Same tmpPaddr room tmpPt first slots (unmapLeaf (kernel tmpPaddr) pt pages v)
      (unmapLeaf (flat tmpPaddr) p pages v) := by
  have hK := keeps_kernel tmpPaddr tmpPaddr
  apply Sim.ite _ fun _ => sim_pure _
  intro _
  apply Sim.same_bind (sim_write hpt v.index _)
  · exact fun _ => Keeps.bind (hK.invalidatePage _) fun _ => Keeps.pure _
  · exact fun _ => Sim.same_bind (sim_invalidatePage _) (fun _ => Keeps.pure _) fun _ => sim_pure _

theorem sim_unmapInner {n : ℕ} (hlevel : Level room (n + 1) tmpPt first)
    {child : List ℕ → PtPtr → ℕ → Prog Fault VmState UnmapVars}
    {child' : List ℕ → PAddr → ℕ → Prog Fault FlatState UnmapVars}
    (hkeeps : ∀ below pt vaddr, Keeps (Strayed tmpPaddr) (child below pt vaddr))
    (hchild : ∀ p, p ≠ tmpPaddr → ptePaddr p = p → first < 511 → ∀ below vaddr,
      Window.Same tmpPaddr room (openedPt tmpPt first p) (openedFirst tmpPt first p)
        (openedSlots first slots) (child below (.window (tmpVaddr first)) vaddr)
        (child' below p vaddr))
    {pt : PtPtr} {p : PAddr} (hpt : Points tmpPaddr tmpPt pt p) (height pages : ℕ)
    (v : UnmapVars) :
    Window.Same tmpPaddr room tmpPt first slots
      (unmapInner (kernel tmpPaddr) child height pt pages v)
      (unmapInner (flat tmpPaddr) child' height p pages v) := by
  have hopen : ∀ paddr, Keeps (Strayed tmpPaddr)
      (withTable (kernel tmpPaddr) paddr fun pt => child v.below pt v.vaddr) :=
    keeps_withTable (keeps_kernel tmpPaddr tmpPaddr).toLookKeeps fun pt => hkeeps v.below pt v.vaddr
  apply Sim.ite _ fun _ => sim_pure _
  intro _
  apply Sim.same_bind (sim_read hpt v.index)
  · exact fun _ => Keeps.ite (Keeps.bind (hopen _) fun _ => Keeps.pure _) (Keeps.pure _)
  · intro pte
    apply Sim.ite _ fun _ => sim_pure _
    intro _
    apply Sim.same_bind (sim_withTable hlevel (fun pt => hkeeps v.below pt v.vaddr)
      (fun q hne hal hfirst => hchild q hne hal hfirst v.below v.vaddr) _)
    · exact fun _ => Keeps.pure _
    · exact fun _ => sim_pure _

theorem sim_recurseUnmap (pages height : ℕ) {tmpPt : ℕ → Pte} {first : ℕ} {slots : List ℕ}
    (hlevel : Level room height tmpPt first) (index : List ℕ) {pt : PtPtr} {p : PAddr}
    (hpt : Points tmpPaddr tmpPt pt p) (vaddr : ℕ) :
    Window.Same tmpPaddr room tmpPt first slots
      (recurseUnmap (kernel tmpPaddr) pages height index pt vaddr)
      (recurseUnmap (flat tmpPaddr) pages height index p vaddr) := by
  have hK := keeps_kernel tmpPaddr tmpPaddr
  induction height generalizing tmpPt first slots index pt p vaddr with
  | zero =>
    exact Sim.rounds (keeps_unmapLeaf hK pt pages) (fun _ => Keeps.pure _)
      (sim_unmapLeaf hpt pages) (fun _ => sim_pure _) ..
  | succ height ih =>
    have hchild := keeps_recurseUnmap hK pages height
    apply Sim.rounds (keeps_unmapInner hK hchild (height + 1) pt pages) (fun _ => Keeps.pure _) _
      (fun _ => sim_pure _)
    apply sim_unmapInner hlevel hchild _ hpt
    exact fun q hne hal hfirst below vaddr =>
      ih (hlevel.opened hfirst q) below (points_opened hne hal hfirst) vaddr

theorem sim_recurseFind (height : ℕ) {tmpPt : ℕ → Pte} {first : ℕ} {slots : List ℕ}
    (hlevel : Level room height tmpPt first) (index : List ℕ) {pt : PtPtr} {p : PAddr}
    (hpt : Points tmpPaddr tmpPt pt p) :
    Window.Same tmpPaddr room tmpPt first slots (recurseFind (kernel tmpPaddr) height index pt)
      (recurseFind (flat tmpPaddr) height index p) := by
  have hK := (keeps_kernel tmpPaddr tmpPaddr).toLookKeeps
  induction height generalizing tmpPt first slots index pt p with
  | zero =>
    apply Sim.same_bind (sim_read hpt _) (fun _ => Keeps.ite (Keeps.pure _) (Keeps.pure _))
    exact fun _ => Sim.ite (fun _ => sim_pure _) fun _ => sim_pure _
  | succ height ih =>
    have hchild := keeps_recurseFind hK height index.tail
    apply Sim.same_bind (sim_read hpt _)
    · exact fun _ => Keeps.ite (keeps_withTable hK hchild _) (Keeps.pure _)
    · intro pte
      apply Sim.ite _ fun _ => sim_pure _
      exact fun _ => sim_withTable hlevel hchild
        (fun q hne hal hfirst => ih (hlevel.opened hfirst q) _ (points_opened hne hal hfirst)) _

theorem sim_recurseSetBacking (paddr : PAddr) (height : ℕ) {tmpPt : ℕ → Pte} {first : ℕ}
    {slots : List ℕ} (hlevel : Level room height tmpPt first) (index : List ℕ) {pt : PtPtr}
    {p : PAddr} (hpt : Points tmpPaddr tmpPt pt p) :
    Window.Same tmpPaddr room tmpPt first slots
      (recurseSetBacking (kernel tmpPaddr) paddr height index pt)
      (recurseSetBacking (flat tmpPaddr) paddr height index p) := by
  have hK := keeps_kernel tmpPaddr tmpPaddr
  induction height generalizing tmpPt first slots index pt p with
  | zero =>
    apply Sim.same_bind (sim_read hpt _)
    · exact fun _ => Keeps.ite (Keeps.bind (hK.write _ _ _) fun _ => Keeps.pure _) (Keeps.pure _)
    · intro pte
      apply Sim.ite _ fun _ => sim_pure _
      exact fun _ => Sim.same_bind (sim_write hpt _ _) (fun _ => Keeps.pure _) fun _ => sim_pure _
  | succ height ih =>
    have hchild := keeps_recurseSetBacking hK paddr height index.tail
    apply Sim.same_bind (sim_read hpt _)
    · exact fun _ => Keeps.ite (keeps_withTable hK.toLookKeeps hchild _) (Keeps.pure _)
    · intro pte
      apply Sim.ite _ fun _ => sim_pure _
      exact fun _ => sim_withTable hlevel hchild
        (fun q hne hal hfirst => ih (hlevel.opened hfirst q) _ (points_opened hne hal hfirst)) _

theorem sim_flagLeaf {pt : PtPtr} {p : PAddr} (hpt : Points tmpPaddr tmpPt pt p) (flags : Flags)
    (v : ℕ × ℕ) :
    Window.Same tmpPaddr room tmpPt first slots (flagLeaf (kernel tmpPaddr) flags pt v)
      (flagLeaf (flat tmpPaddr) flags p v) := by
  have hwrite : ∀ e, Keeps (Strayed tmpPaddr) ((kernel tmpPaddr).write pt v.1 e) :=
    (keeps_kernel tmpPaddr tmpPaddr).write pt v.1
  apply Sim.ite _ fun _ => sim_pure _
  intro _
  apply Sim.same_bind (sim_read hpt v.1)
  · exact fun _ => Keeps.ite (Keeps.bind (hwrite _) fun _ => Keeps.pure _) (Keeps.pure _)
  · intro pte
    apply Sim.ite _ fun _ => sim_pure _
    exact fun _ => Sim.same_bind (sim_write hpt v.1 _) (fun _ => Keeps.pure _) fun _ => sim_pure _

theorem sim_flagInner {n : ℕ} (hlevel : Level room (n + 1) tmpPt first)
    {child : PtPtr → ℕ → Prog Fault VmState (Status × ℕ)}
    {child' : PAddr → ℕ → Prog Fault FlatState (Status × ℕ)}
    (hkeeps : ∀ pt pages, Keeps (Strayed tmpPaddr) (child pt pages))
    (hchild : ∀ p, p ≠ tmpPaddr → ptePaddr p = p → first < 511 → ∀ pages,
      Window.Same tmpPaddr room (openedPt tmpPt first p) (openedFirst tmpPt first p)
        (openedSlots first slots) (child (.window (tmpVaddr first)) pages) (child' p pages))
    {pt : PtPtr} {p : PAddr} (hpt : Points tmpPaddr tmpPt pt p) (flags : Flags) (v : ℕ × ℕ) :
    Window.Same tmpPaddr room tmpPt first slots (flagInner (kernel tmpPaddr) child flags pt v)
      (flagInner (flat tmpPaddr) child' flags p v) := by
  have hK := keeps_kernel tmpPaddr tmpPaddr
  have hbody : ∀ ptVaddr, Keeps (Strayed tmpPaddr) (do
      updatePtPteFlags (kernel tmpPaddr) pt v.1 flags
      child ptVaddr v.2) := fun ptVaddr =>
    Keeps.bind (keeps_updatePtPteFlags hK pt v.1 flags) fun _ => hkeeps ptVaddr v.2
  apply Sim.ite _ fun _ => sim_pure _
  intro _
  apply Sim.same_bind (sim_read hpt v.1)
  · exact fun _ => Keeps.ite (Keeps.bind (keeps_withTable hK.toLookKeeps hbody _)
      fun _ => Keeps.pure _) (Keeps.pure _)
  · intro pte
    apply Sim.ite _ fun _ => sim_pure _
    intro _
    apply Sim.same_bind (sim_withTable hlevel hbody _ _)
    · exact fun _ => Keeps.pure _
    · exact fun _ => sim_pure _
    · intro q hne hal hfirst
      apply Sim.same_bind (sim_updatePtPteFlags (hpt.opened hlevel hfirst q) v.1 flags)
      · exact fun _ => hkeeps _ v.2
      · exact fun _ => hchild q hne hal hfirst v.2

theorem sim_recurseFlag (flags : Flags) (height : ℕ) {tmpPt : ℕ → Pte} {first : ℕ}
    {slots : List ℕ} (hlevel : Level room height tmpPt first) (index : List ℕ) {pt : PtPtr}
    {p : PAddr} (hpt : Points tmpPaddr tmpPt pt p) (pages : ℕ) :
    Window.Same tmpPaddr room tmpPt first slots
      (recurseFlag (kernel tmpPaddr) flags height index pt pages)
      (recurseFlag (flat tmpPaddr) flags height index p pages) := by
  have hK := keeps_kernel tmpPaddr tmpPaddr
  induction height generalizing tmpPt first slots index pt p pages with
  | zero =>
    exact Sim.rounds (keeps_flagLeaf hK flags pt) (fun _ => Keeps.pure _) (sim_flagLeaf hpt flags)
      (fun _ => sim_pure _) ..
  | succ height ih =>
    have hchild := keeps_recurseFlag hK flags height index.tail
    apply Sim.rounds (keeps_flagInner hK hchild flags pt) (fun _ => Keeps.pure _) _
      (fun _ => sim_pure _)
    apply sim_flagInner hlevel hchild _ hpt
    exact fun q hne hal hfirst => ih (hlevel.opened hfirst q) _ (points_opened hne hal hfirst)

/-! ### The functions of the interface -/

theorem MakesSame.sim_vmMapPages {shape : ℕ → (ℕ → Pte) → ℕ → Prop}
    {memSet : PtPtr → Prog Fault VmState Unit} {memSet' : PAddr → Prog Fault FlatState Unit}
    (hmakes : MakesSame tmpPaddr room shape memSet memSet') (hlevel : Level room 3 tmpPt first)
    (hshape : shape 3 tmpPt first) {pt : PtPtr} {p : PAddr} (hpt : Points tmpPaddr tmpPt pt p)
    (fuel : ℕ) (paddrStart : PAddr) (pages vaddrHint : ℕ) (flags : Flags) :
    Window.Same tmpPaddr room tmpPt first slots
      (vmMapPages ((kernel tmpPaddr).withMemSet memSet) fuel pt paddrStart pages vaddrHint flags)
      (vmMapPages ((flat tmpPaddr).withMemSet memSet') fuel p paddrStart pages vaddrHint
        flags) := by
  have hK := (keeps_kernel tmpPaddr tmpPaddr).withMemSet hmakes.keeps
  have hmap : ∀ index, Keeps (Strayed tmpPaddr) (do
      let r ← recurseMap ((kernel tmpPaddr).withMemSet memSet) flags 3 index pt paddrStart pages
      if isError r.1 then return (r.1, vaddrHint)
      else return (r.1, hintOf vaddrHint index)) := fun index =>
    Keeps.bind (keeps_recurseMap hK flags 3 index pt paddrStart pages)
      fun _ => Keeps.ite (Keeps.pure _) (Keeps.pure _)
  have hfind : Keeps (Strayed tmpPaddr) (do
      let found ← findSpace ((kernel tmpPaddr).withMemSet memSet) fuel paddrStart pages flags 3
        (indices vaddrHint) pt
      if isError found.1 then return (found.1, vaddrHint)
      else
        let r ← recurseMap ((kernel tmpPaddr).withMemSet memSet) flags 3 found.2 pt paddrStart pages
        if isError r.1 then return (r.1, vaddrHint)
        else return (r.1, hintOf vaddrHint found.2)) :=
    Keeps.bind (keeps_findSpace hK.toLookKeeps fuel paddrStart pages flags 3 _ pt)
      fun r => Keeps.ite (Keeps.pure _) (hmap r.2)
  apply Sim.same_bind (sim_check _ _)
    fun _ => Keeps.bind (keeps_check _ _) fun _ => Keeps.bind (keeps_check _ _) fun _ => hfind
  intro _
  apply Sim.same_bind (sim_check _ _) fun _ => Keeps.bind (keeps_check _ _) fun _ => hfind
  intro _
  apply Sim.same_bind (sim_check _ _) fun _ => hfind
  intro _
  have hsearch : Window.Same tmpPaddr room tmpPt first slots
      (findSpace ((kernel tmpPaddr).withMemSet memSet) fuel paddrStart pages flags 3
        (indices vaddrHint) pt)
      (findSpace ((flat tmpPaddr).withMemSet memSet') fuel paddrStart pages flags 3
        (indices vaddrHint) p) := by
    rw [findSpace_withMemSet, findSpace_withMemSet]
    exact sim_findSpace fuel paddrStart pages flags 3 hlevel (indices vaddrHint) hpt
  apply Sim.same_bind hsearch
  · exact fun r => Keeps.ite (Keeps.pure _) (hmap r.2)
  · rintro ⟨res, index⟩
    apply Sim.ite fun _ => sim_pure _
    intro _
    apply Sim.same_bind (hmakes.sim_recurseMap flags 3 hlevel hshape index hpt paddrStart pages)
    · exact fun _ => Keeps.ite (Keeps.pure _) (Keeps.pure _)
    · exact fun _ => Sim.ite (fun _ => sim_pure _) fun _ => sim_pure _

theorem sim_vmMapPages (hlevel : Level room 3 tmpPt first) {pt : PtPtr} {p : PAddr}
    (hpt : Points tmpPaddr tmpPt pt p) (fuel : ℕ) (paddrStart : PAddr) (pages vaddrHint : ℕ)
    (flags : Flags) :
    Window.Same tmpPaddr room tmpPt first slots
      (vmMapPages (kernel tmpPaddr) fuel pt paddrStart pages vaddrHint flags)
      (vmMapPages (flat tmpPaddr) fuel p paddrStart pages vaddrHint flags) :=
  makesSame_kernel.sim_vmMapPages hlevel trivial hpt fuel paddrStart pages vaddrHint flags

theorem sim_vmUnmapPages (hlevel : Level room 3 tmpPt first) {pt : PtPtr} {p : PAddr}
    (hpt : Points tmpPaddr tmpPt pt p) (vaddrStart pages : ℕ) :
    Window.Same tmpPaddr room tmpPt first slots
      (vmUnmapPages (kernel tmpPaddr) pt vaddrStart pages)
      (vmUnmapPages (flat tmpPaddr) p vaddrStart pages) := by
  have hunmap := Keeps.bind (keeps_recurseUnmap (keeps_kernel tmpPaddr tmpPaddr) pages 3
    (indices vaddrStart) pt vaddrStart) fun v => Keeps.pure v.unmappedPages
  apply Sim.same_bind (sim_check _ _) fun _ => Keeps.bind (keeps_check _ _) fun _ => hunmap
  intro _
  apply Sim.same_bind (sim_check _ _) fun _ => hunmap
  intro _
  apply Sim.same_bind (sim_recurseUnmap pages 3 hlevel (indices vaddrStart) hpt vaddrStart)
  · exact fun _ => Keeps.pure _
  · exact fun _ => sim_pure _

theorem sim_vmVaddrToPaddr (hlevel : Level room 3 tmpPt first) {pt : PtPtr} {p : PAddr}
    (hpt : Points tmpPaddr tmpPt pt p) (vaddr : ℕ) :
    Window.Same tmpPaddr room tmpPt first slots (vmVaddrToPaddr (kernel tmpPaddr) pt vaddr)
      (vmVaddrToPaddr (flat tmpPaddr) p vaddr) := by
  apply Sim.same_bind (sim_recurseFind 3 hlevel (indices vaddr) hpt)
  · exact fun _ => Keeps.ite (Keeps.pure _) (Keeps.pure _)
  · exact fun _ => Sim.ite (fun _ => sim_pure _) fun _ => sim_pure _

theorem sim_vmSetBacking (hlevel : Level room 3 tmpPt first) {pt : PtPtr} {p : PAddr}
    (hpt : Points tmpPaddr tmpPt pt p) (vaddr : ℕ) (paddr : PAddr) :
    Window.Same tmpPaddr room tmpPt first slots (vmSetBacking (kernel tmpPaddr) pt vaddr paddr)
      (vmSetBacking (flat tmpPaddr) p vaddr paddr) := by
  have hset := keeps_recurseSetBacking (keeps_kernel tmpPaddr tmpPaddr) paddr 3 (indices vaddr) pt
  apply Sim.same_bind (sim_check _ _) fun _ => Keeps.bind (keeps_check _ _) fun _ => hset
  intro _
  apply Sim.same_bind (sim_check _ _) fun _ => hset
  exact fun _ => sim_recurseSetBacking paddr 3 hlevel (indices vaddr) hpt

theorem sim_vmFlagPages (hlevel : Level room 3 tmpPt first) {pt : PtPtr} {p : PAddr}
    (hpt : Points tmpPaddr tmpPt pt p) (vaddrStart pages : ℕ) (flags : Flags) :
    Window.Same tmpPaddr room tmpPt first slots
      (vmFlagPages (kernel tmpPaddr) pt vaddrStart pages flags)
      (vmFlagPages (flat tmpPaddr) p vaddrStart pages flags) := by
  have hflag := Keeps.bind (keeps_recurseFlag (keeps_kernel tmpPaddr tmpPaddr) flags 3
    (indices vaddrStart) pt pages) fun r => Keeps.pure r.1
  apply Sim.same_bind (sim_check _ _) fun _ => Keeps.bind (keeps_check _ _) fun _ => hflag
  intro _
  apply Sim.same_bind (sim_check _ _) fun _ => hflag
  intro _
  apply Sim.same_bind (sim_recurseFlag flags 3 hlevel (indices vaddrStart) hpt pages)
  · exact fun _ => Keeps.pure _
  · exact fun _ => sim_pure _

theorem sim_run (hlevel : Level room 3 tmpPt first) {pt : PtPtr} {p : PAddr}
    (hpt : Points tmpPaddr tmpPt pt p) (c : VmCall) :
    Window.Same tmpPaddr room tmpPt first slots (c.run (kernel tmpPaddr) pt)
      (c.run (flat tmpPaddr) p) := by
  cases c with
  | mapPages =>
    exact Sim.same_bind (sim_vmMapPages hlevel hpt ..) (fun _ => Keeps.pure _) fun _ => sim_pure _
  | unmapPages =>
    exact Sim.same_bind (sim_vmUnmapPages hlevel hpt ..) (fun _ => Keeps.pure _)
      fun _ => sim_pure _
  | vaddrToPaddr =>
    exact Sim.same_bind (sim_vmVaddrToPaddr hlevel hpt ..) (fun _ => Keeps.pure _)
      fun _ => sim_pure _
  | setBacking =>
    exact Sim.same_bind (sim_vmSetBacking hlevel hpt ..) (fun _ => Keeps.pure _)
      fun _ => sim_pure _
  | flagPages =>
    exact Sim.same_bind (sim_vmFlagPages hlevel hpt ..) (fun _ => Keeps.pure _)
      fun _ => sim_pure _

end Relation

/-! ## Calls -/

section Calls

variable {tmpPaddr root : PAddr} {s s' : VmState} {α : Type}
  {x : PtPtr → Prog Fault VmState α} {y : PAddr → Prog Fault FlatState α}

/-- What the machine without a window sees of a state. -/
def VmState.flat (s : VmState) : FlatState := { mem := s.mem, frames := s.frames, tlb := s.tlb }

/-- What a call that does not walk `tmp_pt` leaves: the tables as the machine without a
window leaves them, the window as it was, and no translation but those that the
machine without a window holds. -/
structure Leaves (s : VmState) (t : FlatState) (s' : VmState) : Prop where
  tmpPt_eq : s'.tmpPt = s.tmpPt
  first_eq : s'.firstFreeTmpIndex = s.firstFreeTmpIndex
  mem_eq : s'.mem = t.mem
  frames_eq : s'.frames = t.frames
  tlb : ∀ e ∈ s'.tlb, e ∈ t.tlb

theorem Rel.leaves {t : FlatState} (h : Rel s.tmpPt s.firstFreeTmpIndex [] s' t) :
    Leaves s t s' where
  tmpPt_eq := h.tmpPt_eq
  first_eq := h.first_eq
  mem_eq := h.mem_eq
  frames_eq := h.frames_eq
  tlb e he := (h.tlb e he).resolve_right List.not_mem_nil

/-- The two machines at the start of a call. -/
theorem rel_call (s : VmState) (root : PAddr) :
    Rel s.tmpPt s.firstFreeTmpIndex [] { s with opened := [root] } s.flat :=
  ⟨rfl, rfl, rfl, rfl, fun _ he => .inl he⟩

/-- **The window is invisible.**  A call that returns without having walked `tmp_pt` does
what the same call does on the machine without a window. -/
theorem call_flat
    (hsim : ∀ tmpPt first, Level False 3 tmpPt first → ∀ pt p, Points tmpPaddr tmpPt pt p →
      Window.Same tmpPaddr False tmpPt first [] (x pt) (y p))
    (hkeeps : ∀ q pt, Keeps (fun s => q ∈ s.opened) (x pt))
    (hwin : WindowOk s.tmpPt s.firstFreeTmpIndex) {r : α}
    (hok : call root (x (.table root)) s = .ok (r, s')) (hclear : tmpPaddr ∉ s'.opened) :
    root ≠ tmpPaddr ∧ ∃ t, y root s.flat = .ok (r, t) ∧ Leaves s t s' := by
  have hroot : root ≠ tmpPaddr := by
    rintro rfl
    exact hclear ((hkeeps root _).run _ List.mem_cons_self r s' hok)
  have hsame := hsim _ _ ⟨hwin, False.elim⟩ (.table root) root ⟨hroot, rfl⟩
  rcases hsame.back _ _ (rel_call s root) r s' hok with ⟨_, t, hy, rfl, hrel⟩ | ⟨-, hstray⟩
  · exact ⟨hroot, t, hy, hrel.leaves⟩
  · exact absurd hstray hclear

/-- **The window suffices.**  With three free slots a call returns whenever the same call
returns on the machine without a window. -/
theorem flat_call
    (hsim : ∀ tmpPt first, Level True 3 tmpPt first → ∀ pt p, Points tmpPaddr tmpPt pt p →
      Window.Same tmpPaddr True tmpPt first [] (x pt) (y p))
    (hwin : WindowOk s.tmpPt s.firstFreeTmpIndex) (hroom : Room 3 s.tmpPt)
    (hroot : root ≠ tmpPaddr) {r : α} {t : FlatState} (hok : y root s.flat = .ok (r, t)) :
    ∃ s', call root (x (.table root)) s = .ok (r, s') ∧ Leaves s t s' := by
  have hsame := hsim _ _ ⟨hwin, fun _ => hroom⟩ (.table root) root ⟨hroot, rfl⟩
  obtain ⟨_, s', hx, rfl, hrel⟩ := hsame.forth trivial _ _ (rel_call s root) r t hok
  exact ⟨s', hx, hrel.leaves⟩

/-- A call that returns does what it does without a window, when that does not give up. -/
theorem call_of_not_strayed
    (hsim : ∀ tmpPt first, Level False 3 tmpPt first → ∀ pt p, Points tmpPaddr tmpPt pt p →
      Window.Same tmpPaddr False tmpPt first [] (x pt) (y p))
    (hwin : WindowOk s.tmpPt s.firstFreeTmpIndex) (hroot : root ≠ tmpPaddr) {r : α}
    (hflat : y root s.flat ≠ .error strayed)
    (hok : call root (x (.table root)) s = .ok (r, s')) :
    ∃ t, y root s.flat = .ok (r, t) ∧ Leaves s t s' := by
  have hsame := hsim _ _ ⟨hwin, False.elim⟩ (.table root) root ⟨hroot, rfl⟩
  rcases hsame.back _ _ (rel_call s root) r s' hok with ⟨_, t, hy, rfl, hrel⟩ | ⟨hy, -⟩
  · exact ⟨t, hy, hrel.leaves⟩
  · exact absurd hy hflat

/-- A call that returns does what it does without a window, when that returns too. -/
theorem call_of_flat
    (hsim : ∀ tmpPt first, Level False 3 tmpPt first → ∀ pt p, Points tmpPaddr tmpPt pt p →
      Window.Same tmpPaddr False tmpPt first [] (x pt) (y p))
    (hwin : WindowOk s.tmpPt s.firstFreeTmpIndex) (hroot : root ≠ tmpPaddr) {r r' : α}
    {t : FlatState} (hflat : y root s.flat = .ok (r', t))
    (hok : call root (x (.table root)) s = .ok (r, s')) : r = r' ∧ Leaves s t s' := by
  obtain ⟨t', hy, hleaves⟩ := call_of_not_strayed hsim hwin hroot
    (by rw [hflat]; intro h; cases h) hok
  rw [hflat] at hy
  cases hy
  exact ⟨rfl, hleaves⟩

theorem vmMapPages_flat (hwin : WindowOk s.tmpPt s.firstFreeTmpIndex) {fuel : ℕ}
    {paddrStart : PAddr} {pages vaddrHint : ℕ} {flags : Flags} {r : Status × ℕ}
    (hok : call root (vmMapPages (kernel tmpPaddr) fuel (.table root) paddrStart pages vaddrHint
      flags) s = .ok (r, s')) (hclear : tmpPaddr ∉ s'.opened) :
    root ≠ tmpPaddr ∧ ∃ t, vmMapPages (flat tmpPaddr) fuel root paddrStart pages vaddrHint flags
      s.flat = .ok (r, t) ∧ Leaves s t s' :=
  call_flat (fun _ _ hlevel _ _ hpt => sim_vmMapPages hlevel hpt ..)
    (fun q _ => keeps_vmMapPages (keeps_kernel tmpPaddr q) ..) hwin hok hclear

theorem vmUnmapPages_flat (hwin : WindowOk s.tmpPt s.firstFreeTmpIndex) {vaddrStart pages r : ℕ}
    (hok : call root (vmUnmapPages (kernel tmpPaddr) (.table root) vaddrStart pages) s =
      .ok (r, s')) (hclear : tmpPaddr ∉ s'.opened) :
    root ≠ tmpPaddr ∧ ∃ t, vmUnmapPages (flat tmpPaddr) root vaddrStart pages s.flat =
      .ok (r, t) ∧ Leaves s t s' :=
  call_flat (fun _ _ hlevel _ _ hpt => sim_vmUnmapPages hlevel hpt ..)
    (fun q _ => keeps_vmUnmapPages (keeps_kernel tmpPaddr q) ..) hwin hok hclear

theorem vmSetBacking_flat (hwin : WindowOk s.tmpPt s.firstFreeTmpIndex) {vaddr : ℕ}
    {paddr : PAddr} {r : Status}
    (hok : call root (vmSetBacking (kernel tmpPaddr) (.table root) vaddr paddr) s = .ok (r, s'))
    (hclear : tmpPaddr ∉ s'.opened) :
    root ≠ tmpPaddr ∧ ∃ t, vmSetBacking (flat tmpPaddr) root vaddr paddr s.flat = .ok (r, t) ∧
      Leaves s t s' :=
  call_flat (fun _ _ hlevel _ _ hpt => sim_vmSetBacking hlevel hpt ..)
    (fun q _ => keeps_vmSetBacking (keeps_kernel tmpPaddr q) ..) hwin hok hclear

/-- **The temporary window is balanced.**  A call that returns, with success or with an
error, and has not walked `tmp_pt`, leaves the window as it was; and with three free
slots the window is never what keeps a call from returning: the call returns whenever
it does on the machine without a window, whose `map_page_tmp` and `unmap_page_tmp`
assert nothing. -/
theorem window_balanced (c : VmCall) (hwin : WindowOk s.tmpPt s.firstFreeTmpIndex)
    (hroom : Room 3 s.tmpPt) :
    (∀ s', call root (c.run (kernel tmpPaddr) (.table root)) s = .ok ((), s') →
      tmpPaddr ∉ s'.opened →
      s'.tmpPt = s.tmpPt ∧ s'.firstFreeTmpIndex = s.firstFreeTmpIndex) ∧
    (∀ t, root ≠ tmpPaddr → c.run (flat tmpPaddr) root s.flat = .ok ((), t) →
      ∃ s', call root (c.run (kernel tmpPaddr) (.table root)) s = .ok ((), s')) := by
  constructor
  · intro s' hok hclear
    have hflat := call_flat (y := fun p => c.run (flat tmpPaddr) p)
      (fun _ _ hlevel _ _ hpt => sim_run hlevel hpt c)
      (fun q pt => keeps_run (keeps_kernel tmpPaddr q) pt c) hwin hok hclear
    obtain ⟨-, t, -, hleaves⟩ := hflat
    exact ⟨hleaves.tmpPt_eq, hleaves.first_eq⟩
  · intro t hroot hok
    obtain ⟨s', hs', -⟩ := flat_call (x := fun pt => c.run (kernel tmpPaddr) pt)
      (fun _ _ hlevel _ _ hpt => sim_run hlevel hpt c) hwin hroom hroot hok
    exact ⟨s', hs'⟩

end Calls

end Mimik.Vm
