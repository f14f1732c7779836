/-
# The temporary window is reserved

The addresses of the temporary window are kernel addresses like others, and the functions with
the prefix `vmk_` do not set them apart: a range from `0xffffffffc0000000` on is walked into
`tmp_pt` itself, and a range in the highest 512 GiB passes the entry of `kpml4` on the way to the
window, of which `vm_map_pages` and `vm_flag_pages` rewrite the permissions.

So the window stays as `vm_init` left it in runs in which no call comes to `tmp_pt`, and those
that come by an entry on the way to it ask for the permissions it has (`window_of_run`).
-/
import Mimik.VmStale
import Mimik.VmKernel

namespace Mimik.Vm

open FaultState

/-! ## An entry that mapping passes by -/

section Passing

variable {tmpPaddr p : PAddr} {i : ℕ} {e : Pte} {s s' : VmState} {pt pt' : PtPtr} {r : PAddr}
  {flags : Flags}

/-- The call has walked `tmp_pt`, or the table of the entry `e`, and the flags do not ask for
the permissions that this entry has. -/
def Walked (tmpPaddr : PAddr) (e : Pte) (flags : Flags) (s : VmState) : Prop :=
  tmpPaddr ∈ s.opened ∨ ptePaddr e ∈ s.opened ∧ reflag e flags ≠ e

/-- The entry is in its place; the window is in order, and the slots in use lead to tables other
than `tmp_pt`. -/
structure Fixed (tmpPaddr p : PAddr) (i : ℕ) (e : Pte) (s : VmState) : Prop where
  window : WindowOk s.tmpPt s.firstFreeTmpIndex
  slots : ∀ j, j ≠ 511 → present (s.tmpPt j) = true → ptePaddr (s.tmpPt j) ≠ tmpPaddr
  entry : s.mem p i = e
  frames : ∀ f ∈ s.frames, ptePaddr f ≠ p

/-- The pointer is none to `tmp_pt`. -/
def Inside (tmpPaddr : PAddr) : PtPtr → Prop
  | .table r => r ≠ tmpPaddr
  | .window vaddr => tmpIndex vaddr ≠ 511

/-- The table behind a pointer. -/
def Behind (pt : PtPtr) (r : PAddr) (s : VmState) : Prop :=
  match pt with
  | .table r' => r' = r
  | .window vaddr =>
    present (s.tmpPt (tmpIndex vaddr)) = true ∧ ptePaddr (s.tmpPt (tmpIndex vaddr)) = r

theorem resolve_eq_ok_iff : Kernel.resolve pt s = .ok (r, s') ↔ s' = s ∧ Behind pt r s := by
  cases pt with
  | table r' =>
    constructor
    · intro h; cases h; exact ⟨rfl, rfl⟩
    · rintro ⟨rfl, rfl⟩; rfl
  | window vaddr =>
    simp only [Kernel.resolve, Behind]
    by_cases hpres : present (s.tmpPt (tmpIndex vaddr)) = true
    · rw [if_pos hpres]
      constructor
      · intro h; cases h; exact ⟨rfl, hpres, rfl⟩
      · rintro ⟨rfl, -, rfl⟩; rfl
    · rw [if_neg hpres]
      constructor
      · intro h; cases h
      · rintro ⟨-, hpres', -⟩; exact absurd hpres' hpres

theorem Behind.congr (h : Behind pt r s) (htmp : s'.tmpPt = s.tmpPt) : Behind pt r s' := by
  cases pt with
  | table r' => exact h
  | window vaddr =>
    rw [Behind, htmp]
    exact h

/-- It is not `tmp_pt`. -/
theorem Fixed.ne (h : Fixed tmpPaddr p i e s) (hin : Inside tmpPaddr pt) (hr : Behind pt r s) :
    r ≠ tmpPaddr := by
  cases pt with
  | table r' => rwa [← show r' = r from hr]
  | window vaddr =>
    obtain ⟨hpres, rfl⟩ := hr
    exact h.slots _ hin hpres

/-- A table is opened. -/
theorem Fixed.mapPageTmp (h : Fixed tmpPaddr p i e s) {paddr : PAddr} {flags : Flags}
    (hok : Kernel.mapPageTmp paddr flags s = .ok (pt', s')) (hne : ptePaddr paddr ≠ tmpPaddr) :
    Fixed tmpPaddr p i e s' ∧ Inside tmpPaddr pt' ∧ Behind pt' (ptePaddr paddr) s' ∧
      ∀ {pt r}, Behind pt r s → Behind pt r s' := by
  rw [Kernel.mapPageTmp] at hok
  split at hok
  next hlt =>
    cases hok
    have hfirst : s.firstFreeTmpIndex < 511 := by
      have hne := h.window.ne
      rw [ptLength] at hlt
      omega
    have hmod : s.firstFreeTmpIndex % 512 = s.firstFreeTmpIndex := Nat.mod_eq_of_lt (by omega)
    have hindex : tmpIndex (tmpVaddr s.firstFreeTmpIndex) = s.firstFreeTmpIndex :=
      tmpIndex_tmpVaddr (by omega)
    have hpt : (Kernel.tmpMapped s paddr flags).tmpPt =
        Function.update s.tmpPt s.firstFreeTmpIndex (setPte paddr flags) := by
      rw [← hmod]
      rfl
    refine ⟨⟨?_, fun j hj hpres => ?_, h.entry, h.frames⟩, ?_, ?_, fun {pt r} hr => ?_⟩
    · have hwin := h.window.take hfirst (present_setPte paddr flags)
      rw [← hpt] at hwin
      have hnext : (Kernel.tmpMapped s paddr flags).firstFreeTmpIndex =
          Kernel.nextFreeTmpIndex (Kernel.tmpMapped s paddr flags).tmpPt ptLength
            s.firstFreeTmpIndex := rfl
      rw [hnext]
      exact hwin
    · rw [hpt] at hpres ⊢
      by_cases hjf : j = s.firstFreeTmpIndex
      · rw [hjf, Function.update_self, ptePaddr_setPte]
        exact hne
      · rw [Function.update_of_ne hjf] at hpres ⊢
        exact h.slots j hj hpres
    · show tmpIndex (tmpVaddr (s.firstFreeTmpIndex % 512)) ≠ 511
      rw [hmod, hindex]
      omega
    · show present _ = true ∧ ptePaddr _ = _
      rw [hpt, hmod, hindex, Function.update_self, present_setPte, ptePaddr_setPte]
      exact ⟨rfl, rfl⟩
    · cases pt with
      | table r' => exact hr
      | window vaddr =>
        have hnot : tmpIndex vaddr ≠ s.firstFreeTmpIndex := by
          intro heq
          have hpres : present (s.tmpPt (tmpIndex vaddr)) = true := hr.1
          rw [heq, h.window.free (by rw [ptLength]; omega)] at hpres
          cases hpres
        show present _ = true ∧ ptePaddr _ = r
        rw [hpt, Function.update_of_ne hnot]
        exact hr
  next => cases hok

/-- The table that is opened is recorded. -/
theorem mapPageTmp_opened {paddr : PAddr} {flags : Flags}
    (hok : Kernel.mapPageTmp paddr flags s = .ok (pt', s')) (hr : ptePaddr paddr = r) :
    r ∈ s'.opened := by
  rw [Kernel.mapPageTmp] at hok
  split at hok
  next =>
    cases hok
    rw [← hr]
    exact List.mem_cons_self
  next => cases hok

/-- A table is closed. -/
theorem Fixed.unmapPageTmp (h : Fixed tmpPaddr p i e s)
    (hok : Kernel.unmapPageTmp pt s = .ok ((), s')) : Fixed tmpPaddr p i e s' := by
  cases pt with
  | table r => cases hok
  | window vaddr =>
    simp only [Kernel.unmapPageTmp] at hok
    split at hok
    next => cases hok
    next =>
      split at hok
      next => cases hok
      next h511 =>
        cases hok
        have hother : ∀ {j}, present (Function.update s.tmpPt (tmpIndex vaddr) 0#64 j) = true →
            j ≠ tmpIndex vaddr ∧ present (s.tmpPt j) = true := by
          intro j hpres
          have hj : j ≠ tmpIndex vaddr := by
            rintro rfl
            rw [Function.update_self, present_zero] at hpres
            cases hpres
          rw [Function.update_of_ne hj] at hpres
          exact ⟨hj, hpres⟩
        refine ⟨⟨fun j hj habs => ?_, ?_, ?_, fun hlt => ?_, fun j hj hj' => ?_⟩,
          fun j hj hpres => ?_, h.entry, h.frames⟩
        · show Function.update s.tmpPt (tmpIndex vaddr) 0#64 j = 0#64
          by_cases hjv : j = tmpIndex vaddr
          · rw [hjv, Function.update_self]
          · replace habs : present (Function.update s.tmpPt (tmpIndex vaddr) 0#64 j) = false := habs
            rw [Function.update_of_ne hjv] at habs ⊢
            exact h.window.clear j hj habs
        · have hle := h.window.le
          show (if tmpIndex vaddr < s.firstFreeTmpIndex then _ else _) ≤ ptLength
          split <;> omega
        · have hne := h.window.ne
          show (if tmpIndex vaddr < s.firstFreeTmpIndex then _ else _) ≠ 511
          split
          · exact h511
          · exact hne
        · show present (Function.update s.tmpPt (tmpIndex vaddr) 0#64 (if _ then _ else _)) = false
          replace hlt : (if tmpIndex vaddr < s.firstFreeTmpIndex then tmpIndex vaddr
            else s.firstFreeTmpIndex) < ptLength := hlt
          split at hlt
          next hv => rw [if_pos hv, Function.update_self, present_zero]
          next hv =>
            rw [if_neg hv]
            by_cases hfv : s.firstFreeTmpIndex = tmpIndex vaddr
            · rw [hfv, Function.update_self, present_zero]
            · rw [Function.update_of_ne hfv]
              exact h.window.free hlt
        · replace hj : j < if tmpIndex vaddr < s.firstFreeTmpIndex then tmpIndex vaddr
            else s.firstFreeTmpIndex := hj
          have hjv : j ≠ tmpIndex vaddr := by
            rintro rfl
            split at hj <;> omega
          show present (Function.update s.tmpPt (tmpIndex vaddr) 0#64 j) = true
          rw [Function.update_of_ne hjv]
          apply h.window.lowest j _ hj'
          split at hj <;> omega
        · obtain ⟨hjv, hpres⟩ := hother hpres
          show ptePaddr (Function.update s.tmpPt (tmpIndex vaddr) 0#64 j) ≠ tmpPaddr
          rw [Function.update_of_ne hjv]
          exact h.slots j hj hpres

/-- A store that leaves the entry as it is. -/
theorem Fixed.write (h : Fixed tmpPaddr p i e s) {j : ℕ} {x : Pte} {u : Unit}
    (hr : Behind pt r s) (hne : r ≠ tmpPaddr) (hother : r = p ∧ j = i → x = e)
    (hok : Kernel.write tmpPaddr pt j x s = .ok (u, s')) :
    Fixed tmpPaddr p i e s' ∧ s'.tmpPt = s.tmpPt := by
  obtain ⟨r', s₁, hres, hstore⟩ := bind_eq_ok_iff.mp hok
  rw [resolve_eq_ok_iff.mpr ⟨rfl, hr⟩] at hres
  cases hres
  cases hstore
  rw [Kernel.setEntry, if_neg hne]
  refine ⟨⟨h.window, h.slots, ?_, h.frames⟩, rfl⟩
  show (s.mem.set r j x) p i = e
  rw [Tables.set_apply]
  split
  next heq => exact hother ⟨heq.1.symm, heq.2.symm⟩
  next => exact h.entry

/-- A load. -/
theorem Fixed.read (h : Fixed tmpPaddr p i e s) (hin : Inside tmpPaddr pt) {j : ℕ} {x : Pte}
    (hok : Kernel.read tmpPaddr pt j s = .ok (x, s')) :
    s' = s ∧ ∃ r, Behind pt r s ∧ r ≠ tmpPaddr ∧ x = s.mem r j := by
  obtain ⟨r, s₁, hres, hload⟩ := bind_eq_ok_iff.mp hok
  obtain ⟨rfl, hr⟩ := resolve_eq_ok_iff.mp hres
  cases hload
  have hne := h.ne hin hr
  exact ⟨rfl, r, hr, hne, if_neg hne⟩

/-! ### The recursion -/

/-- The kernel does not forget that a table was walked. -/
theorem keeps_walked (tmpPaddr : PAddr) (e : Pte) (flags : Flags) :
    (kernel tmpPaddr).Keeps (Walked tmpPaddr e flags) := by
  have h := keeps_kernel tmpPaddr tmpPaddr
  have h' := keeps_kernel tmpPaddr (ptePaddr e)
  have hor : ∀ {α : Type} {x : Prog Fault VmState α}, Keeps (fun s => tmpPaddr ∈ s.opened) x →
      Keeps (fun s => ptePaddr e ∈ s.opened) x → Keeps (Walked tmpPaddr e flags) x := by
    intro α x hx hx'
    constructor
    rintro s (hs | hs) a s' hok
    · exact .inl (hx.run s hs a s' hok)
    · exact .inr ⟨hx'.run s hs.1 a s' hok, hs.2⟩
  exact ⟨⟨fun pt i => hor (h.read pt i) (h'.read pt i),
    fun paddr flags => hor (h.mapPageTmp paddr flags) (h'.mapPageTmp paddr flags),
    fun pt => hor (h.unmapPageTmp pt) (h'.unmapPageTmp pt)⟩,
    fun pt i e => hor (h.write pt i e) (h'.write pt i e), hor h.pmRequestPage h'.pmRequestPage,
    fun pt => hor (h.memSet pt) (h'.memSet pt),
    fun vaddr => hor (h.invalidatePage vaddr) (h'.invalidatePage vaddr)⟩

/-- The call has walked such a table, or it has left the entry as it was. -/
def Passes (tmpPaddr p : PAddr) (i : ℕ) (e : Pte) (flags : Flags) (s : VmState) : Prop :=
  Walked tmpPaddr e flags s ∨ Fixed tmpPaddr p i e s

/-- When such a table was walked there is nothing left to show. -/
theorem walked_or {α : Type} {x : Prog Fault VmState α} {P : VmState → Prop}
    {Q : α → VmState → Prop} (hkeeps : Keeps (Walked tmpPaddr e flags) x)
    (h : Triple P x fun a s => Walked tmpPaddr e flags s ∨ Q a s) :
    Triple (fun s => Walked tmpPaddr e flags s ∨ P s) x fun a s =>
      Walked tmpPaddr e flags s ∨ Q a s := by
  constructor
  rintro s (hs | hs) a s' hok
  · exact .inl (hkeeps.run s hs a s' hok)
  · exact h.run s hs a s' hok

/-- A round of the recursion has opened a table, and is not at the entry unless the flags ask for
the permissions that it has. -/
def Beside (tmpPaddr p : PAddr) (i : ℕ) (e : Pte) (flags : Flags) (pt : PtPtr) (j : ℕ)
    (pt' : PtPtr) (s : VmState) : Prop :=
  Fixed tmpPaddr p i e s ∧ Inside tmpPaddr pt' ∧
    ∃ r, Behind pt r s ∧ r ≠ tmpPaddr ∧ (r = p ∧ j = i → reflag e flags = e)

/-- A table that was there. -/
theorem mapPageTmp_beside {j : ℕ} (x : Pte) :
    Triple (fun s => Fixed tmpPaddr p i e s ∧ ∃ r, Behind pt r s ∧ r ≠ tmpPaddr ∧ x = s.mem r j)
      ((kernel tmpPaddr).mapPageTmp (ptePaddr x) vmFlagWritable)
      fun pt' s => Walked tmpPaddr e flags s ∨ Beside tmpPaddr p i e flags pt j pt' s := by
  constructor
  rintro s ⟨hfixed, r, hr, hne, rfl⟩ pt' s' hok
  by_cases htmp : ptePaddr (ptePaddr (s.mem r j)) = tmpPaddr
  · exact .inl (.inl (mapPageTmp_opened hok htmp))
  · obtain ⟨hfixed', hin, -, hbehind⟩ := hfixed.mapPageTmp hok htmp
    by_cases hplace : r = p ∧ j = i → reflag e flags = e
    · exact .inr ⟨hfixed', hin, r, hbehind hr, hne, hplace⟩
    · rw [Classical.not_imp] at hplace
      refine .inl (.inr ⟨mapPageTmp_opened hok ?_, hplace.2⟩)
      rw [hplace.1.1, hplace.1.2, hfixed.entry, ptePaddr_ptePaddr]

/-- A table that is made. -/
theorem createPt_beside (hpres : present e = true) {j : ℕ} {x : Pte} (habs : present x = false) :
    Triple (fun s => Fixed tmpPaddr p i e s ∧ ∃ r, Behind pt r s ∧ r ≠ tmpPaddr ∧ x = s.mem r j)
      (createPt (kernel tmpPaddr) pt j)
      fun pt' s => Walked tmpPaddr e flags s ∨ Beside tmpPaddr p i e flags pt j pt' s := by
  constructor
  rintro s ⟨hfixed, r, hr, hne, rfl⟩ pt' s' hok
  obtain ⟨f, s₁, hreq, hok⟩ := bind_eq_ok_iff.mp hok
  obtain ⟨pt₁, s₂, hmap, hok⟩ := bind_eq_ok_iff.mp hok
  have hplace : ¬ (r = p ∧ j = i) := by
    rintro ⟨rfl, rfl⟩
    rw [hfixed.entry, hpres] at habs
    cases habs
  obtain ⟨hf, hfixed₁, hr₁⟩ : ptePaddr f ≠ p ∧ Fixed tmpPaddr p i e s₁ ∧ Behind pt r s₁ := by
    replace hreq : Kernel.pmRequestPage s = .ok (f, s₁) := hreq
    rw [Kernel.pmRequestPage] at hreq
    split at hreq
    next => cases hreq
    next frames hframes =>
      cases hreq
      refine ⟨hfixed.frames f (by rw [hframes]; exact List.mem_cons_self), ?_, hr⟩
      exact ⟨hfixed.window, hfixed.slots, hfixed.entry, fun g hg =>
        hfixed.frames g (by rw [hframes]; exact List.mem_cons_of_mem f hg)⟩
  by_cases htmp : ptePaddr f = tmpPaddr
  · left
    have hwalked : Walked tmpPaddr e flags s₂ := .inl (mapPageTmp_opened hmap htmp)
    have hkeeps : Keeps (Walked tmpPaddr e flags) (do
        (kernel tmpPaddr).memSet pt₁
        (kernel tmpPaddr).write pt j (setPte f vmFlagWritable)
        return pt₁) :=
      Keeps.bind ((keeps_walked tmpPaddr e flags).memSet pt₁) fun _ =>
        Keeps.bind ((keeps_walked tmpPaddr e flags).write pt j _) fun _ => Keeps.pure _
    exact hkeeps.run s₂ hwalked pt' s' hok
  · right
    obtain ⟨hfixed₂, hin, hbehind, hkept⟩ := hfixed₁.mapPageTmp hmap htmp
    have hr₂ := hkept hr₁
    obtain ⟨_, s₃, hset, hok⟩ := bind_eq_ok_iff.mp hok
    obtain ⟨_, s₄, hwrite, hok⟩ := bind_eq_ok_iff.mp hok
    obtain ⟨rfl, rfl⟩ := pure_eq_ok_iff.mp hok
    obtain ⟨g, s₅, hres, hset⟩ := bind_eq_ok_iff.mp hset
    rw [resolve_eq_ok_iff.mpr ⟨rfl, hbehind⟩] at hres
    cases hres
    rw [if_neg htmp] at hset
    cases hset
    have hfixed₃ : Fixed tmpPaddr p i e { s₂ with mem := s₂.mem.clear (ptePaddr f) } := by
      refine ⟨hfixed₂.window, hfixed₂.slots, ?_, hfixed₂.frames⟩
      show s₂.mem.clear (ptePaddr f) p i = e
      rw [Tables.clear_apply, if_neg hf.symm]
      exact hfixed₂.entry
    obtain ⟨hfixed₄, htmp₄⟩ := hfixed₃.write (hr₂.congr rfl) hne (fun h => absurd h hplace) hwrite
    exact ⟨hfixed₄, hin, r, hr₂.congr htmp₄, hne, fun h => absurd h hplace⟩

/-- The permissions of another entry. -/
theorem updatePtPteFlags_beside {j : ℕ} :
    Triple (Beside tmpPaddr p i e flags pt j pt') (updatePtPteFlags (kernel tmpPaddr) pt j flags)
      fun _ s => Walked tmpPaddr e flags s ∨ Fixed tmpPaddr p i e s ∧ Inside tmpPaddr pt' := by
  constructor
  rintro s ⟨hfixed, hin, r, hr, hne, hplace⟩ _ s' hok
  obtain ⟨x, s₁, hread, hwrite⟩ := bind_eq_ok_iff.mp hok
  obtain ⟨r', s₂, hres, hload⟩ := bind_eq_ok_iff.mp hread
  obtain ⟨rfl, -⟩ := resolve_eq_ok_iff.mp hres
  rw [resolve_eq_ok_iff.mpr ⟨rfl, hr⟩] at hres
  cases hres
  cases hload
  refine .inr ⟨(hfixed.write hr hne (fun heq => ?_) hwrite).1, hin⟩
  rw [Kernel.entryAt, if_neg hne, heq.1, heq.2, hfixed.entry]
  exact hplace heq

/-- A round of `recurse_map` on a leaf table. -/
theorem mapLeaf_passes (hpres : present e = true) (hin : Inside tmpPaddr pt) (v : MapVars) :
    Keeps (Passes tmpPaddr p i e flags) (mapLeaf (kernel tmpPaddr) flags pt v) := by
  have hkeeps : Keeps (Walked tmpPaddr e flags) (mapLeaf (kernel tmpPaddr) flags pt v) :=
    keeps_mapLeaf (keeps_walked tmpPaddr e flags) flags pt v
  apply walked_or (Q := fun _ => Fixed tmpPaddr p i e) hkeeps
  apply Triple.ite
  · intro _
    constructor
    intro s hfixed a s' hok
    obtain ⟨x, s₁, hread, hok⟩ := bind_eq_ok_iff.mp hok
    obtain ⟨rfl, r, hr, hne, rfl⟩ := hfixed.read hin hread
    split at hok
    next => exact .inr ((pure_eq_ok_iff.mp hok).2 ▸ hfixed)
    next habs =>
      obtain ⟨_, s₂, hwrite, hok⟩ := bind_eq_ok_iff.mp hok
      have hplace : ¬ (r = p ∧ v.i = i) := by
        rintro ⟨rfl, rfl⟩
        rw [hfixed.entry] at habs
        exact habs hpres
      rw [(pure_eq_ok_iff.mp hok).2]
      exact .inr (hfixed.write hr hne (fun h => absurd h hplace) hwrite).1
  · exact fun _ => Triple.pure fun s hs => .inr hs

/-- A round above the leaf tables. -/
theorem mapInner_passes (hpres : present e = true) (hin : Inside tmpPaddr pt)
    {child : PtPtr → PAddr → ℕ → Prog Fault VmState (Status × MapVars)}
    (hkeeps : ∀ pt paddr pages, Keeps (Walked tmpPaddr e flags) (child pt paddr pages))
    (hchild : ∀ pt paddr pages, Inside tmpPaddr pt →
      Keeps (Passes tmpPaddr p i e flags) (child pt paddr pages)) (v : MapVars) :
    Keeps (Passes tmpPaddr p i e flags) (mapInner (kernel tmpPaddr) child flags pt v) := by
  have hK := keeps_walked tmpPaddr e flags
  apply walked_or (Q := fun _ => Fixed tmpPaddr p i e) (keeps_mapInner hK hkeeps flags pt v)
  apply Triple.ite _ fun _ => Triple.pure fun s hs => .inr hs
  intro _
  apply Triple.bind (Q := fun x s => Fixed tmpPaddr p i e s ∧
    ∃ r, Behind pt r s ∧ r ≠ tmpPaddr ∧ x = s.mem r v.i)
  · constructor
    intro s hfixed x s' hok
    obtain ⟨rfl, hr⟩ := hfixed.read hin hok
    exact ⟨hfixed, hr⟩
  · intro x
    apply Triple.bind (Q := fun pt' s => Walked tmpPaddr e flags s ∨
      Beside tmpPaddr p i e flags pt v.i pt' s)
    · apply Triple.ite
      · exact fun _ => mapPageTmp_beside x
      · exact fun habs => createPt_beside hpres (Bool.not_eq_true _ ▸ habs)
    · intro pt'
      apply Triple.bind (Q := fun _ s => Walked tmpPaddr e flags s ∨
        Fixed tmpPaddr p i e s ∧ Inside tmpPaddr pt')
      · exact walked_or (keeps_updatePtPteFlags hK pt v.i flags) updatePtPteFlags_beside
      · intro _
        apply Triple.bind (Q := fun _ => Passes tmpPaddr p i e flags)
        · constructor
          rintro s (hs | ⟨hfixed, hin'⟩) a s' hok
          · exact .inl ((hkeeps pt' v.paddr v.pages).run s hs a s' hok)
          · exact (hchild pt' v.paddr v.pages hin').run s (.inr hfixed) a s' hok
        · rintro ⟨res, w⟩
          apply Keeps.bind _ fun _ => Keeps.pure _
          apply walked_or (Q := fun _ => Fixed tmpPaddr p i e) (hK.unmapPageTmp pt')
          constructor
          intro s hfixed _ s' hok
          exact .inr (hfixed.unmapPageTmp hok)

theorem recurseMap_passes (hpres : present e = true) (height : ℕ) (index : List ℕ)
    (hin : Inside tmpPaddr pt) (paddr : PAddr) (pages : ℕ) :
    Keeps (Passes tmpPaddr p i e flags)
      (recurseMap (kernel tmpPaddr) flags height index pt paddr pages) := by
  induction height generalizing index pt paddr pages with
  | zero => exact Keeps.rounds (mapLeaf_passes hpres hin) (fun _ => Keeps.pure _) ..
  | succ height ih =>
    apply Keeps.rounds _ fun _ => Keeps.pure _
    exact mapInner_passes hpres hin
      (fun pt paddr pages => keeps_recurseMap (keeps_walked tmpPaddr e flags) flags height
        index.tail pt
        paddr pages)
      fun pt paddr pages hin => ih index.tail hin paddr pages

/-- The search opens and closes tables. -/
theorem lookKeeps_passes : (kernel tmpPaddr).LookKeeps (Passes tmpPaddr p i e flags) where
  read pt j := by
    apply walked_or (Q := fun _ => Fixed tmpPaddr p i e) ((keeps_walked tmpPaddr e flags).read pt j)
    constructor
    intro s hfixed x s' hok
    obtain ⟨r, s₁, hres, hload⟩ := bind_eq_ok_iff.mp hok
    obtain ⟨rfl, -⟩ := resolve_eq_ok_iff.mp hres
    cases hload
    exact .inr hfixed
  mapPageTmp paddr tmpFlags := by
    apply walked_or (Q := fun _ => Fixed tmpPaddr p i e)
      ((keeps_walked tmpPaddr e flags).mapPageTmp paddr tmpFlags)
    constructor
    intro s hfixed pt' s' hok
    by_cases htmp : ptePaddr paddr = tmpPaddr
    · exact .inl (.inl (mapPageTmp_opened hok htmp))
    · exact .inr (hfixed.mapPageTmp hok htmp).1
  unmapPageTmp pt := by
    apply walked_or (Q := fun _ => Fixed tmpPaddr p i e)
      ((keeps_walked tmpPaddr e flags).unmapPageTmp pt)
    constructor
    intro s hfixed _ s' hok
    exact .inr (hfixed.unmapPageTmp hok)

/-- **Mapping leaves an entry as it is** whose table it does not walk, or whose permissions it
asks for. -/
theorem vmMapPages_passes (hpres : present e = true) (fuel : ℕ) {root : PAddr}
    (hroot : root ≠ tmpPaddr) (paddrStart : PAddr) (pages vaddrHint : ℕ) :
    Keeps (Passes tmpPaddr p i e flags)
      (vmMapPages (kernel tmpPaddr) fuel (.table root) paddrStart pages vaddrHint flags) := by
  apply Keeps.bind (keeps_check _ _)
  intro _
  apply Keeps.bind (keeps_check _ _)
  intro _
  apply Keeps.bind (keeps_check _ _)
  intro _
  apply Keeps.bind (keeps_findSpace lookKeeps_passes fuel paddrStart pages flags 3 _ _)
  rintro ⟨res, index⟩
  apply Keeps.ite (Keeps.pure _)
  apply Keeps.bind (recurseMap_passes hpres 3 index
    (show Inside tmpPaddr (.table root) from hroot) paddrStart pages)
  exact fun _ => Keeps.ite (Keeps.pure _) (Keeps.pure _)

end Passing

/-! ## The calls on the kernel's table -/

/-- The calls with the prefix `vmk_`. -/
inductive VmkCall where
  | mapPages (fuel : ℕ) (paddrStart : PAddr) (pages vaddrHint : ℕ) (flags : Flags)
  | unmapPages (vaddrStart pages : ℕ)
  | setBacking (vaddr : ℕ) (paddr : PAddr)
  | flagPages (vaddrStart pages : ℕ) (flags : Flags)

/-- The call, with its result thrown away. -/
def VmkCall.run {σ π : Type} (M : Machine σ π) (layoutVaddrEnd : ℕ) (kpml4 : π) :
    VmkCall → Prog Fault σ Unit
  | .mapPages fuel paddrStart pages vaddrHint flags => do
    let _ ← vmkMapPages M fuel layoutVaddrEnd kpml4 paddrStart pages vaddrHint flags
    return ()
  | .unmapPages vaddrStart pages => do
    let _ ← vmkUnmapPages M kpml4 vaddrStart pages
    return ()
  | .setBacking vaddr paddr => do
    let _ ← vmkSetBacking M kpml4 vaddr paddr
    return ()
  | .flagPages vaddrStart pages flags => do
    let _ ← vmkFlagPages M kpml4 vaddrStart pages flags
    return ()

/-- The call of the general function that it makes. -/
def VmkCall.vm (layoutVaddrEnd : ℕ) : VmkCall → VmCall
  | .mapPages fuel paddrStart pages vaddrHint flags =>
    .mapPages fuel paddrStart pages (if vaddrHint = 0 then layoutVaddrEnd else vaddrHint) flags
  | .unmapPages vaddrStart pages => .unmapPages vaddrStart pages
  | .setBacking vaddr paddr => .setBacking vaddr paddr
  | .flagPages vaddrStart pages flags => .flagPages vaddrStart pages flags

/-- The state after a call. -/
def vmkStep (tmpPaddr kpml4 : PAddr) (layoutVaddrEnd : ℕ) (s : VmState) (c : VmkCall) :
    Except Fault VmState :=
  (call kpml4 (c.run (kernel tmpPaddr) layoutVaddrEnd (.table kpml4)) s).map Prod.snd

section Window

variable {tmpPaddr kpml4 : PAddr} {layoutVaddrEnd : ℕ} {s s' s₀ : VmState} {pt : PAddr}

/-- When the assertions hold, a call does what the general function does. -/
theorem vm_of_vmkStep {c : VmkCall} (hok : vmkStep tmpPaddr kpml4 layoutVaddrEnd s c = .ok s') :
    call kpml4 ((c.vm layoutVaddrEnd).run (kernel tmpPaddr) (.table kpml4)) s = .ok ((), s') := by
  have hcall : call kpml4 (c.run (kernel tmpPaddr) layoutVaddrEnd (.table kpml4)) s =
      .ok ((), s') := by
    rw [vmkStep] at hok
    cases hrun : call kpml4 (c.run (kernel tmpPaddr) layoutVaddrEnd (.table kpml4)) s with
    | error f =>
      rw [hrun] at hok
      cases hok
    | ok r =>
      rw [hrun] at hok
      cases hok
      rfl
  cases c with
  | mapPages fuel paddrStart pages vaddrHint flags =>
    obtain ⟨r, s₁, hr, hpure⟩ := bind_eq_ok_iff.mp hcall
    obtain ⟨_, s₂, hcheck, hr⟩ := bind_eq_ok_iff.mp hr
    obtain ⟨-, rfl⟩ := check_eq_ok_iff.mp hcheck
    obtain ⟨hint, s₃, hhint, hr⟩ := bind_eq_ok_iff.mp hr
    have hsame : s₃ = { s with opened := [kpml4] } ∧
        hint = if vaddrHint = 0 then layoutVaddrEnd else vaddrHint := by
      rw [kernelHint] at hhint
      split at hhint
      next hzero =>
        obtain ⟨rfl, rfl⟩ := pure_eq_ok_iff.mp hhint
        exact ⟨rfl, (if_pos hzero).symm⟩
      next hne =>
        obtain ⟨_, s₄, hcheck, hhint⟩ := bind_eq_ok_iff.mp hhint
        obtain ⟨-, rfl⟩ := check_eq_ok_iff.mp hcheck
        obtain ⟨rfl, rfl⟩ := pure_eq_ok_iff.mp hhint
        exact ⟨rfl, (if_neg hne).symm⟩
    obtain ⟨rfl, rfl⟩ := hsame
    exact bind_eq_ok_iff.mpr ⟨r, s₁, hr, hpure⟩
  | unmapPages vaddrStart pages =>
    obtain ⟨r, s₁, hr, hpure⟩ := bind_eq_ok_iff.mp hcall
    obtain ⟨_, s₂, hcheck, hr⟩ := bind_eq_ok_iff.mp hr
    obtain ⟨-, rfl⟩ := check_eq_ok_iff.mp hcheck
    exact bind_eq_ok_iff.mpr ⟨r, s₁, hr, hpure⟩
  | setBacking vaddr paddr => exact hcall
  | flagPages vaddrStart pages flags =>
    obtain ⟨r, s₁, hr, hpure⟩ := bind_eq_ok_iff.mp hcall
    obtain ⟨_, s₂, hcheck, hr⟩ := bind_eq_ok_iff.mp hr
    obtain ⟨-, rfl⟩ := check_eq_ok_iff.mp hcheck
    obtain ⟨_, s₃, hcheck, hr⟩ := bind_eq_ok_iff.mp hr
    obtain ⟨-, rfl⟩ := check_eq_ok_iff.mp hcheck
    exact bind_eq_ok_iff.mpr ⟨r, s₁, hr, hpure⟩

/-! ### The entries on the way to the window -/

/-- The places of the entries of the kernel's table on the way to `tmp_pt` as a leaf table. -/
def windowSlots (tmpPaddr kpml4 : PAddr) (s : VmState) : List (PAddr × ℕ) :=
  pageTables.slots (s.tables tmpPaddr) kpml4 (indices ptTmpStartVaddr).dropLast

/-- The window is as it was: the entries of `tmp_pt` and those on the way to it. -/
def WindowKept (tmpPaddr kpml4 : PAddr) (s s' : VmState) : Prop :=
  s'.tmpPt = s.tmpPt ∧ ∀ slot ∈ windowSlots tmpPaddr kpml4 s,
    s'.tables tmpPaddr slot.1 slot.2 = s.tables tmpPaddr slot.1 slot.2

/-- The way to the window is the same. -/
theorem WindowKept.slots_eq (h : WindowKept tmpPaddr kpml4 s s') :
    windowSlots tmpPaddr kpml4 s' = windowSlots tmpPaddr kpml4 s := (Radix.leaf_congr h.2).1

theorem WindowKept.trans (h : WindowKept tmpPaddr kpml4 s₀ s)
    (h' : WindowKept tmpPaddr kpml4 s s') : WindowKept tmpPaddr kpml4 s₀ s' :=
  ⟨h'.1.trans h.1, fun slot hslot =>
    (h'.2 slot (h.slots_eq ▸ hslot)).trans (h.2 slot hslot)⟩

/-- A call asks for the permissions of an entry that it passes. -/
def PassesSame (tmpPaddr kpml4 : PAddr) (s : VmState) (slot : PAddr × ℕ) : VmCall → Prop
  | .mapPages fuel paddrStart pages vaddrHint flags =>
    reflag (s.tables tmpPaddr slot.1 slot.2) flags = s.tables tmpPaddr slot.1 slot.2 ∨
      ∀ s', call kpml4 ((VmCall.mapPages fuel paddrStart pages vaddrHint flags).run
        (kernel tmpPaddr) (.table kpml4)) s = .ok ((), s') →
        ptePaddr (s.tables tmpPaddr slot.1 slot.2) ∉ s'.opened
  | .flagPages vaddr pages flags => InnerOf (s.tables tmpPaddr) kpml4
      (reached (s.tables tmpPaddr) kpml4 ((Radix.box 512 (indices vaddr)).take pages)) slot →
    reflag (s.tables tmpPaddr slot.1 slot.2) flags = s.tables tmpPaddr slot.1 slot.2
  | _ => True

/-- The call does not come to `tmp_pt`, and asks for the permissions of the entries on the way to
it that it passes. -/
structure KeepsWindow (tmpPaddr kpml4 : PAddr) (s : VmState) (c : VmCall) : Prop where
  inRange : c.InRange
  staysOut : StaysOut tmpPaddr kpml4 s c
  passes : ∀ slot ∈ windowSlots tmpPaddr kpml4 s, PassesSame tmpPaddr kpml4 s slot c

/-- What is kept from call to call. -/
structure Reserved (tmpPaddr kpml4 : PAddr) (s₀ s : VmState) : Prop where
  window : WindowOk s.tmpPt s.firstFreeTmpIndex
  onlySelf : OnlySelf tmpPaddr s.tmpPt
  ordered : Ordered tmpPaddr s.tmpPt kpml4 s.mem s.frames
  present : ∀ slot ∈ windowSlots tmpPaddr kpml4 s, present (s.tables tmpPaddr slot.1 slot.2) = true
  kept : WindowKept tmpPaddr kpml4 s₀ s

/-- The entries of other tables on the way to the window are above the leaf tables. -/
theorem level_of_windowSlots {slot : PAddr × ℕ} (h : slot ∈ windowSlots tmpPaddr kpml4 s) :
    ∃ n < 3, TableAt tmpPaddr s.tmpPt kpml4 s.mem n slot.1 := by
  obtain ⟨m, -, hm, hat, -⟩ := Radix.At.root.slots
    (fun i hi => indices_lt (List.mem_of_mem_dropLast hi)) h
  exact ⟨m, by simpa using hm, hat⟩

/-- One call. -/
theorem Reserved.step {c : VmkCall} (h : Reserved tmpPaddr kpml4 s₀ s)
    (hguard : KeepsWindow tmpPaddr kpml4 s (c.vm layoutVaddrEnd))
    (hok : vmkStep tmpPaddr kpml4 layoutVaddrEnd s c = .ok s') :
    Reserved tmpPaddr kpml4 s₀ s' := by
  have hcall := vm_of_vmkStep hok
  -- it is enough that the window is in order and as before
  have hfinish : WindowOk s'.tmpPt s'.firstFreeTmpIndex →
      Ordered tmpPaddr s'.tmpPt kpml4 s'.mem s'.frames → s'.tmpPt = s.tmpPt →
      (∀ slot ∈ windowSlots tmpPaddr kpml4 s, slot.1 ≠ tmpPaddr →
        s'.mem slot.1 slot.2 = s.mem slot.1 slot.2) → Reserved tmpPaddr kpml4 s₀ s' := by
    intro hwin hordered hpt hmem
    have hkept : WindowKept tmpPaddr kpml4 s s' := by
      refine ⟨hpt, fun slot hslot => ?_⟩
      rw [VmState.tables, VmState.tables, hpt]
      by_cases hne : slot.1 = tmpPaddr
      · rw [hne, view_self, view_self]
      · rw [view_of_ne hne, view_of_ne hne, hmem slot hslot hne]
    refine ⟨hwin, ?_, hordered, fun slot hslot => ?_, h.kept.trans hkept⟩
    · rw [hpt]
      exact h.onlySelf
    · rw [hkept.slots_eq] at hslot
      rw [hkept.2 slot hslot]
      exact h.present slot hslot
  have hleaf : ∀ {places}, LeafCall tmpPaddr kpml4 s s' places →
      Reserved tmpPaddr kpml4 s₀ s' := by
    intro places hcall
    refine hfinish (hcall.window h.window) (hcall.ordered h.ordered) hcall.tmpPt_eq
      fun slot hslot hne => ?_
    obtain ⟨n, hn, hat⟩ := level_of_windowSlots hslot
    have hview := hcall.stores.upper h.ordered hn hat slot.2
    rwa [view_of_ne hne, view_of_ne hne] at hview
  obtain ⟨hrange, hout, hpasses⟩ := hguard
  cases c with
  | mapPages fuel paddrStart pages vaddrHint flags =>
    have hclear := hout s' hcall
    obtain ⟨r, hr⟩ := call_map_ok hcall
    obtain ⟨hroot, -⟩ := vmMapPages_flat h.window hr hclear
    obtain ⟨t, hleaves, hgrown⟩ := grown_of_call h.window h.ordered hr hclear
    refine hfinish (hleaves.window h.window) (hleaves.ordered hgrown.ordered) hleaves.tmpPt_eq
      fun slot hslot hne => ?_
    obtain ⟨n, hn, hat⟩ := level_of_windowSlots hslot
    have hview : s.tables tmpPaddr slot.1 slot.2 = s.mem slot.1 slot.2 := by
      rw [VmState.tables, view_of_ne hne]
    have hpres := h.present slot hslot
    rw [hview] at hpres
    have hfixed : Fixed tmpPaddr slot.1 slot.2 (s.mem slot.1 slot.2)
        { s with opened := [kpml4] } := by
      refine ⟨h.window, fun j hj hpres => ?_, rfl, fun f hf heq => ?_⟩
      · rw [h.onlySelf.1 j hj, present_zero] at hpres
        cases hpres
      · rw [h.ordered.aligned f hf] at heq
        exact h.ordered.noTable f hf n (by omega) (heq ▸ hat)
    rcases (vmMapPages_passes hpres fuel hroot paddrStart pages _).run _ (.inr hfixed) r s' hr with
      (htmp | ⟨hopened, hdiff⟩) | hfixed'
    · exact absurd htmp hclear
    · rcases hpasses slot hslot with hsame | hnot
      · rw [hview] at hsame
        exact absurd hsame hdiff
      · rw [hview] at hnot
        exact absurd hopened (hnot s' hcall)
    · exact hfixed'.entry
  | unmapPages vaddrStart pages =>
    obtain ⟨r, hr⟩ := call_map_ok hcall
    rcases unmapPages_of_call h.window hr hrange (hout s' hcall) with
      hcall' | ⟨_, _, _, -, hcall', -⟩
    · exact hleaf hcall'
    · exact hleaf hcall'
  | setBacking vaddr paddr =>
    obtain ⟨r, hr⟩ := call_map_ok hcall
    rcases setBacking_of_call h.window hr (hout s' hcall) with hcall' | ⟨_, -, -, -, hcall'⟩
    · exact hleaf hcall'
    · exact hleaf hcall'
  | flagPages vaddrStart pages flags =>
    obtain ⟨r, hr⟩ := call_map_ok hcall
    obtain ⟨hroot, havoid⟩ := hout
    have heff := flag_of_call h.window hroot (h.ordered.flagPre hroot havoid) hr
    refine hfinish ?_ (heff.ordered h.ordered) heff.tmpPt_eq fun slot hslot hne => ?_
    · rw [heff.tmpPt_eq, heff.first_eq]
      exact h.window
    · obtain ⟨n, hn, hat⟩ := level_of_windowSlots hslot
      have hview : ∀ s : VmState, s.tables tmpPaddr slot.1 slot.2 =
        s.mem slot.1 slot.2 := fun s => by
        rw [VmState.tables, view_of_ne hne]
      rw [← hview, ← hview]
      by_cases hinner : InnerOf (s.tables tmpPaddr) kpml4
          (reached (s.tables tmpPaddr) kpml4 ((Radix.box 512 (indices vaddrStart)).take pages)) slot
      · rw [heff.flagged.onInner slot hinner]
        exact hpasses slot hslot hinner
      · apply heff.flagged.other slot hinner
        rintro ⟨path, hpath, hleafSlot, -⟩
        obtain ⟨hlen, hidx⟩ := path_of_mem_reached hpath
        have hat' := (Radix.At.root.leafSlot hidx hleafSlot).1
        rw [hlen] at hat'
        have := h.ordered.oneLevel slot.1 hne n (by omega) 3 le_rfl hat hat'
        omega

/-! ### The state that `vm_init` leaves -/

/-- The tables after a store. -/
theorem tables_setEntry (q : PAddr) (i j : ℕ) (e : Pte) :
    (Kernel.setEntry tmpPaddr s pt i e).tables tmpPaddr q j =
      if q = pt ∧ j = i then e else s.tables tmpPaddr q j := by
  rw [VmState.tables, VmState.tables, Kernel.setEntry]
  split
  next htmp =>
    by_cases hq : q = tmpPaddr
    · rw [hq, view_self, view_self, htmp]
      show Function.update s.tmpPt i e j = _
      rw [Function.update_apply]
      simp only [true_and]
    · rw [view_of_ne hq, view_of_ne hq, if_neg fun h => hq (h.1.trans htmp)]
  next htmp => rw [view_set htmp, Tables.set_apply]

/-- A round of the loop of `vm_init` keeps what is present. -/
theorem tables_linkTmpPt (h : OnlySelf tmpPaddr s.tmpPt) (pt : PAddr) {q : PAddr} {j : ℕ}
    (hpres : present (s.tables tmpPaddr q j) = true) :
    (linkTmpPt tmpPaddr s pt 511).1.tables tmpPaddr q j = s.tables tmpPaddr q j := by
  rw [linkTmpPt]
  split
  next => rfl
  next hlink =>
    show (Kernel.setEntry _ _ _ _ _).tables tmpPaddr q j = _
    rw [tables_setEntry]
    split
    next hplace =>
      obtain ⟨rfl, rfl⟩ := hplace
      -- then `q` is `tmp_pt`, with its own entry
      have htmp : q = tmpPaddr := by
        have hentry : present (Kernel.entryAt tmpPaddr s q 511) = true := hpres
        rw [hentry, Bool.true_and, bne_iff_ne, not_not] at hlink
        exact hlink
      rw [htmp, VmState.tables, view_self] at hpres ⊢
      rcases h.2 with hzero | hself
      · rw [hzero, present_zero] at hpres
        cases hpres
      · exact hself.symm
    next => rfl

/-- And its entry leads on. -/
theorem entry_linkTmpPt (hal : ptePaddr tmpPaddr = tmpPaddr) (s : VmState) (pt : PAddr) :
    present ((linkTmpPt tmpPaddr s pt 511).1.tables tmpPaddr pt 511) = true ∧
      ptePaddr ((linkTmpPt tmpPaddr s pt 511).1.tables tmpPaddr pt 511) =
        (linkTmpPt tmpPaddr s pt 511).2 := by
  rw [linkTmpPt]
  split
  next hgo =>
    rw [Bool.and_eq_true] at hgo
    exact ⟨hgo.1, rfl⟩
  next =>
    show present ((Kernel.setEntry _ _ _ _ _).tables tmpPaddr pt 511) = true ∧
      ptePaddr ((Kernel.setEntry _ _ _ _ _).tables tmpPaddr pt 511) = tmpPaddr
    rw [tables_setEntry, if_pos ⟨rfl, rfl⟩, present_setPte, ptePaddr_setPte]
    exact ⟨rfl, hal⟩

/-- The first rounds of the loop of `vm_init`. -/
def linkRounds (tmpPaddr : PAddr) : ℕ → VmState × PAddr → VmState × PAddr
  | 0, r => r
  | n + 1, r => linkRounds tmpPaddr n (linkTmpPt tmpPaddr r.1 r.2 511)

/-- `vm_init` makes three of them. -/
theorem vmInit_eq (s : VmState) (kpml4 : PAddr) :
    vmInit tmpPaddr kpml4 s =
      { (linkRounds tmpPaddr 3 ({ s with tmpPt := fun _ => 0#64 }, kpml4)).1 with
        firstFreeTmpIndex := firstFreeTmp
          (linkRounds tmpPaddr 3 ({ s with tmpPt := fun _ => 0#64 }, kpml4)).1.tmpPt
          ptLength 0 } := by
  have hindices : (indices ptTmpStartVaddr).take (ptNumLevels - 1) = [511, 511, 511] := by decide
  rw [vmInit, hindices]
  rfl

/-- What is present stays, and the way of the rounds is present. -/
theorem slots_linkRounds (hal : ptePaddr tmpPaddr = tmpPaddr) (n : ℕ) (r : VmState × PAddr)
    (h : OnlySelf tmpPaddr r.1.tmpPt) :
    (∀ q j, present (r.1.tables tmpPaddr q j) = true →
      (linkRounds tmpPaddr n r).1.tables tmpPaddr q j = r.1.tables tmpPaddr q j) ∧
    ∀ slot ∈ pageTables.slots ((linkRounds tmpPaddr n r).1.tables tmpPaddr) r.2
      (List.replicate n 511),
      present ((linkRounds tmpPaddr n r).1.tables tmpPaddr slot.1 slot.2) = true := by
  induction n generalizing r with
  | zero => exact ⟨fun _ _ _ => rfl, fun _ hslot => absurd hslot List.not_mem_nil⟩
  | succ n ih =>
    obtain ⟨hpres, hnext⟩ := entry_linkTmpPt hal r.1 r.2
    obtain ⟨hkept, hslots⟩ := ih (linkTmpPt tmpPaddr r.1 r.2 511) (h.linkTmpPt r.2)
    have hentry := hkept r.2 511 hpres
    rw [← hentry] at hpres hnext
    refine ⟨fun q j hq => ?_, fun slot hslot => ?_⟩
    · have hq' := tables_linkTmpPt h r.2 hq
      exact (hkept q j (by rw [hq']; exact hq)).trans hq'
    · rw [List.replicate_succ, Radix.slots] at hslot
      rcases List.mem_cons.mp hslot with rfl | hslot
      · exact hpres
      · have hgo : pageTables.present
          ((linkRounds tmpPaddr n (linkTmpPt tmpPaddr r.1 r.2 511)).1.tables
            tmpPaddr r.2 511) = true := hpres
        rw [linkRounds, if_pos hgo] at hslot
        apply hslots slot
        rw [← hnext]
        exact hslot

/-- **`vm_init` leads the kernel's table to the window.** -/
theorem present_vmInit (hal : ptePaddr tmpPaddr = tmpPaddr) (s : VmState) :
    ∀ slot ∈ windowSlots tmpPaddr kpml4 (vmInit tmpPaddr kpml4 s),
      present ((vmInit tmpPaddr kpml4 s).tables tmpPaddr slot.1 slot.2) = true := by
  have hpath : (indices ptTmpStartVaddr).dropLast = List.replicate 3 511 := by decide
  rw [windowSlots, hpath, vmInit_eq]
  exact (slots_linkRounds hal 3 ({ s with tmpPt := fun _ => 0#64 }, kpml4)
    ⟨fun _ _ => rfl, .inl rfl⟩).2

/-- **The window is reserved.**  In runs from the state that `vm_init` leaves in which no call comes
to `tmp_pt`, and the calls of `vmk_map_pages` and `vmk_flag_pages` that pass an entry on the way
to it ask for the permissions that it has, the window stays as it was. -/
theorem window_of_run {es : List VmkCall} (hal : ptePaddr tmpPaddr = tmpPaddr)
    (hordered : Ordered tmpPaddr (vmInit tmpPaddr kpml4 s).tmpPt kpml4
      (vmInit tmpPaddr kpml4 s).mem (vmInit tmpPaddr kpml4 s).frames)
    (hrun : GuardedRun.Run (vmkStep tmpPaddr kpml4 layoutVaddrEnd)
      (fun s c => KeepsWindow tmpPaddr kpml4 s (c.vm layoutVaddrEnd))
      (vmInit tmpPaddr kpml4 s) es s') :
    WindowKept tmpPaddr kpml4 (vmInit tmpPaddr kpml4 s) s' :=
  (hrun.invariant (I := Reserved tmpPaddr kpml4 (vmInit tmpPaddr kpml4 s))
    (fun _ _ _ h hguard hok => h.step hguard hok)
    ⟨(window_vmInit s kpml4).1, (onlySelf_vmInit s kpml4).1, hordered, present_vmInit hal s, rfl,
      fun _ _ => rfl⟩).kept

end Window

/-- Tables that lead to the window already: `vm_init` enters `tmp_pt` in itself. -/
theorem vmInit_sparse {entries : List Placed} (frames : List PAddr)
    (hroot : sparseTables entries 0x1000#64 511 = 0x5003#64)
    (hnext : sparseTables entries 0x5000#64 511 = setPte 0x8000#64 vmFlagWritable) :
    vmInit 0x8000#64 0x1000#64 (sparseState entries frames) = sparseState entries frames := by
  have hgo : ∀ {s : VmState} {p q : PAddr} {e : Pte}, s.mem p 511 = e → p ≠ 0x8000#64 →
      present e = true → ptePaddr e = q → linkTmpPt 0x8000#64 s p 511 = (s, q) := by
    rintro s p q e he hp hpres rfl
    rw [linkTmpPt, Kernel.entryAt, if_neg hp, he, hpres, Bool.true_and,
      if_pos (bne_iff_ne.mpr hp)]
  have hrounds : ∀ s : VmState, s.mem = sparseTables entries →
      linkRounds 0x8000#64 3 (s, 0x1000#64) =
        ({ s with tmpPt := Function.update s.tmpPt 511 (setPte 0x8000#64 vmFlagWritable) },
          0x8000#64) := by
    intro s hs
    rw [← hs] at hroot hnext
    have hstay : ¬ (present (Kernel.entryAt 0x8000#64 s 0x8000#64 511) &&
        (0x8000#64 : PAddr) != 0x8000#64) = true := by
      rw [bne_self_eq_false, Bool.and_false]
      exact Bool.false_ne_true
    rw [linkRounds, hgo hroot (by decide) (by decide) (by decide : _ = 0x5000#64), linkRounds,
      hgo hnext (by decide) (by decide) (by decide : _ = 0x8000#64), linkRounds, linkTmpPt,
      if_neg hstay, Kernel.setEntry, if_pos rfl]
    rfl
  have htmp : Function.update (fun _ => 0#64) 511 (setPte 0x8000#64 vmFlagWritable) =
      (sparseState entries frames).tmpPt := by
    funext i
    rw [Function.update_apply]
    rfl
  have hfirst : firstFreeTmp (sparseState entries frames).tmpPt ptLength 0 = 0 := by
    have hzero : present ((sparseState entries frames).tmpPt 0) = false := present_zero
    rw [ptLength, firstFreeTmp, hzero]
    rfl
  rw [vmInit_eq, hrounds _ rfl, htmp, hfirst]
  rfl

/-- The tables of a kernel with two pages mapped at 0 lead to the window. -/
theorem vmInit_kernel (frames : List PAddr) :
    vmInit 0x8000#64 0x1000#64 (sparseState kernelEntries frames) =
      sparseState kernelEntries frames :=
  vmInit_sparse frames (by decide +kernel) (by decide +kernel)

/-- The same kernel with tables for the first pages of its half, where the heap lies. -/
def heapEntries : List Placed :=
  kernelEntries ++
    [(0x1000#64, 256, 0x9003#64), (0x9000#64, 0, 0xa003#64), (0xa000#64, 0, 0xb003#64)]

/-- They lead to the window as well. -/
theorem vmInit_heap (frames : List PAddr) :
    vmInit 0x8000#64 0x1000#64 (sparseState heapEntries frames) = sparseState heapEntries frames :=
  vmInit_sparse frames (by decide +kernel) (by decide +kernel)

/-- The tables are in order. -/
theorem ordered_heap : Ordered 0x8000#64
    (vmInit 0x8000#64 0x1000#64 (sparseState heapEntries [])).tmpPt 0x1000#64
    (vmInit 0x8000#64 0x1000#64 (sparseState heapEntries [])).mem [] := by
  rw [vmInit_heap]
  exact ordered_window (by decide +kernel) (by decide +kernel) (List.forall_mem_nil _)
    (fun _ _ => List.not_mem_nil) List.nodup_nil

/-- A page is mapped at the start of the kernel's half. -/
theorem window_of_run_heap :
    ∃ s', GuardedRun.Run (vmkStep 0x8000#64 0x1000#64 0xffffffff80100000)
        (fun s c => KeepsWindow 0x8000#64 0x1000#64 s (c.vm 0xffffffff80100000))
        (vmInit 0x8000#64 0x1000#64 (sparseState heapEntries []))
        [.mapPages 2 0x6000#64 1 0xffff800000000000 0] s' ∧
      WindowKept 0x8000#64 0x1000#64 (vmInit 0x8000#64 0x1000#64 (sparseState heapEntries []))
        s' := by
  have htest : (vmkStep 0x8000#64 0x1000#64 0xffffffff80100000 (sparseState heapEntries [])
      (.mapPages 2 0x6000#64 1 0xffff800000000000 0)).toOption.any
      (fun s' => decide (0x8000#64 ∉ s'.opened ∧ 0x5000#64 ∉ s'.opened)) = true := by
    decide +kernel
  obtain ⟨s', hok, htest⟩ := Except.exists_of_any htest
  obtain ⟨htmp, hnext⟩ := of_decide_eq_true htest
  have hcall := vm_of_vmkStep hok
  have hrun : GuardedRun.Run (vmkStep 0x8000#64 0x1000#64 0xffffffff80100000)
      (fun s c => KeepsWindow 0x8000#64 0x1000#64 s (c.vm 0xffffffff80100000))
      (vmInit 0x8000#64 0x1000#64 (sparseState heapEntries []))
      [.mapPages 2 0x6000#64 1 0xffff800000000000 0] s' := by
    rw [vmInit_heap]
    refine .cons ⟨trivial, fun s₁ hs₁ => ?_, fun slot hslot => .inr fun s₁ hs₁ => ?_⟩ hok (.nil s')
    · cases hcall.symm.trans hs₁
      exact htmp
    · cases hcall.symm.trans hs₁
      have hslots : windowSlots 0x8000#64 0x1000#64 (sparseState heapEntries []) =
          [(0x1000#64, 511), (0x5000#64, 511), (0x8000#64, 511)] := by
        decide +kernel
      have hnexts : ∀ slot ∈ [((0x1000#64 : PAddr), 511), (0x5000#64, 511), (0x8000#64, 511)],
          ptePaddr ((sparseState heapEntries []).tables 0x8000#64 slot.1 slot.2) = 0x5000#64 ∨
          ptePaddr ((sparseState heapEntries []).tables 0x8000#64 slot.1 slot.2) = 0x8000#64 := by
        decide +kernel
      rw [hslots] at hslot
      rcases hnexts slot hslot with heq | heq
      · rw [heq]
        exact hnext
      · rw [heq]
        exact htmp
  exact ⟨s', hrun, window_of_run (by decide) ordered_heap hrun⟩

/-- The last kernel page is the entry of `tmp_pt` to itself. -/
theorem not_window_of_run_last :
    ∃ s', GuardedRun.Run (vmkStep 0x8000#64 0x1000#64 0xffffffff80100000) (fun _ _ => True)
        (vmInit 0x8000#64 0x1000#64 (sparseState kernelEntries []))
        [.unmapPages 0xfffffffffffff000 1] s' ∧
      ¬ WindowKept 0x8000#64 0x1000#64
        (vmInit 0x8000#64 0x1000#64 (sparseState kernelEntries [])) s' := by
  rw [vmInit_kernel]
  obtain ⟨s', hrun, htest⟩ : ∃ s', GuardedRun.Run (vmkStep 0x8000#64 0x1000#64 0xffffffff80100000)
      (fun _ _ => True) (sparseState kernelEntries []) [.unmapPages 0xfffffffffffff000 1] s' ∧
      decide (s'.tmpPt 511 = 0#64) = true :=
    GuardedRun.Run.exists_of_exec _ (fun _ _ _ => trivial) (by decide +kernel)
  refine ⟨s', hrun, fun hkept => ?_⟩
  have hzero := of_decide_eq_true htest
  rw [hkept.1] at hzero
  exact absurd hzero (by decide +kernel)

end Mimik.Vm
