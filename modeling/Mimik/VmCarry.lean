/-
# What carries over from one machine to another

The functions of the manager are written over a `Machine`, and use its operations one after
the other.  So what relates the operations of two machines, and is kept when programs are put
together, relates every function on the first machine to the same function on the second
(`Carries.vmMapPages` and its siblings).

The pointers of the two machines are the same; their states need not be.
-/
import Mimik.Vm

namespace Mimik.Vm

open FaultState

variable {σ τ π : Type} {M : Machine σ π} {N : Machine τ π}
  {Rel : ∀ {α : Type}, Prog Fault σ α → Prog Fault τ α → Prop}

/-- A relation of programs that relates the operations of two machines, and is kept when
programs are put together. -/
structure Carries (M : Machine σ π) (N : Machine τ π)
    (Rel : ∀ {α : Type}, Prog Fault σ α → Prog Fault τ α → Prop) : Prop where
  pure {α : Type} (a : α) : Rel (pure a) (pure a)
  fault {α : Type} (f : Fault) : Rel (fault f : Prog Fault σ α) (fault f)
  bind {α β : Type} {x : Prog Fault σ α} {y : Prog Fault τ α} {f : α → Prog Fault σ β}
    {g : α → Prog Fault τ β} : Rel x y → (∀ a, Rel (f a) (g a)) → Rel (x >>= f) (y >>= g)
  read (pt : π) (i : ℕ) : Rel (M.read pt i) (N.read pt i)
  write (pt : π) (i : ℕ) (e : Pte) : Rel (M.write pt i e) (N.write pt i e)
  mapPageTmp (paddr : PAddr) (flags : Flags) :
    Rel (M.mapPageTmp paddr flags) (N.mapPageTmp paddr flags)
  unmapPageTmp (pt : π) : Rel (M.unmapPageTmp pt) (N.unmapPageTmp pt)
  pmRequestPage : Rel M.pmRequestPage N.pmRequestPage
  memSet (pt : π) : Rel (M.memSet pt) (N.memSet pt)
  invalidatePage (vaddr : ℕ) : Rel (M.invalidatePage vaddr) (N.invalidatePage vaddr)

namespace Carries

variable {α β γ : Type} {pt : π} {paddrStart : PAddr} {flags : Flags}
  {pages height fuel vaddr : ℕ} {index : List ℕ}

/-! ## Programs that are put together -/

theorem ite (_ : Carries M N Rel) {c : Prop} [Decidable c] {x x' : Prog Fault σ α}
    {y y' : Prog Fault τ α} (hx : Rel x y) (hx' : Rel x' y') :
    Rel (if c then x else x') (if c then y else y') := by
  by_cases hc : c
  · rw [if_pos hc, if_pos hc]
    exact hx
  · rw [if_neg hc, if_neg hc]
    exact hx'

theorem check (h : Carries M N Rel) (b : Bool) (expr : String) :
    Rel (Vm.check b expr) (Vm.check b expr) :=
  h.ite (h.pure ()) (h.fault _)

theorem rounds (h : Carries M N Rel) {body : β → Prog Fault σ (Flow β γ)}
    {body' : β → Prog Fault τ (Flow β γ)} {fin : β → Prog Fault σ γ} {fin' : β → Prog Fault τ γ}
    (hbody : ∀ b, Rel (body b) (body' b)) (hfin : ∀ b, Rel (fin b) (fin' b)) (n : ℕ) (b : β) :
    Rel (FaultState.rounds body fin n b) (FaultState.rounds body' fin' n b) := by
  induction n generalizing b with
  | zero => exact hfin b
  | succ n ih =>
    apply h.bind (hbody b)
    rintro (b' | r)
    · exact ih b'
    · exact h.pure r

theorem withTable (h : Carries M N Rel) {body : π → Prog Fault σ α} {body' : π → Prog Fault τ α}
    (hbody : ∀ pt, Rel (body pt) (body' pt)) (paddr : PAddr) :
    Rel (Vm.withTable M paddr body) (Vm.withTable N paddr body') := by
  apply h.bind (h.mapPageTmp _ _)
  intro ptVaddr
  apply h.bind (hbody ptVaddr)
  intro res
  exact h.bind (h.unmapPageTmp _) fun _ => h.pure _

theorem createPt (h : Carries M N Rel) (pt : π) (i : ℕ) :
    Rel (Vm.createPt M pt i) (Vm.createPt N pt i) := by
  apply h.bind h.pmRequestPage
  intro paddr
  apply h.bind (h.mapPageTmp _ _)
  intro vaddr
  apply h.bind (h.memSet _)
  intro _
  exact h.bind (h.write _ _ _) fun _ => h.pure _

theorem updatePtPteFlags (h : Carries M N Rel) (pt : π) (i : ℕ) (flags : Flags) :
    Rel (Vm.updatePtPteFlags M pt i flags) (Vm.updatePtPteFlags N pt i flags) :=
  h.bind (h.read _ _) fun _ => h.write _ _ _

/-! ## The functions of the manager -/

theorem nextFreeEntry (h : Carries M N Rel)
    {scan : Search → Prog Fault σ (Flow Search (Option Status × Search))}
    {scan' : Search → Prog Fault τ (Flow Search (Option Status × Search))}
    (hscan : ∀ v, Rel (scan v) (scan' v)) (fuel i : ℕ) (below : List ℕ) :
    Rel (Vm.nextFreeEntry M scan pt height paddrStart pages flags fuel i below)
      (Vm.nextFreeEntry N scan' pt height paddrStart pages flags fuel i below) := by
  have hcount : ∀ v, Rel (countFree M pt height pages flags v)
      (countFree N pt height pages flags v) := fun v =>
    h.ite (h.bind (h.read _ _) fun _ => h.pure _) (h.pure _)
  induction fuel generalizing i below with
  | zero => exact h.fault _
  | succ fuel ih =>
    apply h.bind (h.rounds hscan (fun _ => h.pure _) _ _)
    rintro ⟨_ | res, v⟩
    · apply h.ite (h.pure _)
      apply h.bind (h.rounds hcount (fun _ => h.pure _) _ _)
      intro w
      exact h.ite (h.ite (h.pure _) (ih w.1 v.below)) (h.pure _)
    · exact h.pure _

theorem findSpace (h : Carries M N Rel) (index : List ℕ) (pt : π) :
    Rel (Vm.findSpace M fuel paddrStart pages flags height index pt)
      (Vm.findSpace N fuel paddrStart pages flags height index pt) := by
  induction height generalizing index pt with
  | zero =>
    apply h.nextFreeEntry
    exact fun v => h.ite (h.bind (h.read _ _) fun _ => h.pure _) (h.pure _)
  | succ height ih =>
    apply h.nextFreeEntry
    intro v
    apply h.ite _ (h.pure _)
    apply h.bind (h.read _ _)
    intro e
    apply h.ite _ (h.pure _)
    apply h.bind (h.read _ _)
    intro parent
    exact h.bind (h.withTable (fun pt => ih v.below pt) _) fun _ => h.pure _

theorem recurseMap (h : Carries M N Rel) (index : List ℕ) (pt : π) (paddr : PAddr) (pages : ℕ) :
    Rel (Vm.recurseMap M flags height index pt paddr pages)
      (Vm.recurseMap N flags height index pt paddr pages) := by
  induction height generalizing index pt paddr pages with
  | zero =>
    apply h.rounds _ fun _ => h.pure _
    intro v
    apply h.ite _ (h.pure _)
    apply h.bind (h.read _ _)
    intro e
    exact h.ite (h.pure _) (h.bind (h.write _ _ _) fun _ => h.pure _)
  | succ height ih =>
    apply h.rounds _ fun _ => h.pure _
    intro v
    apply h.ite _ (h.pure _)
    apply h.bind (h.read _ _)
    intro e
    apply h.bind (h.ite (h.mapPageTmp _ _) (h.createPt _ _))
    intro ptVaddr
    apply h.bind (h.updatePtPteFlags _ _ _)
    intro _
    apply h.bind (ih index.tail ptVaddr v.paddr v.pages)
    intro r
    exact h.bind (h.unmapPageTmp _) fun _ => h.pure _

/-- `vm_map_pages`. -/
theorem vmMapPages (h : Carries M N Rel) (table : π) :
    Rel (Vm.vmMapPages M fuel table paddrStart pages vaddr flags)
      (Vm.vmMapPages N fuel table paddrStart pages vaddr flags) := by
  apply h.bind (h.check _ _)
  intro _
  apply h.bind (h.check _ _)
  intro _
  apply h.bind (h.check _ _)
  intro _
  apply h.bind (h.findSpace _ _)
  intro r
  apply h.ite (h.pure _)
  exact h.bind (h.recurseMap _ _ _ _) fun _ => h.ite (h.pure _) (h.pure _)

theorem recurseUnmap (h : Carries M N Rel) (index : List ℕ) (pt : π) (vaddr : ℕ) :
    Rel (Vm.recurseUnmap M pages height index pt vaddr)
      (Vm.recurseUnmap N pages height index pt vaddr) := by
  induction height generalizing index pt vaddr with
  | zero =>
    apply h.rounds _ fun _ => h.pure _
    intro v
    apply h.ite _ (h.pure _)
    apply h.bind (h.write _ _ _)
    intro _
    exact h.bind (h.invalidatePage _) fun _ => h.pure _
  | succ height ih =>
    apply h.rounds _ fun _ => h.pure _
    intro v
    apply h.ite _ (h.pure _)
    apply h.bind (h.read _ _)
    intro pte
    apply h.ite _ (h.pure _)
    exact h.bind (h.withTable (fun pt => ih v.below pt v.vaddr) _) fun _ => h.pure _

/-- `vm_unmap_pages`. -/
theorem vmUnmapPages (h : Carries M N Rel) (table : π) :
    Rel (Vm.vmUnmapPages M table vaddr pages) (Vm.vmUnmapPages N table vaddr pages) := by
  apply h.bind (h.check _ _)
  intro _
  apply h.bind (h.check _ _)
  intro _
  exact h.bind (h.recurseUnmap _ _ _) fun _ => h.pure _

theorem recurseSetBacking (h : Carries M N Rel) (paddr : PAddr) (index : List ℕ) (pt : π) :
    Rel (Vm.recurseSetBacking M paddr height index pt)
      (Vm.recurseSetBacking N paddr height index pt) := by
  induction height generalizing index pt with
  | zero =>
    apply h.bind (h.read _ _)
    intro pte
    exact h.ite (h.bind (h.write _ _ _) fun _ => h.pure _) (h.pure _)
  | succ height ih =>
    apply h.bind (h.read _ _)
    intro pte
    exact h.ite (h.withTable (fun pt => ih index.tail pt) _) (h.pure _)

/-- `vm_set_backing`. -/
theorem vmSetBacking (h : Carries M N Rel) (table : π) (paddr : PAddr) :
    Rel (Vm.vmSetBacking M table vaddr paddr) (Vm.vmSetBacking N table vaddr paddr) := by
  apply h.bind (h.check _ _)
  intro _
  apply h.bind (h.check _ _)
  intro _
  exact h.recurseSetBacking _ _ _

theorem recurseFind (h : Carries M N Rel) (index : List ℕ) (pt : π) :
    Rel (Vm.recurseFind M height index pt) (Vm.recurseFind N height index pt) := by
  induction height generalizing index pt with
  | zero => exact h.bind (h.read _ _) fun _ => h.ite (h.pure _) (h.pure _)
  | succ height ih =>
    apply h.bind (h.read _ _)
    intro pte
    exact h.ite (h.withTable (fun pt => ih index.tail pt) _) (h.pure _)

/-- `vm_vaddr_to_paddr`. -/
theorem vmVaddrToPaddr (h : Carries M N Rel) (table : π) :
    Rel (Vm.vmVaddrToPaddr M table vaddr) (Vm.vmVaddrToPaddr N table vaddr) :=
  h.bind (h.recurseFind _ _) fun _ => h.ite (h.pure _) (h.pure _)

theorem recurseFlag (h : Carries M N Rel) (index : List ℕ) (pt : π) (pages : ℕ) :
    Rel (Vm.recurseFlag M flags height index pt pages)
      (Vm.recurseFlag N flags height index pt pages) := by
  induction height generalizing index pt pages with
  | zero =>
    apply h.rounds _ fun _ => h.pure _
    rintro ⟨i, pages⟩
    apply h.ite _ (h.pure _)
    apply h.bind (h.read _ _)
    intro pte
    exact h.ite (h.bind (h.write _ _ _) fun _ => h.pure _) (h.pure _)
  | succ height ih =>
    apply h.rounds _ fun _ => h.pure _
    rintro ⟨i, pages⟩
    apply h.ite _ (h.pure _)
    apply h.bind (h.read _ _)
    intro pte
    apply h.ite _ (h.pure _)
    refine h.bind (h.withTable (fun pt' => ?_) _) fun _ => h.pure _
    exact h.bind (h.updatePtPteFlags _ _ _) fun _ => ih index.tail pt' pages

/-- `vm_flag_pages`. -/
theorem vmFlagPages (h : Carries M N Rel) (table : π) :
    Rel (Vm.vmFlagPages M table vaddr pages flags) (Vm.vmFlagPages N table vaddr pages flags) := by
  apply h.bind (h.check _ _)
  intro _
  apply h.bind (h.check _ _)
  intro _
  exact h.bind (h.recurseFlag _ _ _) fun _ => h.pure _

/-- Every call of the interface. -/
theorem run (h : Carries M N Rel) (table : π) (c : VmCall) :
    Rel (c.run M table) (c.run N table) := by
  cases c with
  | mapPages => exact h.bind (h.vmMapPages _) fun _ => h.pure _
  | unmapPages => exact h.bind (h.vmUnmapPages _) fun _ => h.pure _
  | vaddrToPaddr => exact h.bind (h.vmVaddrToPaddr _) fun _ => h.pure _
  | setBacking => exact h.bind (h.vmSetBacking _ _) fun _ => h.pure _
  | flagPages => exact h.bind (h.vmFlagPages _) fun _ => h.pure _

end Carries

end Mimik.Vm
