/-
# The frames of the virtual memory manager are drawn from the physical one

On the machine of the two managers a call that returns has drawn some frames from the
allocator, one after the other (`Draws`), and did with them what the same call does on
`kernel` when these frames are the first that `pm_request_page` returns there (`Lends`).
So what is known of calls on `kernel`, for every list of frames, is known of
calls on the two managers, for the pages that the allocator really returns.
-/
import Mimik.Mm

namespace Mimik.Vm

open FaultState

variable {env : Pm.PmEnv} {depth : ℕ} {tmpPaddr root : PAddr} {α β : Type}

/-! ## Drawing frames -/

/-- Requests one after the other, and the pages that they return. -/
inductive Draws (env : Pm.PmEnv) (depth : ℕ) : Pm.PmState → List PAddr → Pm.PmState → Prop
  | nil (p : Pm.PmState) : Draws env depth p [] p
  | cons {p p₁ p' : Pm.PmState} {a : ℕ} {frames : List PAddr} :
      Pm.pmRequestPage env depth p = .ok (a, p₁) → Draws env depth p₁ frames p' →
      Draws env depth p (BitVec.ofNat 64 a :: frames) p'

theorem Draws.append {p p₁ p' : Pm.PmState} {frames frames' : List PAddr}
    (h : Draws env depth p frames p₁) (h' : Draws env depth p₁ frames' p') :
    Draws env depth p (frames ++ frames') p' := by
  induction h with
  | nil => exact h'
  | cons hreq _ ih => exact .cons hreq (ih h')

/-- `x` on the two managers is `y` on `kernel` with the frames that are drawn. -/
structure Lends (env : Pm.PmEnv) (depth : ℕ) {α : Type} (x : Prog Fault MmState α)
    (y : Prog Fault VmState α) : Prop where
  /-- A program that returns has drawn frames, and no more than it used. -/
  back : ∀ s a s', x s = .ok (a, s') → ∃ drawn, Draws env depth s.pm drawn s'.pm ∧
    ∀ rest, y { s.vm with frames := drawn ++ rest } = .ok (a, { s'.vm with frames := rest })
  /-- Frames that can be drawn are enough where they are enough on `kernel`. -/
  forth : ∀ s drawn p' a t', Draws env depth s.pm drawn p' →
    y { s.vm with frames := drawn } = .ok (a, t') →
    ∃ s' used, x s = .ok (a, s') ∧ drawn = used ++ t'.frames ∧ Draws env depth s.pm used s'.pm ∧
      Draws env depth s'.pm t'.frames p' ∧ s'.vm = { t' with frames := s.vm.frames }

/-! ## The operations -/

/-- The program has no use for frames. -/
def Frameless (x : Prog Fault VmState α) : Prop :=
  ∀ s frames, x { s with frames } = (x s).map fun r => (r.1, { r.2 with frames })

theorem Frameless.lends {x : Prog Fault VmState α} (h : Frameless x) :
    Lends env depth (onVm x) x where
  back s a s' hok := by
    rw [onVm] at hok
    split at hok
    next r hr =>
      cases hok
      refine ⟨[], .nil _, fun rest => ?_⟩
      rw [h, hr]
      rfl
    next => cases hok
  forth s drawn p' a t' hdraws hok := by
    rw [h] at hok
    cases hr : x s.vm with
    | error f =>
      rw [hr] at hok
      cases hok
    | ok r =>
      rw [hr] at hok
      cases hok
      refine ⟨{ s with vm := r.2 }, [], ?_, rfl, .nil _, hdraws, ?_⟩
      · rw [onVm, hr]
      · have hsame : x s.vm = (x s.vm).map fun r => (r.1, { r.2 with frames := s.vm.frames }) :=
          h s.vm s.vm.frames
        rw [hr] at hsame
        exact congrArg Prod.snd (Except.ok.inj hsame)

theorem frameless_resolve (pt : PtPtr) : Frameless (Kernel.resolve pt) := by
  intro s frames
  cases pt with
  | table p => rfl
  | window vaddr =>
    simp only [Kernel.resolve]
    split <;> rfl

theorem Frameless.bind {x : Prog Fault VmState α} {f : α → Prog Fault VmState β}
    (hx : Frameless x) (hf : ∀ a, Frameless (f a)) : Frameless (x >>= f) := by
  intro s frames
  show (x _ >>= fun r => f r.1 r.2) = (x s >>= fun r => f r.1 r.2).map _
  rw [hx]
  cases x s with
  | error e => rfl
  | ok r => exact hf r.1 r.2 frames

theorem frameless_read (pt : PtPtr) (i : ℕ) : Frameless (Kernel.read tmpPaddr pt i) :=
  (frameless_resolve pt).bind fun _ _ _ => rfl

theorem frameless_write (pt : PtPtr) (i : ℕ) (e : Pte) :
    Frameless (Kernel.write tmpPaddr pt i e) := by
  apply (frameless_resolve pt).bind
  intro p s frames
  simp only [Kernel.setEntry]
  split <;> rfl

theorem frameless_mapPageTmp (paddr : PAddr) (flags : Flags) :
    Frameless (Kernel.mapPageTmp paddr flags) := by
  intro s frames
  simp only [Kernel.mapPageTmp]
  split <;> rfl

theorem frameless_unmapPageTmp (pt : PtPtr) : Frameless (Kernel.unmapPageTmp pt) := by
  intro s frames
  cases pt with
  | table p => rfl
  | window vaddr =>
    simp only [Kernel.unmapPageTmp]
    split
    · rfl
    · split <;> rfl

theorem frameless_memSet (pt : PtPtr) : Frameless (Kernel.memSet tmpPaddr pt) := by
  apply (frameless_resolve pt).bind
  intro p s frames
  dsimp only
  split <;> rfl

/-- A request draws the frame that it returns. -/
theorem lends_pmRequestPage : Lends env depth (together env depth tmpPaddr).pmRequestPage
    (kernel tmpPaddr).pmRequestPage where
  back s a s' hok := by
    obtain ⟨paddr, s₁, hreq, hpure⟩ := bind_eq_ok_iff.mp hok
    obtain ⟨rfl, rfl⟩ := pure_eq_ok_iff.mp hpure
    rw [onPm] at hreq
    split at hreq
    next r hr =>
      cases hreq
      exact ⟨[BitVec.ofNat 64 r.1], .cons hr (.nil _), fun rest => rfl⟩
    next => cases hreq
  forth s drawn p' a t' hdraws hok := by
    cases hdraws with
    | nil => cases hok
    | @cons _ p₁ _ paddr frames hreq hrest =>
      cases hok
      refine ⟨{ s with pm := p₁ }, [BitVec.ofNat 64 paddr], ?_, rfl, .cons hreq (.nil _), hrest,
        rfl⟩
      apply bind_eq_ok_iff.mpr
      refine ⟨paddr, { s with pm := p₁ }, ?_, rfl⟩
      rw [onPm, hreq]

theorem lends_pure (a : α) : Lends env depth (pure a) (pure a) where
  back s a' s' hok := by
    obtain ⟨rfl, rfl⟩ := pure_eq_ok_iff.mp hok
    exact ⟨[], .nil _, fun rest => rfl⟩
  forth s drawn p' a' t' hdraws hok := by
    obtain ⟨rfl, rfl⟩ := pure_eq_ok_iff.mp hok
    exact ⟨s, [], rfl, rfl, .nil _, hdraws, rfl⟩

theorem Lends.bind {x : Prog Fault MmState α} {y : Prog Fault VmState α}
    {f : α → Prog Fault MmState β} {g : α → Prog Fault VmState β} (hxy : Lends env depth x y)
    (hfg : ∀ a, Lends env depth (f a) (g a)) : Lends env depth (x >>= f) (y >>= g) where
  back s b s' hok := by
    obtain ⟨a, s₁, hx, hf⟩ := bind_eq_ok_iff.mp hok
    obtain ⟨drawn, hdraws, hy⟩ := hxy.back s a s₁ hx
    obtain ⟨drawn', hdraws', hg⟩ := (hfg a).back s₁ b s' hf
    refine ⟨drawn ++ drawn', hdraws.append hdraws', fun rest => ?_⟩
    rw [List.append_assoc]
    exact bind_eq_ok_iff.mpr ⟨a, _, hy (drawn' ++ rest), hg rest⟩
  forth s drawn p' b t' hdraws hok := by
    obtain ⟨a, t₁, hy, hg⟩ := bind_eq_ok_iff.mp hok
    obtain ⟨s₁, used, hx, rfl, hused, hrest, hvm⟩ := hxy.forth s drawn p' a t₁ hdraws hy
    have hg' : g a { s₁.vm with frames := t₁.frames } = .ok (b, t') := by
      rw [hvm]
      exact hg
    obtain ⟨s', used', hf, hframes, hused', hrest', hvm'⟩ := (hfg a).forth s₁ _ p' b t' hrest hg'
    refine ⟨s', used ++ used', bind_eq_ok_iff.mpr ⟨a, s₁, hx, hf⟩, ?_, hused.append hused',
      hrest', ?_⟩
    · rw [hframes, List.append_assoc]
    · rw [hvm', hvm]

/-- **Lending** carries over from the operations to every function of the manager. -/
theorem carries_lends : Carries (together env depth tmpPaddr) (kernel tmpPaddr)
    (Lends env depth) where
  pure := lends_pure
  fault f := by
    constructor
    · intro s a s' hok
      cases hok
    · intro s drawn p' a t' _ hok
      cases hok
  bind := Lends.bind
  read pt i := (frameless_read pt i).lends
  write pt i e := (frameless_write pt i e).lends
  mapPageTmp paddr flags := (frameless_mapPageTmp paddr flags).lends
  unmapPageTmp pt := (frameless_unmapPageTmp pt).lends
  pmRequestPage := lends_pmRequestPage
  memSet pt := (frameless_memSet pt).lends
  invalidatePage vaddr := Frameless.lends (x := Kernel.invalidatePage vaddr) fun _ _ => rfl

/-- The record of the tables walked is kept by both. -/
theorem Lends.call {x : Prog Fault MmState α} {y : Prog Fault VmState α}
    (h : Lends env depth x y) :
    Lends env depth (callTogether root x) (Vm.call root y) where
  back s := h.back { s with vm := { s.vm with opened := [root] } }
  forth s := h.forth { s with vm := { s.vm with opened := [root] } }

end Mimik.Vm
