/-
# The first interrupts (`isr_init`, `pic_init`, `pit_init`)

`kernel_main` clears the handlers, initialises the controllers, registers the timer's handler,
unmasks its line and enables interrupts.  `has_apic` is true on a processor without one, and then
the kernel halts in `new_pic_init`; otherwise the 8259 controllers are used.

`pit_init` unmasks the vector 32 of the timer in place of its line 0.  Both have the same bit of
the same register, so the timer's line is the one that is unmasked.  From there on no other line is
given, not even a spurious one of the second controller, whose vectors are not known, and the timer
is not interrupted by itself (`timer_only`).
-/
import Mimik.Isr

namespace Mimik.Isr

open Pic GuardedRun

section Start

variable {H σ : Type}

/-! ## The functions -/

/-- `PIT_IRQ`. -/
def pitIrq : BitVec 8 := 32

/-- The kernel and its controllers once interrupts are enabled. -/
structure Started (pit : H) (s : Irqs H σ) : Prop where
  isrs : s.isrs = Function.update (fun _ => none) 32 (some pit)
  useNewPic : s.useNewPic = false
  phase : s.chips.pics.pic1.phase = .mask
  base : s.chips.pics.pic1.base = 0x20
  mask : s.chips.pics.pic1.mask = 0xfe
  idle : s.chips.inService1 = 0 ∧ s.chips.inService2 = 0

/-- The vector of an interrupt. -/
def vectorOf (n : Nest) : Pic.Event → Option (BitVec 8)
  | .accept line => some (n.chips.pics.vector line)
  | .spurious second => some (n.chips.pics.vector (lastLine second))
  | _ => none

/-- The processor needs a gate for a vector, and `isr_common` a handler. -/
def checkVector (isrs : ℕ → Option H) (v : BitVec 8) : Except Fault Unit :=
  if v.toNat < gateTypes.length then
    assert (isrs v.toNat).isSome "isr && \"unhandled interrupt\""
  else .error (.wild "idt")

/-- An event, where an interrupt has to come to its handler. -/
def dispatch (isrs : ℕ → Option H) (n : Nest) (e : Pic.Event) : Except Fault Nest := do
  forM (vectorOf n e) (checkVector isrs)
  n.step e

/-- The masks are not changed any more. -/
def KeepsMasks (n : Nest) (e : Pic.Event) : Prop :=
  n.Accepts e ∧ ∀ irq, e ≠ .mask irq ∧ e ≠ .unmask irq

variable {pit : H} {s : Irqs H σ} {n n' : Nest} {e : Pic.Event} {base : BitVec 8}

/-- A handler is there for the vector 32 only. -/
theorem Started.isSome_iff (hs : Started pit s) (v : ℕ) : (s.isrs v).isSome = true ↔ v = 32 := by
  rw [hs.isrs]
  by_cases hv : v = 32
  · simp [hv]
  · simp [hv]

/-- What holds while the masks are kept: the timer's handler runs, or none. -/
structure TimerOnly (base : BitVec 8) (n : Nest) : Prop where
  serves : n.Serves
  based : n.Based base
  mask : n.chips.pics.pic1.mask = 0xfe
  handlers : n.handlers = [] ∨ n.handlers = [⟨0, false, pitIrq⟩]

/-- The vectors of the first controller. -/
theorem TimerOnly.vector (hn : TimerOnly base n) {line : Fin 16} (hlt : line.val < 8) :
    n.chips.pics.vector line = 0x20 &&& 0xf8 ||| BitVec.ofNat 8 line := by
  rw [Pics.vector, if_pos hlt, hn.based.first]

/-- The timer's line is the only one that is given, while no handler runs. -/
theorem TimerOnly.accepts (hn : TimerOnly base n) {line : Fin 16}
    (hacc : n.Accepts (.accept line)) : line = 0 ∧ n.handlers = [] := by
  obtain ⟨-, -, hmask, hidle, -⟩ := hacc
  have hlines : ∀ line : Fin 16, (0xfe#8).getLsbD (level line) = false → line = 0 := by decide
  rw [hn.mask] at hmask
  obtain rfl := hlines line hmask
  refine ⟨rfl, hn.handlers.resolve_right fun h => ?_⟩
  -- line 0 is in service
  have hset := (hn.serves.first 0 (by decide)).mpr (by rw [h]; decide)
  rw [hidle 0 (by decide)] at hset
  cases hset

/-- The second controller gives nothing, as line 2 of the first one is masked. -/
theorem TimerOnly.not_spurious (hn : TimerOnly base n) : ¬ n.Accepts (.spurious true) := by
  rintro ⟨hmask, -⟩
  rw [hn.mask] at hmask
  exact absurd hmask (by decide)

/-- For a spurious interrupt of the first controller there is no handler. -/
theorem TimerOnly.dispatch_spurious (hs : Started pit s) (hn : TimerOnly base n) :
    dispatch s.isrs n (.spurious false) = .error (.assertion "isr && \"unhandled interrupt\"") := by
  have hnone : (s.isrs 39).isSome = false := by
    rw [Bool.eq_false_iff]
    exact fun hsome => absurd ((hs.isSome_iff 39).mp hsome) (by decide)
  have hcheck : checkVector s.isrs (n.chips.pics.vector (lastLine false)) =
      .error (.assertion "isr && \"unhandled interrupt\"") := by
    rw [hn.vector (by decide), checkVector, if_pos (by decide)]
    show assert (s.isrs 39).isSome _ = _
    rw [hnone]
    rfl
  rw [dispatch, vectorOf, Option.forM_some, hcheck]
  rfl

/-- An event keeps it. -/
theorem TimerOnly.step (hs : Started pit s) (hn : TimerOnly base n) (hg : KeepsMasks n e)
    (hok : dispatch s.isrs n e = .ok n') : TimerOnly base n' := by
  obtain ⟨hacc, hkeeps⟩ := hg
  obtain ⟨_, -, hstep⟩ := Except.bind_eq_ok_iff.mp hok
  have hbased := hn.based.step hstep
  cases e with
  | accept line =>
    obtain ⟨rfl, hnone⟩ := hn.accepts hacc
    have hserves := hn.serves.accept hacc hstep
    have hvector : n.chips.pics.vector 0 = pitIrq := hn.vector (by decide)
    cases hstep
    refine ⟨hserves, hbased, hn.mask, .inr ?_⟩
    rw [hnone, Nest.call, hvector]
  | spurious second =>
    cases second with
    | true => exact absurd hacc hn.not_spurious
    | false =>
      rw [hn.dispatch_spurious hs] at hok
      cases hok
  | returned =>
    rcases hn.handlers with h | h
    · rw [Nest.step, h] at hstep
      cases hstep
    · have hends : picIrqbase ≤ pitIrq ∧ ¬ picIrqbase + 8 ≤ pitIrq := by decide
      have hfits : n.Fits := (Nest.fits_cons h).mpr ⟨hends.1, fun hend => absurd hend hends.2⟩
      have hserves := (hn.serves.returned_iff hstep).mpr hfits
      rw [Nest.step, h] at hstep
      cases hstep
      refine ⟨hserves, hbased, ?_, .inl rfl⟩
      simp only [oldPicAck_eq]
      exact hn.mask
  | mask irq => exact absurd rfl (hkeeps irq).1
  | unmask irq => exact absurd rfl (hkeeps irq).2

end Start

end Mimik.Isr
