/-
# Code that is interrupted

The kernel runs with interrupts enabled, and an interrupt may come between any two of its
instructions.  Code that depends neither on what lies below its stack pointer nor on the data of
the handlers does the same then as if `isr_common` were a function that is called between its
steps: each run with interrupts is matched by one of the code alone, with the same effect on the
kernel, and the other way round (`interrupted_iff`).

The code is a parameter, with the relation of the machines that it does not tell apart.
-/
import Mimik.IsrStub

namespace Mimik.Isr

open X86 GuardedRun

section Runs

variable {κ : Type} (common : IsrFrame → κ → Except Fault (IsrFrame × κ)) (own : Set ℕ) (room : ℕ)
  (body : Machine → κ → Except Fault (Machine × κ)) (image : Image)
  (code : Machine → κ → Except Fault (Machine × κ))

/-! ## Two ways to run code -/

/-- The machine makes a step of the code, or takes an interrupt. -/
def machineStep (s : Machine × κ) : Option Event → Except Fault (Machine × κ)
  | none => code s.1 s.2
  | some e => service image body e s.1 s.2

/-- The code makes a step, or `isr_common` is called with a frame of its registers. -/
def codeStep (s : Machine × κ) : Option Event → Except Fault (Machine × κ)
  | none => code s.1 s.2
  | some e => do
    let (_, k) ← common (.of s.1.reg (BitVec.ofNat 64 e.vector) (codeOf e)) s.2
    return (s.1, k)

/-- An interrupt is taken while the interrupt flag is set, through one of the stubs.  It has no
error code, and nothing is to be executed again. -/
def Allowed (s : Machine × κ) : Option Event → Prop
  | none => True
  | some e => s.1.rflags.getLsbD interruptFlag = true ∧ e.vector < 48 ∧ e.HasCode ∧
      e.error = none ∧ e.restarts = false

/-- The code does not tell related machines apart.  Machines are related whatever is in the part of
the stack that interrupts use, and in the data of the handlers; and the code leaves the table and
the room for interrupts alone. -/
structure Oblivious (R : Machine → Machine → Prop) : Prop where
  visible : ∀ m a, R m a → m.reg = a.reg ∧ m.rflags = a.rflags
  hidden : ∀ m a mem, R m a → (∀ b ∉ own, b ∉ scratch room m → mem b = m.mem b) →
    R { m with mem } a
  forth : ∀ m a k m' k', R m a → code m k = .ok (m', k') →
    ∃ a', code a k = .ok (a', k') ∧ R m' a'
  back : ∀ m a k a' k', R m a → code a k = .ok (a', k') →
    ∃ m', code m k = .ok (m', k') ∧ R m' a'
  ready : ∀ m k m' k', Interruptible image own room m → code m k = .ok (m', k') →
    Interruptible image own room m'

variable {common own room body image code}

/-! ## Steps -/

variable {R : Machine → Machine → Prop} {m a : Machine} {k k' : κ} {e : Event}

/-- A machine stays interruptible while its table does. -/
theorem Interruptible.with_mem {mem : ByteMemory} (h : Interruptible image own room m)
    (hmem : ∀ b ∉ own, b ∉ scratch room m → mem b = m.mem b) :
    Interruptible image own room { m with mem } where
  idt := h.idt.congr fun b hle hlt => hmem b (h.table b hle hlt).1 (h.table b hle hlt).2
  enough := h.enough
  outside := h.outside
  table := h.table

/-- The machine and the code alone: they cannot be told apart, and the kernel is the same. -/
def Matched (image : Image) (own : Set ℕ) (room : ℕ) (R : Machine → Machine → Prop)
    (s t : Machine × κ) : Prop :=
  R s.1 t.1 ∧ s.2 = t.2 ∧ Interruptible image own room s.1

/-- **An interrupt** is served exactly when the function returns, with the same effect. -/
theorem service_matched (hcompiled : Compiled common own room body) (hkeeps : KeepsFrame common)
    (hoblivious : Oblivious own room image code R) (hR : R m a)
    (hready : Interruptible image own room m)
    (hallowed : Allowed (m, k) (some e)) :
    (∀ s, service image body e m k = .ok s →
      ∃ t, codeStep common code (a, k) (some e) = .ok t ∧ Matched image own room R s t) ∧
    (∀ t, codeStep common code (a, k) (some e) = .ok t →
      ∃ s, service image body e m k = .ok s ∧ Matched image own room R s t) := by
  obtain ⟨-, hn, hcode, -, hrestarts⟩ := hallowed
  obtain ⟨hserved, hhalted, -⟩ :=
    hready.served (k := k) hcompiled hcode (Nat.lt_trans hn (by decide))
  have hreg : m.reg = a.reg := (hoblivious.visible m a hR).1
  have hstep : codeStep common code (a, k) (some e) =
      (common (.of m.reg (BitVec.ofNat 64 e.vector) (codeOf e)) k).map fun r => (a, r.2) := by
    rw [hreg]
    cases hcommon : common (.of a.reg (BitVec.ofNat 64 e.vector) (codeOf e)) k with
    | error fault =>
      simp only [codeStep, hcommon]
      rfl
    | ok r =>
      simp only [codeStep, hcommon]
      rfl
  rw [hstep]
  cases hcommon : common (.of m.reg (BitVec.ofNat 64 e.vector) (codeOf e)) k with
  | error fault =>
    rw [hhalted hn fault hcommon]
    refine ⟨fun s hs => ?_, fun t ht => ?_⟩
    · cases hs
    · cases ht
  | ok r =>
    obtain ⟨f, k'⟩ := r
    obtain ⟨mem, hservice, hrest⟩ := hserved hn f k' hcommon
    obtain rfl := hkeeps _ _ _ _ hcommon
    rw [resumed_of hrestarts] at hservice
    have hmatched : Matched image own room R ({ m with mem }, k') (a, k') :=
      ⟨hoblivious.hidden m a mem hR hrest, rfl, hready.with_mem hrest⟩
    rw [hservice]
    refine ⟨fun s hs => ?_, fun t ht => ?_⟩
    · cases hs
      exact ⟨_, rfl, hmatched⟩
    · cases ht
      exact ⟨_, rfl, hmatched⟩

/-! ## Runs -/

/-- **Interrupts between any two steps**: a list of steps and interrupts is a run of the machine
exactly when it is one of the code with `isr_common` called in between; what the code sees in the
end is the same, and so is the kernel. -/
theorem interrupted_iff (hcompiled : Compiled common own room body) (hkeeps : KeepsFrame common)
    (hoblivious : Oblivious own room image code R) (hR : R m a)
    (hready : Interruptible image own room m) (es : List (Option Event)) :
    (∀ s, Run (machineStep body image code) Allowed (m, k) es s →
      ∃ t, Run (codeStep common code) Allowed (a, k) es t ∧ Matched image own room R s t) ∧
    (∀ t, Run (codeStep common code) Allowed (a, k) es t →
      ∃ s, Run (machineStep body image code) Allowed (m, k) es s ∧
        Matched image own room R s t) := by
  have hvisible : ∀ s t : Machine × κ, Matched image own room R s t →
      ∀ e, Allowed s e ↔ Allowed t e := by
    intro s t hmatched e
    have hflags := (hoblivious.visible s.1 t.1 hmatched.1).2
    cases e with
    | none => exact Iff.rfl
    | some e =>
      unfold Allowed
      rw [hflags]
  have hstart : Matched image own room R (m, k) (a, k) := ⟨hR, rfl, hready⟩
  constructor
  · intro s hrun
    refine hrun.simulate (fun s t e s' hmatched hallowed hok => ?_) hstart
    refine ⟨(hvisible s t hmatched e).mp hallowed, ?_⟩
    obtain ⟨hrel, hk, hint⟩ := hmatched
    obtain ⟨m, k⟩ := s
    obtain ⟨a, _⟩ := t
    obtain rfl : k = _ := hk
    cases e with
    | none =>
      obtain ⟨m', k'⟩ := s'
      obtain ⟨a', hcode, hrel'⟩ := hoblivious.forth m a k m' k' hrel hok
      exact ⟨(a', k'), hcode, hrel', rfl, hoblivious.ready m k m' k' hint hok⟩
    | some e =>
      exact (service_matched hcompiled hkeeps hoblivious hrel hint hallowed).1 s' hok
  · intro t hrun
    refine hrun.simulate (S := fun t s => Matched image own room R s t)
      (fun t s e t' hmatched hallowed hok => ?_) hstart
    have hallowed' := (hvisible s t hmatched e).mpr hallowed
    refine ⟨hallowed', ?_⟩
    obtain ⟨hrel, hk, hint⟩ := hmatched
    obtain ⟨m, k⟩ := s
    obtain ⟨a, _⟩ := t
    obtain rfl : k = _ := hk
    cases e with
    | none =>
      obtain ⟨a', k'⟩ := t'
      obtain ⟨m', hcode, hrel'⟩ := hoblivious.back m a k a' k' hrel hok
      exact ⟨(m', k'), hcode, hrel', rfl, hoblivious.ready m k m' k' hint hcode⟩
    | some e =>
      exact (service_matched hcompiled hkeeps hoblivious hrel hint hallowed').2 t' hok

end Runs

/-! ## Code that counts -/

/-- The instruction `addq $1, %rax`, again and again. -/
def counting (m : Machine) (k : Irqs Unit Unit) : Except Fault (Machine × Irqs Unit Unit) :=
  .ok ((Instr.addImm 1 .rax).exec m, k)

/-- Machines that differ in the part of the stack that interrupts use. -/
def SameAbove (room : ℕ) (m a : Machine) : Prop :=
  ∃ mem, a = { m with mem } ∧ ∀ b ∉ scratch room m, mem b = m.mem b

theorem counting_oblivious : Oblivious ∅ 0 sampleImage counting (SameAbove 0) where
  visible m a hR := by
    obtain ⟨mem, rfl, -⟩ := hR
    exact ⟨rfl, rfl⟩
  hidden m a mem' hR hmem := by
    obtain ⟨mem, rfl, hsame⟩ := hR
    exact ⟨mem, rfl, fun b hb => (hsame b hb).trans (hmem b (Set.notMem_empty b) hb).symm⟩
  forth m a k m' k' hR hok := by
    obtain ⟨mem, rfl, hsame⟩ := hR
    cases hok
    exact ⟨_, rfl, mem, rfl, hsame⟩
  back m a k a' k' hR hok := by
    obtain ⟨mem, rfl, hsame⟩ := hR
    cases hok
    exact ⟨_, rfl, mem, rfl, hsame⟩
  ready m k m' k' hint hok := by
    cases hok
    exact ⟨hint.idt, hint.enough, hint.outside, hint.table⟩

theorem sampleMachine_interruptible : Interruptible sampleImage ∅ 0 sampleMachine where
  idt := isrInit_ready fun _ _ _ => rfl
  enough := by decide
  outside b hmem := absurd hmem (Set.notMem_empty b)
  table b _ hlt := sampleMachine_table hlt

/-- The timer interrupts code that counts: the count is that of two steps. -/
theorem interrupted_iff_counting : ∃ s,
    Run (machineStep (plainBody (isrCommon fun _ => pitHandler)) sampleImage counting) Allowed
      (sampleMachine, sampleIrqs) [none, some ⟨32, none, false⟩, none] s ∧ s.1.reg .rax = 9 := by
  have hstart : SameAbove 0 sampleMachine sampleMachine := ⟨_, rfl, fun _ _ => rfl⟩
  obtain ⟨s, hrun, hmatched⟩ := (interrupted_iff (compiled_plainBody keepsFrame_pit) keepsFrame_pit
    counting_oblivious hstart sampleMachine_interruptible (k := sampleIrqs)
    [none, some ⟨32, none, false⟩, none]).2 _
    (.cons trivial rfl
      (.cons ⟨by decide, by decide, by decide, rfl, rfl⟩ rfl (.cons trivial rfl (.nil _))))
  refine ⟨s, hrun, ?_⟩
  rw [(counting_oblivious.visible _ _ hmatched.1).1]
  rfl

end Mimik.Isr
