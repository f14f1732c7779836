/-
# Runs of a partial step function

A component is driven by events.  A step takes the state before an event to the
state after it, or ends in a fault (an assertion that halts the machine, a loop
that never ends): then there is no state after it and the run is over.  `Run`
collects the runs in which every event satisfies a guard that may look at the
state before it, and `Run.invariant` is the induction behind every statement
about all reachable states.

Nothing here mentions a particular component.
-/
import Mathlib.Tactic.Common

universe u v

/-! ## Sequencing of steps that may fault -/

/-- A sequence of two computations returns exactly when the first returns a value
from which the second returns. -/
theorem Except.bind_eq_ok_iff {α β : Type u} {φ : Type v} {x : Except φ α}
    {f : α → Except φ β} {b : β} :
    (x >>= f) = .ok b ↔ ∃ a, x = .ok a ∧ f a = .ok b := by
  cases x with
  | error e =>
    constructor
    · intro h; cases h
    · rintro ⟨a, ha, -⟩; cases ha
  | ok a =>
    constructor
    · intro h; exact ⟨a, rfl, h⟩
    · rintro ⟨a', ha, hb⟩; cases ha; exact hb

/-- What a test finds in the result of a computation that returns. -/
theorem Except.exists_of_any {α : Type u} {φ : Type v} {x : Except φ α} {test : α → Bool}
    (h : x.toOption.any test = true) : ∃ a, x = .ok a ∧ test a = true := by
  cases x with
  | error e => exact absurd h (by simp [Except.toOption])
  | ok a => exact ⟨a, rfl, by simpa [Except.toOption] using h⟩

namespace GuardedRun

variable {σ : Type u} {ε : Type v} {φ : Type*}

/-- `Run step guard s es s'`: started in `s`, the events `es` are executed one
after the other, the guard holds of each of them in the state it finds, every
step returns, and the last one leaves `s'`. -/
inductive Run (step : σ → ε → Except φ σ) (guard : σ → ε → Prop) :
    σ → List ε → σ → Prop
  | nil (s : σ) : Run step guard s [] s
  | cons {s s₁ s₂ : σ} {e : ε} {es : List ε} :
      guard s e → step s e = .ok s₁ → Run step guard s₁ es s₂ →
      Run step guard s (e :: es) s₂

variable {step : σ → ε → Except φ σ} {guard guard' : σ → ε → Prop}

/-- **The run rule.**  What one guarded step preserves, every guarded run
preserves. -/
theorem Run.invariant {I : σ → Prop}
    (hstep : ∀ s e s', I s → guard s e → step s e = .ok s' → I s')
    {s s' : σ} {es : List ε} (hrun : Run step guard s es s') (hs : I s) : I s' := by
  induction hrun with
  | nil => exact hs
  | cons hg hok _ ih => exact ih (hstep _ _ _ hs hg hok)

/-- A guard may be weakened. -/
theorem Run.mono (himp : ∀ s e, guard s e → guard' s e) {s s' : σ} {es : List ε}
    (hrun : Run step guard s es s') : Run step guard' s es s' := by
  induction hrun with
  | nil s => exact .nil s
  | cons hg hok _ ih => exact .cons (himp _ _ hg) hok ih

/-- One more event at the end of a run. -/
theorem Run.snoc {s s₁ s₂ : σ} {es : List ε} {e : ε} (hrun : Run step guard s es s₁)
    (hguard : guard s₁ e) (hstep : step s₁ e = .ok s₂) : Run step guard s (es ++ [e]) s₂ := by
  induction hrun with
  | nil => exact .cons hguard hstep (.nil _)
  | cons hg hok _ ih => exact .cons hg hok (ih hguard hstep)

/-- **The simulation rule.**  Where each guarded step of one system is matched by a guarded step of
another one for the same event, so is each run. -/
theorem Run.simulate {τ : Type*} {step' : τ → ε → Except φ τ} {guard' : τ → ε → Prop}
    {S : σ → τ → Prop}
    (hstep : ∀ s t e s', S s t → guard s e → step s e = .ok s' →
      guard' t e ∧ ∃ t', step' t e = .ok t' ∧ S s' t')
    {s s' : σ} {t : τ} {es : List ε} (hrun : Run step guard s es s') (hS : S s t) :
    ∃ t', Run step' guard' t es t' ∧ S s' t' := by
  induction hrun generalizing t with
  | nil => exact ⟨t, .nil t, hS⟩
  | cons hg hok _ ih =>
    obtain ⟨hg', t₁, hok', hS₁⟩ := hstep _ _ _ _ hS hg hok
    obtain ⟨t', hrun', hS'⟩ := ih hS₁
    exact ⟨t', .cons hg' hok' hrun', hS'⟩

/-- The run of a list of events, computed. -/
def exec (step : σ → ε → Except φ σ) : σ → List ε → Except φ σ
  | s, [] => .ok s
  | s, e :: es =>
    match step s e with
    | .ok s₁ => exec step s₁ es
    | .error f => .error f

/-- A computed run is a run, when its events are allowed in every state. -/
theorem Run.of_exec {s s' : σ} {es : List ε} (hguard : ∀ e ∈ es, ∀ s, guard s e)
    (hexec : exec step s es = .ok s') : Run step guard s es s' := by
  induction es generalizing s with
  | nil => cases hexec; exact .nil _
  | cons e es ih =>
    rw [exec] at hexec
    split at hexec
    next s₁ hstep =>
      exact .cons (hguard e List.mem_cons_self s) hstep
        (ih (fun e' he' => hguard e' (List.mem_cons_of_mem _ he')) hexec)
    next => cases hexec

/-- What a test finds at the end of a computed run holds at the end of a run. -/
theorem Run.exists_of_exec (test : σ → Bool) {s : σ} {es : List ε}
    (hguard : ∀ e ∈ es, ∀ s, guard s e)
    (htest : (exec step s es).toOption.any test = true) :
    ∃ s', Run step guard s es s' ∧ test s' = true := by
  obtain ⟨s', hexec, htest⟩ := Except.exists_of_any htest
  exact ⟨s', .of_exec hguard hexec, htest⟩

end GuardedRun
