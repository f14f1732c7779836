/-
# Programs that change a state and may fault

The rules used for programs of the type `Prog φ σ α`: they take a state of type
`σ` to a result and a new state, or end in a fault of type `φ`.

* `Triple` is partial correctness: what holds of the result whenever the program
  returns.
* `Total` is total correctness: the program returns, and the same holds.
* `Safe` is partial correctness together with the absence of one particular fault.
* `Sim` compares a program with a second one on another type of states, as an
  implementation and its abstraction.  The abstraction may give up with one
  particular fault, when the implementation does something it has no notion of;
  `stray` marks the states in which the implementation has done so, and `Keeps`
  says that a program never forgets the mark.
* `Transfers` is partial correctness of a program together with a second one: what the
  first returns, the second returns from the image of the state.
* `rounds` is a loop with a bound on the number of its rounds.  The bound is the
  termination measure of the loop; a loop that may not terminate takes it as fuel.

Nothing here mentions a particular component.
-/
import Mathlib.Tactic.Common

namespace FaultState

/-- Programs over states `σ` with faults `φ`. -/
abbrev Prog (φ σ : Type) : Type → Type := StateT σ (Except φ)

variable {φ σ τ α β γ δ : Type}

/-- The program that faults. -/
def fault (f : φ) : Prog φ σ α := fun _ => .error f

@[simp] theorem fault_apply (f : φ) (s : σ) : (fault f : Prog φ σ α) s = .error f := rfl

/-- A sequence returns exactly when its first part returns a value and a state from
which the second part returns. -/
theorem bind_eq_ok_iff {x : Prog φ σ α} {f : α → Prog φ σ β} {s : σ} {r : β × σ} :
    (x >>= f) s = .ok r ↔ ∃ a s', x s = .ok (a, s') ∧ f a s' = .ok r := by
  show (x s >>= fun p => f p.1 p.2) = .ok r ↔ _
  cases x s with
  | error e =>
    constructor
    · intro h; cases h
    · rintro ⟨a, s', ha, -⟩; cases ha
  | ok p =>
    constructor
    · intro h; exact ⟨p.1, p.2, rfl, h⟩
    · rintro ⟨a, s', ha, hr⟩; cases ha; exact hr

/-- A sequence faults when its first part faults. -/
theorem bind_eq_error {x : Prog φ σ α} {s : σ} {e : φ} (h : x s = .error e)
    (f : α → Prog φ σ β) : (x >>= f) s = .error e := by
  show (x s >>= fun p => f p.1 p.2) = .error e
  rw [h]
  rfl

/-- A sequence goes on from what its first part returned. -/
theorem bind_eq_of_ok {x : Prog φ σ α} {s s' : σ} {a : α} (h : x s = .ok (a, s'))
    (f : α → Prog φ σ β) : (x >>= f) s = f a s' := by
  show (x s >>= fun p => f p.1 p.2) = f a s'
  rw [h]
  rfl

/-- `pure` returns its value and leaves the state. -/
theorem pure_eq_ok_iff {a b : α} {s s' : σ} :
    (pure a : Prog φ σ α) s = .ok (b, s') ↔ b = a ∧ s' = s := by
  constructor
  · intro h; cases h; exact ⟨rfl, rfl⟩
  · rintro ⟨rfl, rfl⟩; rfl

/-! ## Loops -/

/-- What a round of a loop says about the rest of it. -/
inductive Flow (β γ : Type) where
  /-- Go on, with these values of the variables. -/
  | next (b : β)
  /-- Leave the loop with this result. -/
  | done (r : γ)

/-- At most `n` rounds of a loop; `fin` is the result when they are used up. -/
def rounds (body : β → Prog φ σ (Flow β γ)) (fin : β → Prog φ σ γ) : ℕ → β → Prog φ σ γ
  | 0, b => fin b
  | n + 1, b => do
    match ← body b with
    | .next b' => rounds body fin n b'
    | .done r => return r

/-- A round after which the loop goes on. -/
theorem rounds_of_next {body : β → Prog φ σ (Flow β γ)} {fin : β → Prog φ σ γ} {b b' : β}
    {s s' : σ} (h : body b s = .ok (.next b', s')) (n : ℕ) :
    rounds body fin (n + 1) b s = rounds body fin n b' s' := by
  rw [rounds, bind_eq_of_ok h]

/-- A round that leaves the loop. -/
theorem rounds_of_done {body : β → Prog φ σ (Flow β γ)} {fin : β → Prog φ σ γ} {b : β} {r : γ}
    {s s' : σ} (h : body b s = .ok (.done r, s')) (n : ℕ) :
    rounds body fin (n + 1) b s = .ok (r, s') := by
  rw [rounds, bind_eq_of_ok h]
  rfl

/-- The postcondition of a round: `I` if the loop goes on, `Q` if it is left. -/
def Flow.post (I : β → σ → Prop) (Q : γ → σ → Prop) : Flow β γ → σ → Prop
  | .next b, s => I b s
  | .done r, s => Q r s

/-! ## Partial correctness -/

/-- Started in a state that satisfies `P`, the program, if it returns, returns a
result and a state that satisfy `Q`. -/
structure Triple (P : σ → Prop) (x : Prog φ σ α) (Q : α → σ → Prop) : Prop where
  run : ∀ s, P s → ∀ a s', x s = .ok (a, s') → Q a s'

namespace Triple

variable {P P' : σ → Prop} {Q Q' : α → σ → Prop} {R : β → σ → Prop}

/-- The rule of consequence. -/
theorem mono {x : Prog φ σ α} (h : Triple P x Q) (hP : ∀ s, P' s → P s)
    (hQ : ∀ a s, Q a s → Q' a s) : Triple P' x Q' where
  run s hs a s' hok := hQ a s' (h.run s (hP s hs) a s' hok)

/-- The state at the start may be named. -/
theorem of_start {x : Prog φ σ α} (h : ∀ s, P s → Triple (fun s' => s' = s) x Q) :
    Triple P x Q where
  run s hs := (h s hs).run s rfl

/-- A program that is known to return in one way. -/
theorem of_apply {x : Prog φ σ α} (f : σ → α) (g : σ → σ) (hx : ∀ s, x s = .ok (f s, g s))
    (h : ∀ s, P s → Q (f s) (g s)) : Triple P x Q where
  run s hs a s' hok := by
    rw [hx s] at hok
    cases hok
    exact h s hs

protected theorem pure {a : α} (h : ∀ s, P s → Q a s) :
    Triple P (pure a : Prog φ σ α) Q where
  run s hs b s' hok := by
    rw [pure_eq_ok_iff] at hok
    rw [hok.1, hok.2]
    exact h s hs

protected theorem fault (f : φ) : Triple P (fault f : Prog φ σ α) Q where
  run s _ a s' hok := by cases hok

protected theorem bind {x : Prog φ σ α} {f : α → Prog φ σ β} (hx : Triple P x Q)
    (hf : ∀ a, Triple (Q a) (f a) R) : Triple P (x >>= f) R where
  run s hs b s' hok := by
    obtain ⟨a, s₁, hxok, hfok⟩ := bind_eq_ok_iff.mp hok
    exact (hf a).run s₁ (hx.run s hs a s₁ hxok) b s' hfok

protected theorem ite {c : Prop} [Decidable c] {x y : Prog φ σ α} (hx : c → Triple P x Q)
    (hy : ¬ c → Triple P y Q) : Triple P (if c then x else y) Q := by
  by_cases h : c
  · rw [if_pos h]; exact hx h
  · rw [if_neg h]; exact hy h

/-- The rule for loops: the invariant `I n b` speaks of the rounds that are left and
of the variables. -/
protected theorem rounds {body : β → Prog φ σ (Flow β α)} {fin : β → Prog φ σ α}
    (I : ℕ → β → σ → Prop)
    (hbody : ∀ n b, Triple (I (n + 1) b) (body b) (Flow.post (I n) Q))
    (hfin : ∀ b, Triple (I 0 b) (fin b) Q) (n : ℕ) (b : β) :
    Triple (I n b) (rounds body fin n b) Q := by
  induction n generalizing b with
  | zero => exact hfin b
  | succ n ih =>
    apply Triple.bind (hbody n b)
    intro flow
    cases flow with
    | next b' => exact ih b'
    | done r => exact Triple.pure fun s hs => hs

end Triple

/-! ## Total correctness -/

/-- Started in a state that satisfies `P`, the program returns a result and a state
that satisfy `Q`. -/
structure Total (P : σ → Prop) (x : Prog φ σ α) (Q : α → σ → Prop) : Prop where
  run : ∀ s, P s → ∃ a s', x s = .ok (a, s') ∧ Q a s'

namespace Total

variable {P P' : σ → Prop} {Q Q' : α → σ → Prop} {R : β → σ → Prop}

/-- The rule of consequence. -/
theorem mono {x : Prog φ σ α} (h : Total P x Q) (hP : ∀ s, P' s → P s)
    (hQ : ∀ a s, Q a s → Q' a s) : Total P' x Q' where
  run s hs := by
    obtain ⟨a, s', hok, hq⟩ := h.run s (hP s hs)
    exact ⟨a, s', hok, hQ a s' hq⟩

/-- The state at the start may be named. -/
theorem of_start {x : Prog φ σ α} (h : ∀ s, P s → Total (fun s' => s' = s) x Q) :
    Total P x Q where
  run s hs := (h s hs).run s rfl

/-- A program that is known to return in one way. -/
theorem of_apply {x : Prog φ σ α} (f : σ → α) (g : σ → σ) (hx : ∀ s, x s = .ok (f s, g s))
    (h : ∀ s, P s → Q (f s) (g s)) : Total P x Q where
  run s hs := ⟨f s, g s, hx s, h s hs⟩

protected theorem pure {a : α} (h : ∀ s, P s → Q a s) :
    Total P (pure a : Prog φ σ α) Q where
  run s hs := ⟨a, s, rfl, h s hs⟩

protected theorem bind {x : Prog φ σ α} {f : α → Prog φ σ β} (hx : Total P x Q)
    (hf : ∀ a, Total (Q a) (f a) R) : Total P (x >>= f) R where
  run s hs := by
    obtain ⟨a, s₁, hxok, hq⟩ := hx.run s hs
    obtain ⟨b, s₂, hfok, hr⟩ := (hf a).run s₁ hq
    exact ⟨b, s₂, bind_eq_ok_iff.mpr ⟨a, s₁, hxok, hfok⟩, hr⟩

protected theorem ite {c : Prop} [Decidable c] {x y : Prog φ σ α} (hx : c → Total P x Q)
    (hy : ¬ c → Total P y Q) : Total P (if c then x else y) Q := by
  by_cases h : c
  · rw [if_pos h]; exact hx h
  · rw [if_neg h]; exact hy h

/-- The rule for loops. -/
protected theorem rounds {body : β → Prog φ σ (Flow β α)} {fin : β → Prog φ σ α}
    (I : ℕ → β → σ → Prop)
    (hbody : ∀ n b, Total (I (n + 1) b) (body b) (Flow.post (I n) Q))
    (hfin : ∀ b, Total (I 0 b) (fin b) Q) (n : ℕ) (b : β) :
    Total (I n b) (rounds body fin n b) Q := by
  induction n generalizing b with
  | zero => exact hfin b
  | succ n ih =>
    apply Total.bind (hbody n b)
    intro flow
    cases flow with
    | next b' => exact ih b'
    | done r => exact Total.pure fun s hs => hs

end Total

/-! ## Faults that do not occur -/

/-- Started in a state that satisfies `P`, the program does not end in the fault `f`, and if it
returns, its result and its state satisfy `Q`. -/
structure Safe (f : φ) (P : σ → Prop) (x : Prog φ σ α) (Q : α → σ → Prop) : Prop
    extends Triple P x Q where
  safe : ∀ s, P s → x s ≠ .error f

namespace Safe

variable {f : φ} {P P' : σ → Prop} {Q Q' : α → σ → Prop} {R : β → σ → Prop}

/-- The rule of consequence. -/
theorem mono {x : Prog φ σ α} (h : Safe f P x Q) (hP : ∀ s, P' s → P s)
    (hQ : ∀ a s, Q a s → Q' a s) : Safe f P' x Q' where
  toTriple := h.toTriple.mono hP hQ
  safe s hs := h.safe s (hP s hs)

/-- The state at the start may be named. -/
theorem of_start {x : Prog φ σ α} (h : ∀ s, P s → Safe f (fun s' => s' = s) x Q) :
    Safe f P x Q where
  run s hs := (h s hs).run s rfl
  safe s hs := (h s hs).safe s rfl

protected theorem pure {a : α} (h : ∀ s, P s → Q a s) :
    Safe f P (pure a : Prog φ σ α) Q where
  toTriple := Triple.pure h
  safe s _ hs := by cases hs

/-- A program that returns does not fault. -/
theorem of_total {x : Prog φ σ α} (h : Total P x Q) : Safe f P x Q where
  run s hs a s' hok := by
    obtain ⟨b, s₁, hok', hq⟩ := h.run s hs
    rw [hok] at hok'
    cases hok'
    exact hq
  safe s hs hfault := by
    obtain ⟨b, s₁, hok, -⟩ := h.run s hs
    rw [hfault] at hok
    cases hok

protected theorem fault {g : φ} (hne : g ≠ f) : Safe f P (fault g : Prog φ σ α) Q where
  toTriple := Triple.fault g
  safe s _ hs := hne (by cases hs; rfl)

protected theorem bind {x : Prog φ σ α} {g : α → Prog φ σ β} (hx : Safe f P x Q)
    (hg : ∀ a, Safe f (Q a) (g a) R) : Safe f P (x >>= g) R where
  toTriple := Triple.bind hx.toTriple fun a => (hg a).toTriple
  safe s hs hfault := by
    cases hxs : x s with
    | error e =>
      rw [bind_eq_error hxs] at hfault
      cases hfault
      exact hx.safe s hs hxs
    | ok r =>
      rw [bind_eq_of_ok hxs] at hfault
      exact (hg r.1).safe r.2 (hx.run s hs r.1 r.2 hxs) hfault

protected theorem ite {c : Prop} [Decidable c] {x y : Prog φ σ α} (hx : c → Safe f P x Q)
    (hy : ¬ c → Safe f P y Q) : Safe f P (if c then x else y) Q := by
  by_cases h : c
  · rw [if_pos h]; exact hx h
  · rw [if_neg h]; exact hy h

/-- The rule for loops. -/
protected theorem rounds {body : β → Prog φ σ (Flow β α)} {fin : β → Prog φ σ α}
    (I : β → σ → Prop) (hbody : ∀ b, Safe f (I b) (body b) (Flow.post I Q))
    (hfin : ∀ b, Safe f (I b) (fin b) Q) (n : ℕ) (b : β) :
    Safe f (I b) (rounds body fin n b) Q := by
  induction n generalizing b with
  | zero => exact hfin b
  | succ n ih =>
    apply Safe.bind (hbody b)
    intro flow
    cases flow with
    | next b' => exact ih b'
    | done r => exact Safe.pure fun s hs => hs

end Safe

/-! ## Marks that are never forgotten -/

/-- A state that carries the mark still carries it when the program returns. -/
abbrev Keeps (stray : σ → Prop) (x : Prog φ σ α) : Prop := Triple stray x fun _ s => stray s

namespace Keeps

variable {stray : σ → Prop}

protected theorem pure (a : α) : Keeps stray (pure a : Prog φ σ α) := Triple.pure fun _ h => h

protected theorem fault (f : φ) : Keeps stray (fault f : Prog φ σ α) := Triple.fault f

protected theorem bind {x : Prog φ σ α} {f : α → Prog φ σ β} (hx : Keeps stray x)
    (hf : ∀ a, Keeps stray (f a)) : Keeps stray (x >>= f) := Triple.bind hx hf

protected theorem ite {c : Prop} [Decidable c] {x y : Prog φ σ α} (hx : Keeps stray x)
    (hy : Keeps stray y) : Keeps stray (if c then x else y) :=
  Triple.ite (fun _ => hx) fun _ => hy

protected theorem rounds {body : β → Prog φ σ (Flow β α)} {fin : β → Prog φ σ α}
    (hbody : ∀ b, Keeps stray (body b)) (hfin : ∀ b, Keeps stray (fin b)) (n : ℕ) (b : β) :
    Keeps stray (rounds body fin n b) := by
  apply Triple.rounds (fun _ _ => stray)
  · intro n b
    apply (hbody b).mono fun _ h => h
    intro flow s h
    cases flow with
    | next b' => exact h
    | done r => exact h
  · exact hfin

end Keeps

/-! ## Simulation -/

/-- `x` does on states `σ` what `y` does on states `τ`: from states related by `P`,
whenever `x` returns, so does `y`, with results and states related by `Q`, unless `y`
gives up with the fault `out` and `x` has strayed; and if there is `room`, then `x`
returns whenever `y` does. -/
structure Sim (stray : σ → Prop) (out : φ) (room : Prop) (P : σ → τ → Prop)
    (x : Prog φ σ α) (y : Prog φ τ β) (Q : α → β → σ → τ → Prop) : Prop where
  back : ∀ s t, P s t → ∀ a s', x s = .ok (a, s') →
    (∃ b t', y t = .ok (b, t') ∧ Q a b s' t') ∨ (y t = .error out ∧ stray s')
  forth : room → ∀ s t, P s t → ∀ b t', y t = .ok (b, t') →
    ∃ a s', x s = .ok (a, s') ∧ Q a b s' t'

/-- Two programs with equal results that preserve the relation `R`. -/
abbrev Same (stray : σ → Prop) (out : φ) (room : Prop) (R : σ → τ → Prop)
    (x : Prog φ σ α) (y : Prog φ τ α) : Prop :=
  Sim stray out room R x y fun a b s t => a = b ∧ R s t

namespace Sim

variable {stray : σ → Prop} {out : φ} {room room' : Prop} {P P' R : σ → τ → Prop}
  {Q Q' : α → β → σ → τ → Prop} {S : γ → δ → σ → τ → Prop}

/-- The rule of consequence. -/
theorem mono {x : Prog φ σ α} {y : Prog φ τ β} (h : Sim stray out room P x y Q)
    (hroom : room' → room) (hP : ∀ s t, P' s t → P s t)
    (hQ : ∀ a b s t, Q a b s t → Q' a b s t) : Sim stray out room' P' x y Q' where
  back s t hs a s' hok := by
    rcases h.back s t (hP s t hs) a s' hok with ⟨b, t', hy, hq⟩ | hout
    · exact .inl ⟨b, t', hy, hQ a b s' t' hq⟩
    · exact .inr hout
  forth hr s t hs b t' hok := by
    obtain ⟨a, s', hx, hq⟩ := h.forth (hroom hr) s t (hP s t hs) b t' hok
    exact ⟨a, s', hx, hQ a b s' t' hq⟩

/-- A fact that follows from the precondition may be assumed. -/
theorem assume {c : Prop} {x : Prog φ σ α} {y : Prog φ τ β} (hc : ∀ s t, P s t → c)
    (h : c → Sim stray out room P x y Q) : Sim stray out room P x y Q where
  back s t hs := (h (hc s t hs)).back s t hs
  forth hr s t hs := (h (hc s t hs)).forth hr s t hs

protected theorem pure {a : α} {b : β} (h : ∀ s t, P s t → Q a b s t) :
    Sim stray out room P (pure a : Prog φ σ α) (pure b : Prog φ τ β) Q where
  back s t hs a' s' hok := by
    rw [pure_eq_ok_iff] at hok
    rw [hok.1, hok.2]
    exact .inl ⟨b, t, rfl, h s t hs⟩
  forth _ s t hs b' t' hok := by
    rw [pure_eq_ok_iff] at hok
    rw [hok.1, hok.2]
    exact ⟨a, s, rfl, h s t hs⟩

/-- The same case distinction on both sides. -/
protected theorem ite {c : Prop} [Decidable c] {x x' : Prog φ σ α} {y y' : Prog φ τ β}
    (hxy : c → Sim stray out room P x y Q) (hxy' : ¬ c → Sim stray out room P x' y' Q) :
    Sim stray out room P (if c then x else x') (if c then y else y') Q := by
  by_cases h : c
  · rw [if_pos h, if_pos h]; exact hxy h
  · rw [if_neg h, if_neg h]; exact hxy' h

/-- Sequences simulate part by part; the second part of the implementation must keep
the mark, for the case that the first part has strayed. -/
protected theorem bind {x : Prog φ σ α} {y : Prog φ τ β} {f : α → Prog φ σ γ}
    {g : β → Prog φ τ δ} (hxy : Sim stray out room P x y Q) (hf : ∀ a, Keeps stray (f a))
    (hfg : ∀ a b, Sim stray out room (Q a b) (f a) (g b) S) :
    Sim stray out room P (x >>= f) (y >>= g) S where
  back s t hs c s' hok := by
    obtain ⟨a, s₁, hx, hfok⟩ := bind_eq_ok_iff.mp hok
    rcases hxy.back s t hs a s₁ hx with ⟨b, t₁, hy, hq⟩ | ⟨hy, hstray⟩
    · rcases (hfg a b).back s₁ t₁ hq c s' hfok with ⟨d, t', hg, hS⟩ | ⟨hg, hstray⟩
      · exact .inl ⟨d, t', bind_eq_ok_iff.mpr ⟨b, t₁, hy, hg⟩, hS⟩
      · exact .inr ⟨(bind_eq_of_ok hy g).trans hg, hstray⟩
    · exact .inr ⟨bind_eq_error hy g, (hf a).run s₁ hstray c s' hfok⟩
  forth hr s t hs d t' hok := by
    obtain ⟨b, t₁, hy, hgok⟩ := bind_eq_ok_iff.mp hok
    obtain ⟨a, s₁, hx, hq⟩ := hxy.forth hr s t hs b t₁ hy
    obtain ⟨c, s', hfok, hS⟩ := (hfg a b).forth hr s₁ t₁ hq d t' hgok
    exact ⟨c, s', bind_eq_ok_iff.mpr ⟨a, s₁, hx, hfok⟩, hS⟩

/-- Sequences of programs with equal results. -/
theorem same_bind {x : Prog φ σ α} {y : Prog φ τ α} {f : α → Prog φ σ γ}
    {g : α → Prog φ τ δ} (hxy : Same stray out room R x y) (hf : ∀ a, Keeps stray (f a))
    (hfg : ∀ a, Sim stray out room R (f a) (g a) S) :
    Sim stray out room R (x >>= f) (y >>= g) S := by
  apply Sim.bind hxy hf
  intro a b
  constructor
  · rintro s t ⟨rfl, hs⟩
    exact (hfg a).back s t hs
  · rintro hr s t ⟨rfl, hs⟩
    exact (hfg a).forth hr s t hs

/-- A program that never returns has nothing to simulate, when its counterpart never
returns either. -/
theorem of_fault {x : Prog φ σ α} {y : Prog φ τ β} (hx : ∀ s a s', x s ≠ .ok (a, s'))
    (hy : ∀ t b t', y t ≠ .ok (b, t')) : Sim stray out room P x y Q where
  back s _ _ a s' hok := absurd hok (hx s a s')
  forth _ _ t _ b t' hok := absurd hok (hy t b t')

/-- Loops simulate round by round. -/
theorem rounds {body : β → Prog φ σ (Flow β α)} {body' : β → Prog φ τ (Flow β α)}
    {fin : β → Prog φ σ α} {fin' : β → Prog φ τ α}
    (hkeeps : ∀ b, Keeps stray (body b)) (hkeepsFin : ∀ b, Keeps stray (fin b))
    (hbody : ∀ b, Same stray out room R (body b) (body' b))
    (hfin : ∀ b, Same stray out room R (fin b) (fin' b)) (n : ℕ) (b : β) :
    Same stray out room R (rounds body fin n b) (rounds body' fin' n b) := by
  induction n generalizing b with
  | zero => exact hfin b
  | succ n ih =>
    apply same_bind (hbody b)
    · intro flow
      cases flow with
      | next b' => exact Keeps.rounds hkeeps hkeepsFin n b'
      | done r => exact Keeps.pure r
    · intro flow
      cases flow with
      | next b' => exact ih b'
      | done r => exact Sim.pure fun s t h => ⟨rfl, h⟩

end Sim

/-! ## Runs transferred to other states -/

/-- Partial correctness of `x`; and from the images of the states that satisfy `P`, the program
`y` returns what `x` returns, and leaves the image of the state that `x` leaves. -/
structure Transfers (c : σ → τ) (P : σ → Prop) (x : Prog φ σ α) (y : Prog φ τ α)
    (Q : α → σ → Prop) : Prop extends Triple P x Q where
  transfers : ∀ s, P s → ∀ a s', x s = .ok (a, s') → y (c s) = .ok (a, c s')

namespace Transfers

variable {c : σ → τ} {P P' : σ → Prop} {Q Q' : α → σ → Prop} {R : β → σ → Prop}

/-- The rule of consequence. -/
theorem mono {x : Prog φ σ α} {y : Prog φ τ α} (h : Transfers c P x y Q) (hP : ∀ s, P' s → P s)
    (hQ : ∀ a s, Q a s → Q' a s) : Transfers c P' x y Q' where
  toTriple := h.toTriple.mono hP hQ
  transfers s hs := h.transfers s (hP s hs)

/-- The state at the start may be named. -/
theorem of_start {x : Prog φ σ α} {y : Prog φ τ α}
    (h : ∀ s, P s → Transfers c (fun s' => s' = s) x y Q) : Transfers c P x y Q where
  toTriple := Triple.of_start fun s hs => (h s hs).toTriple
  transfers s hs := (h s hs).transfers s rfl

/-- Programs that are known to return in one way. -/
theorem of_apply {x : Prog φ σ α} {y : Prog φ τ α} (f : σ → α) (g : σ → σ)
    (hx : ∀ s, x s = .ok (f s, g s)) (hy : ∀ s, P s → y (c s) = .ok (f s, c (g s)))
    (h : ∀ s, P s → Q (f s) (g s)) : Transfers c P x y Q where
  toTriple := Triple.of_apply f g hx h
  transfers s hs a s' hok := by
    rw [hx s] at hok
    cases hok
    exact hy s hs

protected theorem refl (P : σ → Prop) (x : Prog φ σ α) : Transfers id P x x fun _ _ => True where
  run _ _ _ _ _ := trivial
  transfers _ _ _ _ hok := hok

protected theorem pure {a : α} (h : ∀ s, P s → Q a s) :
    Transfers c P (pure a : Prog φ σ α) (pure a : Prog φ τ α) Q where
  toTriple := Triple.pure h
  transfers s _ b s' hok := by
    rw [pure_eq_ok_iff] at hok
    rw [hok.1, hok.2]
    rfl

protected theorem fault {y : Prog φ τ α} (f : φ) : Transfers c P (fault f : Prog φ σ α) y Q where
  toTriple := Triple.fault f
  transfers s _ a s' hok := by cases hok

protected theorem bind {x : Prog φ σ α} {y : Prog φ τ α} {f : α → Prog φ σ β}
    {g : α → Prog φ τ β} (hxy : Transfers c P x y Q) (hfg : ∀ a, Transfers c (Q a) (f a) (g a) R) :
    Transfers c P (x >>= f) (y >>= g) R where
  toTriple := Triple.bind hxy.toTriple fun a => (hfg a).toTriple
  transfers s hs b s' hok := by
    obtain ⟨a, s₁, hx, hf⟩ := bind_eq_ok_iff.mp hok
    rw [bind_eq_of_ok (hxy.transfers s hs a s₁ hx)]
    exact (hfg a).transfers s₁ (hxy.run s hs a s₁ hx) b s' hf

/-- The same case distinction on both sides. -/
protected theorem ite {d : Prop} [Decidable d] {x x' : Prog φ σ α} {y y' : Prog φ τ α}
    (hxy : d → Transfers c P x y Q) (hxy' : ¬ d → Transfers c P x' y' Q) :
    Transfers c P (if d then x else x') (if d then y else y') Q := by
  by_cases h : d
  · rw [if_pos h, if_pos h]; exact hxy h
  · rw [if_neg h, if_neg h]; exact hxy' h

/-- Loops are carried round by round. -/
protected theorem rounds {body : β → Prog φ σ (Flow β α)} {body' : β → Prog φ τ (Flow β α)}
    {fin : β → Prog φ σ α} {fin' : β → Prog φ τ α} (I : β → σ → Prop)
    (hbody : ∀ b, Transfers c (I b) (body b) (body' b) (Flow.post I Q))
    (hfin : ∀ b, Transfers c (I b) (fin b) (fin' b) Q) (n : ℕ) (b : β) :
    Transfers c (I b) (rounds body fin n b) (rounds body' fin' n b) Q := by
  induction n generalizing b with
  | zero => exact hfin b
  | succ n ih =>
    apply Transfers.bind (hbody b)
    intro flow
    cases flow with
    | next b' => exact ih b'
    | done r => exact Transfers.pure fun s hs => hs

end Transfers

end FaultState
