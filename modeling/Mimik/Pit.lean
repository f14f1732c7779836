/-
# The timer (`cpu/pit.c`)

`pit_set_period_us` writes a divisor of the timer's frequency, the low byte first.  The
divisor for a period is the product of the frequency and the period; what is written is their
quotient, and it is written to the port `PIT_CHANNEL_CH0`, which is a field of the command
byte, in place of `PIT_CH0`.
-/
import Mimik.Basic
import Mathlib.Tactic.IntervalCases

namespace Mimik.Pit

/-! ## The functions -/

/-- What was written to ports, in order. -/
abbrev Outputs := List (BitVec 16 × BitVec 8)

/-- `PIT_CH0`. -/
def pitCh0 : BitVec 16 := 0x40

/-- `PIT_CHANNEL_CH0`. -/
def pitChannelCh0 : BitVec 16 := 0 <<< 6

/-- `PIT_FREQ`. -/
def pitFreq : BitVec 64 := 1193182

/-- `pit_set_period_us`: what it writes. -/
def pitSetPeriodUs (us : BitVec 64) : Except Fault Outputs := do
  if us = 0 then .error (.wild "PIT_FREQ / us")
  let div := (pitFreq / us).setWidth 16
  assert (1 < div) "div > 1"
  return [(pitChannelCh0, (div &&& 0xff).setWidth 8), (pitChannelCh0, (div >>> 8).setWidth 8)]

/-- `pit_set_period_ms`. -/
def pitSetPeriodMs (ms : BitVec 64) : Except Fault Outputs := pitSetPeriodUs (ms * 1000)

/-! ## Periods -/

/-- The divisor for a period of `us` microseconds goes to the data port of channel 0, the low byte
and then the high byte. -/
def IsPeriod (out : Outputs) (us : ℕ) : Prop :=
  ∃ low high : BitVec 8, out = [(pitCh0, low), (pitCh0, high)] ∧
    low.toNat + 256 * high.toNat = 1193182 * us / 1000000

/-- The value of two bytes that are written one after the other. -/
def written : Outputs → ℕ
  | [(_, low), (_, high)] => low.toNat + 256 * high.toNat
  | _ => 0

/-- Nothing is lost of the two bytes of a word. -/
theorem bytes_toNat (div : BitVec 16) :
    ((div &&& 0xff).setWidth 8).toNat + 256 * ((div >>> 8).setWidth 8).toNat = div.toNat := by
  have hlt := div.isLt
  have hmask : (div &&& 0xff).toNat = div.toNat % 2 ^ 8 := by
    rw [BitVec.toNat_and]
    exact Nat.and_two_pow_sub_one_eq_mod _ 8
  rw [BitVec.toNat_setWidth, BitVec.toNat_setWidth, hmask, BitVec.toNat_ushiftRight,
    Nat.shiftRight_eq_div_pow]
  omega

/-- **What is written**, to the port 0: the lowest 16 bits of the quotient. -/
theorem pitSetPeriodUs_eq_ok {us : BitVec 64} {out : Outputs} :
    pitSetPeriodUs us = .ok out → us ≠ 0 ∧ 1 < 1193182 / us.toNat % 2 ^ 16 ∧
      (∃ low high, out = [(0, low), (0, high)]) ∧ written out = 1193182 / us.toNat % 2 ^ 16 := by
  intro hrun
  rw [pitSetPeriodUs] at hrun
  have hdiv : ((pitFreq / us).setWidth 16).toNat = 1193182 / us.toNat % 2 ^ 16 := by
    rw [BitVec.toNat_setWidth, BitVec.toNat_udiv]
    rfl
  by_cases hzero : us = 0
  · rw [if_pos hzero] at hrun
    cases hrun
  · rw [if_neg hzero] at hrun
    by_cases hlt : 1 < (pitFreq / us).setWidth 16
    · simp only [hlt, decide_true, assert_true, bind, Except.bind, pure, Except.pure,
        Except.ok.injEq] at hrun
      have hlt' : 1 < ((pitFreq / us).setWidth 16).toNat := hlt
      subst hrun
      refine ⟨hzero, hdiv ▸ hlt', ⟨_, _, rfl⟩, ?_⟩
      rw [← hdiv]
      exact bytes_toNat _
    · simp only [hlt, decide_false, assert_false, bind, Except.bind] at hrun
      cases hrun

/-- The quotient is the product for one period, of a millisecond. -/
theorem quotient_eq_product_iff {us : ℕ} (hus : 0 < us) :
    1193182 / us % 2 ^ 16 = 1193182 * us / 1000000 ↔ us = 1000 := by
  constructor
  · intro heq
    by_contra hne
    rcases Nat.lt_or_ge us 19 with hlt | hge
    · interval_cases us <;> omega
    · have hsmall : 1193182 / us ≤ 62799 := Nat.div_le_div_left hge (by decide)
      rw [Nat.mod_eq_of_lt (by omega)] at heq
      -- the quotient falls and the product grows, and they meet at 1000
      rcases Nat.lt_or_gt_of_ne hne with hbelow | habove
      · have hquot : 1193182 / 999 ≤ 1193182 / us := Nat.div_le_div_left (by omega) hus
        omega
      · have hquot : 1193182 / us ≤ 1193182 / 1001 := Nat.div_le_div_left habove (by decide)
        omega
  · rintro rfl
    rfl

/-- **No period is set**: whatever the call writes goes to the port 0; and it is the divisor of
another period, unless a millisecond was asked for. -/
theorem no_period_set (us ms : BitVec 64) (out : Outputs) :
    (pitSetPeriodUs us = .ok out → ¬ IsPeriod out us.toNat ∧
      (written out = 1193182 * us.toNat / 1000000 ↔ us.toNat = 1000)) ∧
    (1000 * ms.toNat < 2 ^ 64 → pitSetPeriodMs ms = .ok out →
      ¬ IsPeriod out (1000 * ms.toNat)) := by
  have hports : ∀ us, pitSetPeriodUs us = .ok out → ∀ us', ¬ IsPeriod out us' := by
    rintro us hrun us' ⟨low, high, hout, -⟩
    obtain ⟨-, -, ⟨low', high', hout'⟩, -⟩ := pitSetPeriodUs_eq_ok hrun
    rw [hout', List.cons.injEq, Prod.mk.injEq] at hout
    exact absurd hout.1.1 (by decide)
  constructor
  · intro hrun
    refine ⟨hports us hrun _, ?_⟩
    obtain ⟨hne, -, -, hwritten⟩ := pitSetPeriodUs_eq_ok hrun
    rw [hwritten]
    exact quotient_eq_product_iff (Nat.pos_of_ne_zero fun h => hne (BitVec.eq_of_toNat_eq h))
  · intro _ hrun
    exact hports (ms * 1000) hrun _

/-- A millisecond has its divisor, at the wrong port. -/
theorem no_period_set_millisecond : ¬ IsPeriod [(0, 169), (0, 4)] 1000 ∧
    ¬ IsPeriod [(0, 169), (0, 4)] (1000 * 1) :=
  ⟨((no_period_set 1000 1 _).1 rfl).1, (no_period_set 1000 1 _).2 (by decide) rfl⟩

/-- `pit_init` asks for 10 ms: 119 is written in place of 11931. -/
theorem wrong_period_ten : ∃ out, pitSetPeriodMs 10 = .ok out ∧ ¬ IsPeriod out (1000 * 10) := by
  refine ⟨[(0, 119), (0, 0)], rfl, ?_⟩
  rintro ⟨low, high, hout, -⟩
  rw [List.cons.injEq, Prod.mk.injEq] at hout
  exact absurd hout.1.1 (by decide)

end Mimik.Pit
