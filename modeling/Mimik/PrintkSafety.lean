/-
# The end of the format

`printk` reads behind the NUL byte of its format exactly when the format ends in a
directive: the NUL byte is then the character that ends the directive, and the loop goes
on to the next one.  What can keep it from getting there is an assertion of
`print_unsigned`, which halts the machine at a directive with too many leading zeros.

Both conditions are about the format alone.  About the arguments it is assumed that there
is one for each directive that takes one, and that the argument of a `%s` without a length
is a string with a NUL byte.
-/
import Mimik.Printk

namespace Mimik.Printk

open Mem

/-! ## Formats -/

/-- The place is inside a directive. -/
def Place.isDirective : Place → Bool
  | .text => false
  | .directive _ _ => true

/-- The format ends inside a directive: behind its last `%` that is not the end of a directive
there are only modifiers. -/
def EndsInside (s : List Char8) : Prop := (s.foldl Place.next .text).isDirective = true

/-- A `u` or `d` that asks for more leading zeros than `print_unsigned` has room for. -/
def Place.halts : Place → Char8 → Bool
  | .text, _ => false
  | .directive f digits, c =>
    (modifier f digits c).isNone && (c = ascii 'u' || c = ascii 'd') &&
      bufSize < f.leadingZeros

/-- Such a directive is in the rest of a format, from a place on. -/
def Halts : Place → List Char8 → Prop
  | _, [] => False
  | p, c :: s => p.halts c = true ∨ Halts (p.next c) s

/-- The characters that end a directive and take an argument. -/
def takesArg (c : Char8) : Bool :=
  c = ascii 'b' || c = ascii 'd' || c = ascii 'u' || c = ascii 'x' || c = ascii 'X' ||
    c = ascii 'p' || c = ascii 'P' || c = ascii 's' || c = ascii 'c'

/-- There is a NUL byte at the address or behind it. -/
def Terminated (m : Memory) (str : BitVec 64) : Prop := ∃ n : ℕ, m (str + BitVec.ofNat 64 n) = 0

/-- The arguments match the directives of the rest of a format, from a place on. -/
def Matches (m : Memory) : Place → List (BitVec 64) → List Char8 → Prop
  | _, _, [] => True
  | .text, ap, c :: s => Matches m (Place.text.next c) ap s
  | .directive f digits, ap, c :: s =>
    match modifier f digits c with
    | some (f, digits) => Matches m (.directive f digits) ap s
    | none =>
      if takesArg c then
        ∃ slot ap', ap = slot :: ap' ∧
          (c = ascii 's' → f.stringLength = 0 → Terminated m slot) ∧ Matches m .text ap' s
      else Matches m .text ap s

/-! ## What the functions print -/

section Prints

variable {m : Memory} {fuel : ℕ}

/-- The digits of a number fit in `cs`. -/
theorem fillDigits_ok (digit : BitVec 64 → Char8) {next : BitVec 64 → BitVec 64}
    (hnext : ∀ n, (next n).toNat ≤ n.toNat / 2) {room : ℕ} {n : BitVec 64}
    (hn : n.toNat < 2 ^ room) : ∃ cs, fillDigits digit next room n = .ok cs := by
  induction room generalizing n with
  | zero =>
    have hzero : n = 0 := BitVec.eq_of_toNat_eq (by simpa using hn)
    exact ⟨[], by rw [fillDigits, if_pos hzero]; rfl⟩
  | succ room ih =>
    by_cases hzero : n = 0
    · exact ⟨[], by rw [fillDigits, if_pos hzero]; rfl⟩
    · rw [Nat.pow_succ] at hn
      have hle := hnext n
      obtain ⟨cs, hcs⟩ := ih (n := next n) (by omega)
      refine ⟨digit n :: cs, ?_⟩
      rw [fillDigits, if_neg hzero]
      simp only [hcs]
      rfl

/-- `print_unsigned` halts when too many leading zeros are asked for, and returns otherwise. -/
theorem printUnsigned_cases (zeros : ℕ) (n : BitVec 64) :
    (bufSize < zeros ∧ ∃ e, printUnsigned zeros n = .error (.assertion e)) ∨
      (zeros ≤ bufSize ∧ ∃ cs, printUnsigned zeros n = .ok cs) := by
  rw [printUnsigned]
  by_cases hzeros : zeros ≤ bufSize
  · right
    have hnext : ∀ n : BitVec 64, (n / 10).toNat ≤ n.toNat / 2 := fun n => by
      rw [BitVec.toNat_udiv]
      exact Nat.div_le_div_left (by decide) (by decide)
    obtain ⟨cs, hcs⟩ := fillDigits_ok decimalDigit hnext n.isLt
    rw [decide_eq_true hzeros, assert_true, bufSize, hcs]
    exact ⟨hzeros, _, rfl⟩
  · left
    rw [decide_eq_false hzeros, assert_false]
    exact ⟨by omega, _, rfl⟩

/-- So does `print_decimal`. -/
theorem printDecimal_cases (zeros : ℕ) (n : BitVec 64) :
    (bufSize < zeros ∧ ∃ e, printDecimal zeros n = .error (.assertion e)) ∨
      (zeros ≤ bufSize ∧ ∃ cs, printDecimal zeros n = .ok cs) := by
  rw [printDecimal]
  split
  · rcases printUnsigned_cases zeros (-n) with ⟨hlt, e, he⟩ | ⟨hle, cs, hcs⟩
    · exact .inl ⟨hlt, e, by rw [he]; rfl⟩
    · exact .inr ⟨hle, _, by rw [hcs]; rfl⟩
  · exact printUnsigned_cases zeros n

/-- `print_hex` returns. -/
theorem printHex_ok (zeros : ℕ) (n : BitVec 64) (cap : Bool) :
    ∃ cs, printHex zeros n cap = .ok cs := by
  have hnext : ∀ n : BitVec 64, (n >>> 4).toNat ≤ n.toNat / 2 := fun n => by
    rw [BitVec.toNat_ushiftRight, Nat.shiftRight_eq_div_pow]
    exact Nat.div_le_div_left (by decide) (by decide)
  obtain ⟨cs, hcs⟩ := fillDigits_ok (hexDigit cap) hnext n.isLt
  rw [printHex, bufSize, hcs]
  exact ⟨_, rfl⟩

/-- `print_ptr` returns. -/
theorem printPtr_ok (ptr : BitVec 64) (cap : Bool) : ∃ cs, printPtr ptr cap = .ok cs := by
  rw [printPtr]
  split
  · exact ⟨_, rfl⟩
  · obtain ⟨cs, hcs⟩ := printHex_ok 16 ptr cap
    exact ⟨_, by rw [hcs]; rfl⟩

/-- `puts` returns when the string has a NUL byte. -/
theorem puts_ok {n : ℕ} {str : BitVec 64} (hnul : m (str + BitVec.ofNat 64 n) = 0)
    (hfuel : n < fuel) : ∃ cs, puts m fuel str = .ok cs := by
  induction n generalizing fuel str with
  | zero =>
    obtain ⟨fuel, rfl⟩ := Nat.exists_eq_add_of_le' (Nat.one_le_of_lt hfuel)
    rw [BitVec.add_zero] at hnul
    exact ⟨[], by rw [puts, if_pos hnul]; rfl⟩
  | succ n ih =>
    obtain ⟨fuel, rfl⟩ := Nat.exists_eq_add_of_le' (Nat.one_le_of_lt hfuel)
    rw [puts]
    split
    · exact ⟨_, rfl⟩
    · rw [Nat.add_comm, BitVec.ofNat_add, ← BitVec.add_assoc] at hnul
      obtain ⟨cs, hcs⟩ := ih hnul (Nat.lt_of_succ_lt_succ hfuel)
      exact ⟨_, by rw [hcs]; rfl⟩

/-- **A directive that is no reason to halt** prints something, takes its argument, and goes
on with the others. -/
theorem convert_ok {f : PrintFlags} {c : Char8} (slot : BitVec 64) (ap : List (BitVec 64))
    (hzeros : c = ascii 'u' ∨ c = ascii 'd' → f.leadingZeros ≤ bufSize)
    (hstr : c = ascii 's' → f.stringLength = 0 → ∃ cs, puts m fuel slot = .ok cs) :
    ∃ cs, convert m fuel f (if takesArg c then slot :: ap else ap) c = .ok (ap, cs) := by
  have hprint : ∀ print : BitVec 64 → Except Fault (List Char8), (∃ cs, print slot = .ok cs) →
      ∃ cs, withArg (slot :: ap) print = .ok (ap, cs) := by
    rintro print ⟨cs, hcs⟩
    exact ⟨cs, by rw [withArg, hcs]; rfl⟩
  by_cases htakes : takesArg c = true
  · rw [if_pos htakes]
    simp only [takesArg, Bool.or_eq_true, decide_eq_true_eq] at htakes
    rcases htakes with (((((((rfl | rfl) | rfl) | rfl) | rfl) | rfl) | rfl) | rfl) | rfl
    · refine hprint (fun slot => .ok (printBinary
        (if f.leadingZeros ≠ 0 then f.leadingZeros else f.numberSize) (nextUint f slot))) ⟨_, rfl⟩
    · refine hprint (fun slot => printDecimal f.leadingZeros (nextInt f slot)) ?_
      rcases printDecimal_cases f.leadingZeros (nextInt f slot) with ⟨hlt, -⟩ | ⟨-, hok⟩
      · exact absurd (hzeros (.inr rfl)) (by omega)
      · exact hok
    · refine hprint (fun slot => printUnsigned f.leadingZeros (nextUint f slot)) ?_
      rcases printUnsigned_cases f.leadingZeros (nextUint f slot) with ⟨hlt, -⟩ | ⟨-, hok⟩
      · exact absurd (hzeros (.inl rfl)) (by omega)
      · exact hok
    · exact hprint (fun slot => printHex _ (nextUint f slot) _) (printHex_ok _ _ _)
    · exact hprint (fun slot => printHex _ (nextUint f slot) _) (printHex_ok _ _ _)
    · exact hprint (fun slot => printPtr slot _) (printPtr_ok _ _)
    · exact hprint (fun slot => printPtr slot _) (printPtr_ok _ _)
    · refine hprint (printString m fuel f.stringLength) ?_
      rw [printString]
      split
      next hlength => exact hstr rfl hlength
      next => exact ⟨_, rfl⟩
    · exact hprint (fun slot => .ok [slot.setWidth 8]) ⟨_, rfl⟩
  · rw [if_neg htakes]
    simp only [takesArg, Bool.or_eq_true, decide_eq_true_eq, not_or] at htakes
    obtain ⟨⟨⟨⟨⟨⟨⟨⟨hb, hd⟩, hu⟩, hx⟩, hX⟩, hp⟩, hP⟩, hs⟩, hc⟩ := htakes
    rw [convert]
    simp only [hb, hd, hu, hx, hX, hp, hP, hs, hc, if_false, or_self]
    split <;> exact ⟨_, rfl⟩

/-- Too many leading zeros halt the machine. -/
theorem convert_halts {f : PrintFlags} {c : Char8} {slot : BitVec 64} {ap : List (BitVec 64)}
    (hc : c = ascii 'u' ∨ c = ascii 'd') (hzeros : bufSize < f.leadingZeros) :
    ∃ e, convert m fuel f (slot :: ap) c = .error (.assertion e) := by
  have hprint : ∀ print : BitVec 64 → Except Fault (List Char8),
      (∃ e, print slot = .error (.assertion e)) →
      ∃ e, withArg (slot :: ap) print = .error (.assertion e) := by
    rintro print ⟨e, he⟩
    exact ⟨e, by rw [withArg, he]; rfl⟩
  rcases hc with rfl | rfl
  · refine hprint (fun slot => printUnsigned f.leadingZeros (nextUint f slot)) ?_
    rcases printUnsigned_cases f.leadingZeros (nextUint f slot) with ⟨-, he⟩ | ⟨hle, -⟩
    · exact he
    · exact absurd hle (by omega)
  · refine hprint (fun slot => printDecimal f.leadingZeros (nextInt f slot)) ?_
    rcases printDecimal_cases f.leadingZeros (nextInt f slot) with ⟨-, he⟩ | ⟨hle, -⟩
    · exact he
    · exact absurd hle (by omega)

end Prints

/-! ## Whole formats -/

/-- The end of a directive, with enough fuel: it halts the machine, or its argument is taken and
the others match the rest of the format. -/
theorem convert_ends {m : Memory} {f : PrintFlags} {digits : Bool} {c : Char8} {s : List Char8}
    {ap : List (BitVec 64)} (hmod : modifier f digits c = none)
    (hap : Matches m (.directive f digits) ap (c :: s)) :
    ∃ ap', Matches m .text ap' s ∧ ∃ bound, ∀ fuel, bound ≤ fuel →
      ((Place.directive f digits).halts c = true →
        ∃ e, convert m fuel f ap c = .error (.assertion e)) ∧
      ((Place.directive f digits).halts c = false →
        ∃ cs, convert m fuel f ap c = .ok (ap', cs)) := by
  rw [Matches, hmod] at hap
  have hhalts : (Place.directive f digits).halts c = true ↔
      (c = ascii 'u' ∨ c = ascii 'd') ∧ bufSize < f.leadingZeros := by
    rw [Place.halts, hmod]
    simp
  have hzeros : (Place.directive f digits).halts c = false →
      c = ascii 'u' ∨ c = ascii 'd' → f.leadingZeros ≤ bufSize := by
    intro hno hc
    by_contra hlt
    rw [hhalts.mpr ⟨hc, by omega⟩] at hno
    cases hno
  by_cases htakes : takesArg c = true
  · simp only [htakes, if_true] at hap
    obtain ⟨slot, ap', rfl, hstr, hrest⟩ := hap
    -- a string is put with as much fuel as it has characters
    obtain ⟨bound, hputs⟩ : ∃ bound, ∀ fuel, bound ≤ fuel → c = ascii 's' → f.stringLength = 0 →
        ∃ cs, puts m fuel slot = .ok cs := by
      by_cases hs : c = ascii 's' ∧ f.stringLength = 0
      · obtain ⟨n, hn⟩ := hstr hs.1 hs.2
        exact ⟨n + 1, fun fuel hfuel _ _ => puts_ok hn hfuel⟩
      · exact ⟨0, fun fuel _ hc hlength => absurd ⟨hc, hlength⟩ hs⟩
    refine ⟨ap', hrest, bound, fun fuel hfuel => ⟨fun h => ?_, fun h => ?_⟩⟩
    · exact convert_halts (hhalts.mp h).1 (hhalts.mp h).2
    · obtain ⟨cs, hcs⟩ := convert_ok slot ap' (hzeros h) (hputs fuel hfuel)
      rw [if_pos htakes] at hcs
      exact ⟨cs, hcs⟩
  · simp only [htakes] at hap
    refine ⟨ap, hap, 0, fun fuel _ => ⟨fun h => ?_, fun h => ?_⟩⟩
    · obtain ⟨rfl | rfl, -⟩ := hhalts.mp h
      · exact absurd rfl htakes
      · exact absurd rfl htakes
    · have hok : ∃ cs, convert m fuel f (if takesArg c then 0 :: ap else ap) c = .ok (ap, cs) :=
        convert_ok 0 ap (hzeros h) fun hc _ => absurd (hc ▸ rfl) htakes
      rw [if_neg htakes] at hok
      exact hok

/-- **How a call ends**, with enough fuel: at an assertion when a directive halts, else behind
the NUL byte when the format ends in a directive, else it returns. -/
theorem scan_ends {m : Memory} (s : List Char8) (p : Place) (ap : List (BitVec 64))
    (hap : Matches m p ap s) : ∃ bound, ∀ fuel, bound ≤ fuel →
      (Halts p s → ∃ e, scan m fuel p ap s = .error (.assertion e)) ∧
      (¬ Halts p s → (s.foldl Place.next p).isDirective = true →
        scan m fuel p ap s = .error (.wild "str")) ∧
      (¬ Halts p s → (s.foldl Place.next p).isDirective = false →
        ∃ out, scan m fuel p ap s = .ok out) := by
  induction s generalizing p ap with
  | nil =>
    refine ⟨0, fun fuel _ => ⟨False.elim, fun _ h => ?_, fun _ h => ?_⟩⟩
    · cases p with
      | text => cases h
      | directive f digits => rfl
    · cases p with
      | text => exact ⟨[], rfl⟩
      | directive f digits => cases h
  | cons c s ih =>
    cases p with
    | text =>
      obtain ⟨bound, hbound⟩ := ih (Place.text.next c) ap hap
      refine ⟨bound, fun fuel hfuel => ?_⟩
      obtain ⟨hhalts, hinside, hreturns⟩ := hbound fuel hfuel
      have hiff : Halts .text (c :: s) ↔ Halts (Place.text.next c) s :=
        or_iff_right Bool.false_ne_true
      rw [hiff, List.foldl_cons, scan]
      by_cases hc : c = ascii '%'
      · have hnext : Place.text.next c = .directive .init false := if_pos hc
        rw [if_pos hc]
        rw [hnext] at hhalts hinside hreturns ⊢
        exact ⟨hhalts, hinside, hreturns⟩
      · have hnext : Place.text.next c = .text := if_neg hc
        rw [if_neg hc]
        rw [hnext] at hhalts hinside hreturns ⊢
        refine ⟨fun h => ?_, fun h h' => ?_, fun h h' => ?_⟩
        · obtain ⟨e, he⟩ := hhalts h
          exact ⟨e, by rw [he]; rfl⟩
        · rw [hinside h h']
          rfl
        · obtain ⟨out, hout⟩ := hreturns h h'
          exact ⟨_, by rw [hout]; rfl⟩
    | directive f digits =>
      rw [Matches] at hap
      cases hmod : modifier f digits c with
      | some next =>
        rw [hmod] at hap
        obtain ⟨bound, hbound⟩ := ih _ ap hap
        refine ⟨bound, fun fuel hfuel => ?_⟩
        have hnext : (Place.directive f digits).next c = .directive next.1 next.2 := by
          rw [Place.next, hmod]
        have hno : (Place.directive f digits).halts c = false := by
          rw [Place.halts, hmod]
          rfl
        rw [Halts, hno, or_iff_right Bool.false_ne_true, hnext, List.foldl_cons, hnext, scan, hmod]
        exact hbound fuel hfuel
      | none =>
        obtain ⟨ap', hrest, bound, hconvert⟩ := convert_ends hmod (by rw [Matches]; exact hap)
        obtain ⟨bound', hbound⟩ := ih .text ap' hrest
        refine ⟨max bound bound', fun fuel hfuel => ?_⟩
        obtain ⟨hhalt, hgo⟩ := hconvert fuel (le_trans (le_max_left _ _) hfuel)
        obtain ⟨hhalts, hinside, hreturns⟩ := hbound fuel (le_trans (le_max_right _ _) hfuel)
        have hnext : (Place.directive f digits).next c = .text := by
          rw [Place.next, hmod]
        rw [Halts, hnext, List.foldl_cons, hnext, scan, hmod]
        cases hc : (Place.directive f digits).halts c with
        | true =>
          obtain ⟨e, he⟩ := hhalt hc
          exact ⟨fun _ => ⟨e, by rw [he]; rfl⟩, fun h => absurd (.inl rfl) h,
            fun h => absurd (.inl rfl) h⟩
        | false =>
          obtain ⟨cs, hcs⟩ := hgo hc
          rw [or_iff_right Bool.false_ne_true, hcs]
          refine ⟨fun h => ?_, fun h h' => ?_, fun h h' => ?_⟩
          · obtain ⟨e, he⟩ := hhalts h
            exact ⟨e, by simp only [bind, Except.bind, he]⟩
          · simp only [bind, Except.bind, hinside h h']
          · obtain ⟨out, hout⟩ := hreturns h h'
            exact ⟨_, Except.bind_eq_ok_iff.mpr ⟨_, rfl, Except.bind_eq_ok_iff.mpr ⟨_, hout, rfl⟩⟩⟩

/-- `printk` ends, by returning or at an assertion, and has not read behind the NUL byte. -/
def StaysInside (m : Memory) (s : List Char8) (ap : List (BitVec 64)) : Prop :=
  ∃ bound, ∀ fuel, bound ≤ fuel →
    (∃ out, printk m fuel (Str.ofList s) ap = .ok out) ∨
      ∃ e, printk m fuel (Str.ofList s) ap = .error (.assertion e)

/-- **`printk` stays inside its format** exactly when the format does not end in a directive, or
a directive before its end halts the machine. -/
theorem staysInside_iff (m : Memory) (s : List Char8) (ap : List (BitVec 64))
    (hs : ∀ c ∈ s, c ≠ 0) (hap : Matches m .text ap s) :
    StaysInside m s ap ↔ ¬ EndsInside s ∨ Halts .text s := by
  obtain ⟨bound, hbound⟩ := scan_ends s .text ap hap
  constructor
  · rintro ⟨bound', hstays⟩
    by_contra hnot
    rw [not_or, not_not] at hnot
    obtain ⟨-, hinside, -⟩ := hbound (bound + bound' + s.length + 1) (by omega)
    have hrun : printk m (bound + bound' + s.length + 1) (Str.ofList s) ap =
        .error (.wild "str") := by
      rw [printk_eq hs (by omega), hinside hnot.2 hnot.1]
    rcases hstays (bound + bound' + s.length + 1) (by omega) with ⟨out, h⟩ | ⟨e, h⟩
    · cases hrun.symm.trans h
    · cases hrun.symm.trans h
  · intro h
    refine ⟨bound + s.length + 1, fun fuel hfuel => ?_⟩
    obtain ⟨hhalts, -, hreturns⟩ := hbound fuel (by omega)
    rw [printk_eq hs (by omega)]
    by_cases hhalt : Halts .text s
    · exact .inr (hhalts hhalt)
    · have hout := Bool.eq_false_iff.mpr (h.resolve_right hhalt)
      exact .inl (hreturns hhalt hout)

/-- The format `"%02u %s"` with a number and an empty string. -/
theorem staysInside_number :
    StaysInside (fun _ => 0) [ascii '%', ascii '0', ascii '2', ascii 'u', ascii ' ', ascii '%',
      ascii 's'] [7, 0x1000] := by
  refine (staysInside_iff _ _ _ (by decide) ?_).mpr (.inl (by rw [EndsInside]; decide))
  exact ⟨7, _, rfl, fun h => absurd h (by decide), 0x1000, _, rfl, fun _ _ => ⟨0, rfl⟩, trivial⟩

/-- **The format `"100%"` is read behind its NUL byte.** -/
theorem not_staysInside :
    ¬ StaysInside (fun _ => 0) [ascii '1', ascii '0', ascii '0', ascii '%'] [] := by
  rintro ⟨bound, hstays⟩
  have hrun : printk (fun _ => 0) (bound + 5)
      (Str.ofList [ascii '1', ascii '0', ascii '0', ascii '%']) [] = .error (.wild "str") := by
    rw [printk_eq (by decide) (by simp)]
    rfl
  rcases hstays (bound + 5) (by omega) with ⟨out, h⟩ | ⟨e, h⟩
  · cases hrun.symm.trans h
  · cases hrun.symm.trans h

end Mimik.Printk
