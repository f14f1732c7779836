/-
# Formatted output (`log/printk.c`)

The format is a string in an object of its own: its characters and the NUL byte, and a read
behind that byte is a fault.  The variable arguments are slots of eight bytes, as the
machine passes them.  What `putc` gets is the result of the call; nothing is said about the
characters that were put before an assertion fails.

The cursor `fmt` is moved in three places: the loop of `printk`, the state machine that
`goto next_mod` makes of the switch, and the loop over the digits behind a `0`.  All three
move it without a look at what they leave behind, so a NUL byte inside a directive is
passed over.  `scan` says what the three do together, one character after the other.
-/
import Mimik.MemRoutines
import Mimik.Str

namespace Mimik.Printk

open Mem

/-! ## Numbers -/

/-- A character constant. -/
def ascii (c : Char) : Char8 := BitVec.ofNat 8 c.toNat

/-- `BUF_SIZE`. -/
def bufSize : ℕ := 64

/-- The loop that fills `cs` with the digits of `n`, the lowest first. -/
def fillDigits (digit : BitVec 64 → Char8) (next : BitVec 64 → BitVec 64) :
    ℕ → BitVec 64 → Except Fault (List Char8)
  | room, n =>
    if n = 0 then return []
    else match room with
      | 0 => .error (.assertion "i < sizeof(cs)")
      | room + 1 => do
        let cs ← fillDigits digit next room (next n)
        return digit n :: cs

/-- The loops that put the leading zeros and the digits. -/
def putDigits (zeros : ℕ) (cs : List Char8) : List Char8 :=
  List.replicate (zeros - cs.length) (ascii '0') ++ cs.reverse

/-- `(char)(n % 10) + '0'`. -/
def decimalDigit (n : BitVec 64) : Char8 := (n % 10).setWidth 8 + ascii '0'

/-- `print_unsigned`. -/
def printUnsigned (zeros : ℕ) (n : BitVec 64) : Except Fault (List Char8) := do
  assert (zeros ≤ bufSize) "zeros <= sizeof(cs)"
  let cs ← fillDigits decimalDigit (· / 10) bufSize n
  return putDigits zeros cs

/-- `print_decimal`. -/
def printDecimal (zeros : ℕ) (n : BitVec 64) : Except Fault (List Char8) :=
  if n.slt 0 then do
    let cs ← printUnsigned zeros (-n)
    return ascii '-' :: cs
  else printUnsigned zeros n

/-- The digit that `print_hex` makes of the lowest four bits. -/
def hexDigit (cap : Bool) (n : BitVec 64) : Char8 :=
  let base := if cap then ascii 'A' else ascii 'a'
  let d := (n &&& 0xf).setWidth 8
  if d < 10 then d + ascii '0' else d - 10 + base

/-- `print_hex`. -/
def printHex (zeros : ℕ) (n : BitVec 64) (cap : Bool) : Except Fault (List Char8) := do
  let cs ← fillDigits (hexDigit cap) (· >>> 4) bufSize n
  return putDigits zeros cs

/-- `print_ptr`. -/
def printPtr (ptr : BitVec 64) (cap : Bool) : Except Fault (List Char8) :=
  if ptr = 0 then return chars "(nil)"
  else do
    let cs ← printHex 16 ptr cap
    return chars "0x" ++ cs

/-- The loop of `print_binary`. -/
def binaryDigits (n : BitVec 64) : ℕ → BitVec 64 → List Char8
  | 0, _ => []
  | sz + 1, mask =>
    (if mask &&& n ≠ 0 then ascii '1' else ascii '0') :: binaryDigits n sz (mask >>> 1)

/-- `print_binary`.  The 1 that is shifted is an `int`: of the count the machine uses the
five lowest bits, and the result is extended by its sign. -/
def printBinary (sz : ℕ) (n : BitVec 64) : List Char8 :=
  let sz := wrap64 (sz <<< 3)
  let mask := (1#32 <<< (sub64 sz 1 % 32)).signExtend 64
  binaryDigits n sz mask

/-! ## Strings -/

/-- `puts`; the first argument bounds its loop. -/
def puts (m : Memory) : ℕ → BitVec 64 → Except Fault (List Char8)
  | 0, _ => .error .outOfFuel
  | fuel + 1, s =>
    if m s = 0 then return []
    else do
      let cs ← puts m fuel (s + 1#64)
      return m s :: cs

/-- The loop of `print_string`. -/
def putChars (m : Memory) : ℕ → BitVec 64 → List Char8
  | 0, _ => []
  | length + 1, str => m str :: putChars m length (str + 1#64)

/-- `print_string`. -/
def printString (m : Memory) (fuel length : ℕ) (str : BitVec 64) : Except Fault (List Char8) :=
  if length = 0 then puts m fuel str else return putChars m length str

/-! ## Directives -/

/-- `struct print_flags`. -/
structure PrintFlags where
  numberSize : ℕ
  leadingZeros : ℕ
  stringLength : ℕ

/-- The flags at the head of a directive. -/
def PrintFlags.init : PrintFlags := { numberSize := 4, leadingZeros := 0, stringLength := 0 }

/-- `*fmt >= '0' && *fmt <= '9'`. -/
def isDigit (c : Char8) : Bool := 48 ≤ c.toNat && c.toNat ≤ 57

/-- `n *= 10; n += (size_t)(*fmt - '0')`. -/
def pushDigit (n : ℕ) (c : Char8) : ℕ := wrap64 (wrap64 (n * 10) + (c.toNat - 48))

/-- Case `'l'`. -/
def PrintFlags.longer (f : PrintFlags) : PrintFlags :=
  { f with numberSize := if f.numberSize < 8 then f.numberSize <<< 1 else f.numberSize }

/-- Case `'h'`. -/
def PrintFlags.shorter (f : PrintFlags) : PrintFlags :=
  { f with numberSize := if 1 < f.numberSize then f.numberSize >>> 1 else f.numberSize }

/-- `next_int(uint)`. -/
def nextUint (f : PrintFlags) (slot : BitVec 64) : BitVec 64 :=
  if 4 < f.numberSize then slot else (slot.setWidth 32).setWidth 64

/-- `next_int(int)`, as an `int64_t`. -/
def nextInt (f : PrintFlags) (slot : BitVec 64) : BitVec 64 :=
  if 4 < f.numberSize then slot else (slot.setWidth 32).signExtend 64

/-- `VA_ARG(ap, …)`, and what is printed with it. -/
def withArg (ap : List (BitVec 64)) (print : BitVec 64 → Except Fault (List Char8)) :
    Except Fault (List (BitVec 64) × List Char8) :=
  match ap with
  | [] => .error (.wild "ap")
  | slot :: ap => do
    let cs ← print slot
    return (ap, cs)

/-- The cases of the switch that end a directive. -/
def convert (m : Memory) (fuel : ℕ) (f : PrintFlags) (ap : List (BitVec 64)) (c : Char8) :
    Except Fault (List (BitVec 64) × List Char8) :=
  if c = ascii '%' then return (ap, [ascii '%'])
  else if c = ascii 'b' then
    let sz := if f.leadingZeros ≠ 0 then f.leadingZeros else f.numberSize
    withArg ap fun slot => .ok (printBinary sz (nextUint f slot))
  else if c = ascii 'd' then
    withArg ap fun slot => printDecimal f.leadingZeros (nextInt f slot)
  else if c = ascii 'u' then
    withArg ap fun slot => printUnsigned f.leadingZeros (nextUint f slot)
  else if c = ascii 'x' ∨ c = ascii 'X' then
    withArg ap fun slot => printHex f.leadingZeros (nextUint f slot) (c = ascii 'X')
  else if c = ascii 'p' ∨ c = ascii 'P' then
    withArg ap fun slot => printPtr slot (c = ascii 'P')
  else if c = ascii 's' then
    withArg ap fun slot => printString m fuel f.stringLength slot
  else if c = ascii 'c' then
    withArg ap fun slot => return [slot.setWidth 8]
  else return (ap, [])

/-- The loop over the digits behind a `0`, from the offset `i` on: where it stops, and the
number. -/
def zerosFrom (fmt : Str) : ℕ → ℕ → ℕ → Except Fault (ℕ × ℕ)
  | 0, _, _ => .error .outOfFuel
  | fuel + 1, i, leadingZeros => do
    let c ← fmt i
    if isDigit c then zerosFrom fmt fuel (i + 1) (pushDigit leadingZeros c)
    else return (i, leadingZeros)

/-- The switch at `next_mod`, entered with the cursor at `i`: where the cursor is left, the
arguments that are left, and what was printed. -/
def nextMod (m : Memory) (fmt : Str) (rounds : ℕ) :
    ℕ → PrintFlags → ℕ → List (BitVec 64) → Except Fault (ℕ × List (BitVec 64) × List Char8)
  | 0, _, _, _ => .error .outOfFuel
  | fuel + 1, f, i, ap => do
    let i := i + 1
    let c ← fmt i
    if c = ascii 'l' then nextMod m fmt rounds fuel f.longer i ap
    else if c = ascii 'h' then nextMod m fmt rounds fuel f.shorter i ap
    else if c = ascii '0' then
      let (i, leadingZeros) ← zerosFrom fmt rounds (i + 1) f.leadingZeros
      nextMod m fmt rounds fuel { f with leadingZeros := leadingZeros } (i - 1) ap
    else if isDigit c then
      nextMod m fmt rounds fuel { f with stringLength := pushDigit f.stringLength c } i ap
    else
      let (ap, cs) ← convert m rounds f ap c
      return (i, ap, cs)

/-- The loop of `printk`, with the cursor at `i`. -/
def printkFrom (m : Memory) (fmt : Str) (rounds : ℕ) :
    ℕ → ℕ → List (BitVec 64) → Except Fault (List Char8)
  | 0, _, _ => .error .outOfFuel
  | fuel + 1, i, ap => do
    let c ← fmt i
    if c = 0 then return []
    else if c ≠ ascii '%' then
      let cs ← printkFrom m fmt rounds fuel (i + 1) ap
      return c :: cs
    else
      let (i, ap, out) ← nextMod m fmt rounds rounds .init i ap
      let cs ← printkFrom m fmt rounds fuel (i + 1) ap
      return out ++ cs

/-- `printk`; the second argument bounds its loops. -/
def printk (m : Memory) (fuel : ℕ) (fmt : Str) (ap : List (BitVec 64)) :
    Except Fault (List Char8) :=
  printkFrom m fmt fuel fuel 0 ap

/-! ## One character after the other -/

/-- Where a format stands between two characters: in plain text, or in a directive, with its
flags, and behind a `0` that takes digits or not. -/
inductive Place where
  | text
  | directive (f : PrintFlags) (digits : Bool)

/-- A character that keeps a directive open. -/
def modifier (f : PrintFlags) (digits : Bool) (c : Char8) : Option (PrintFlags × Bool) :=
  if digits && isDigit c then some ({ f with leadingZeros := pushDigit f.leadingZeros c }, true)
  else if c = ascii 'l' then some (f.longer, false)
  else if c = ascii 'h' then some (f.shorter, false)
  else if c = ascii '0' then some (f, true)
  else if isDigit c then some ({ f with stringLength := pushDigit f.stringLength c }, false)
  else none

/-- The place behind a character. -/
def Place.next : Place → Char8 → Place
  | .text, c => if c = ascii '%' then .directive .init false else .text
  | .directive f digits, c =>
    match modifier f digits c with
    | some (f, digits) => .directive f digits
    | none => .text

/-- What is printed for the rest of a format, from a place on.  A format that ends in a
directive is read behind its end. -/
def scan (m : Memory) (fuel : ℕ) :
    Place → List (BitVec 64) → List Char8 → Except Fault (List Char8)
  | .text, _, [] => return []
  | .directive _ _, _, [] => .error (.wild "str")
  | .text, ap, c :: s =>
    if c = ascii '%' then scan m fuel (.directive .init false) ap s
    else do
      let cs ← scan m fuel .text ap s
      return c :: cs
  | .directive f digits, ap, c :: s =>
    match modifier f digits c with
    | some (f, digits) => scan m fuel (.directive f digits) ap s
    | none => do
      let (ap, out) ← convert m fuel f ap c
      let cs ← scan m fuel .text ap s
      return out ++ cs

/-- The modifiers at the head of the rest of a directive: the flags, the character that ends it,
and what is left of the format. -/
def directive : PrintFlags → Bool → List Char8 → Option (PrintFlags × Char8 × List Char8)
  | _, _, [] => none
  | f, digits, c :: s =>
    match modifier f digits c with
    | some (f, digits) => directive f digits s
    | none => some (f, c, s)

section Format

variable {m : Memory} {s rest : List Char8} {i fuel rounds : ℕ}

/-- The cursor reads the first character of what is left. -/
theorem ofList_of_cons {c : Char8} (h : s.drop i = c :: rest) : Str.ofList s i = .ok c := by
  have hi : i < s.length := by
    by_contra hge
    rw [List.drop_eq_nil_of_le (by omega)] at h
    cases h
  rw [List.drop_eq_getElem_cons hi, List.cons.injEq] at h
  rw [Str.ofList, if_pos hi.le, List.getD_eq_getElem _ _ hi, h.1]

/-- Behind the last character the cursor reads the NUL byte. -/
theorem ofList_length : Str.ofList s s.length = .ok 0 := by
  rw [Str.ofList, if_pos le_rfl, List.getD_eq_default _ _ le_rfl]

/-- The rest behind a character. -/
theorem drop_succ {c : Char8} (h : s.drop i = c :: rest) :
    s.drop (i + 1) = rest ∧ i + 1 + rest.length = s.length := by
  have hlen := congrArg List.length h
  rw [List.length_drop, List.length_cons] at hlen
  refine ⟨?_, by omega⟩
  rw [← List.drop_drop, h]
  rfl

/-- The loop over digits. -/
theorem zerosFrom_eq (hrest : s.drop i = rest) (hi : i ≤ s.length) (hfuel : rest.length < fuel)
    (z : ℕ) : zerosFrom (Str.ofList s) fuel i z =
      .ok (i + (rest.takeWhile isDigit).length, (rest.takeWhile isDigit).foldl pushDigit z) := by
  induction fuel generalizing i rest z with
  | zero => exact absurd hfuel (Nat.not_lt_zero _)
  | succ fuel ih =>
    cases rest with
    | nil =>
      have hend : i = s.length := le_antisymm hi (List.drop_eq_nil_iff.mp hrest)
      rw [zerosFrom, hend, ofList_length]
      rfl
    | cons c rest =>
      obtain ⟨hdrop, hlen⟩ := drop_succ hrest
      rw [zerosFrom, ofList_of_cons hrest]
      show (if isDigit c then _ else _) = _
      by_cases hc : isDigit c
      · rw [if_pos hc, ih hdrop (by omega) (by simpa using hfuel), List.takeWhile_cons_of_pos hc,
          List.length_cons, List.foldl_cons]
        congr 2
        omega
      · rw [if_neg hc, List.takeWhile_cons_of_neg hc]
        rfl

/-- Digits behind a `0` are read into the flags. -/
theorem directive_digits (f : PrintFlags) (rest : List Char8) :
    directive f true rest = directive
      { f with leadingZeros := (rest.takeWhile isDigit).foldl pushDigit f.leadingZeros } false
      (rest.dropWhile isDigit) := by
  induction rest generalizing f with
  | nil => rfl
  | cons c rest ih =>
    by_cases hc : isDigit c
    · have hmod : modifier f true c =
          some ({ f with leadingZeros := pushDigit f.leadingZeros c }, true) := by
        rw [modifier, hc]
        rfl
      rw [directive, hmod, List.takeWhile_cons_of_pos hc, List.dropWhile_cons_of_pos hc,
        List.foldl_cons]
      exact ih _
    · have hmod : modifier f true c = modifier f false c := by
        rw [modifier, modifier, Bool.eq_false_iff.mpr hc]
        rfl
      rw [directive, hmod, List.takeWhile_cons_of_neg hc, List.dropWhile_cons_of_neg hc]
      rfl

/-- **The state machine of the switch** goes over the modifiers of a directive and stops at the
character behind them, or at the NUL byte. -/
theorem nextMod_eq (hrounds : s.length < rounds) (hrest : s.drop (i + 1) = rest)
    (hi : i + 1 ≤ s.length) (hfuel : rest.length < fuel) (f : PrintFlags) (ap : List (BitVec 64)) :
    nextMod m (Str.ofList s) rounds fuel f i ap =
      match directive f false rest with
      | none => .ok (s.length, ap, [])
      | some (f, c, rest) => do
        let (ap, cs) ← convert m rounds f ap c
        return (s.length - rest.length - 1, ap, cs) := by
  induction fuel generalizing i rest f with
  | zero => exact absurd hfuel (Nat.not_lt_zero _)
  | succ fuel ih =>
    cases rest with
    | nil =>
      have hend : i + 1 = s.length := le_antisymm hi (List.drop_eq_nil_iff.mp hrest)
      rw [nextMod, hend, ofList_length]
      rfl
    | cons c rest =>
      obtain ⟨hdrop, hlen⟩ := drop_succ hrest
      have hfuel' : rest.length < fuel := by simpa using hfuel
      rw [nextMod, ofList_of_cons hrest, directive, modifier]
      simp only [bind, Except.bind, Bool.false_and, Bool.false_eq_true, if_false]
      split
      next => exact ih hdrop (by omega) hfuel' _
      next =>
        split
        next => exact ih hdrop (by omega) hfuel' _
        next =>
          split
          next =>
            have hsplit : rest.takeWhile isDigit ++ rest.dropWhile isDigit = rest :=
              List.takeWhile_append_dropWhile
            have hsum := congrArg List.length hsplit
            rw [List.length_append] at hsum
            have hback : i + 1 + 1 + (rest.takeWhile isDigit).length - 1 + 1 =
                i + 1 + 1 + (rest.takeWhile isDigit).length := by omega
            have hafter : s.drop (i + 1 + 1 + (rest.takeWhile isDigit).length - 1 + 1) =
                rest.dropWhile isDigit := by
              rw [hback, ← List.drop_drop, hdrop]
              nth_rewrite 2 [← hsplit]
              exact List.drop_left
            have hdigits := directive_digits f rest
            rw [zerosFrom_eq hdrop (by omega) (by omega)]
            simp only [hdigits]
            exact ih hafter (by omega) (by omega) _
          next =>
            split
            next => exact ih hdrop (by omega) hfuel' _
            next =>
              have hpos : s.length - rest.length - 1 = i + 1 := by omega
              simp only [hpos]

/-- What is printed for the rest of a directive. -/
theorem scan_directive (f : PrintFlags) (digits : Bool) (ap : List (BitVec 64))
    (rest : List Char8) : scan m fuel (.directive f digits) ap rest =
      match directive f digits rest with
      | none => .error (.wild "str")
      | some (f, c, rest) => do
        let (ap, out) ← convert m fuel f ap c
        let cs ← scan m fuel .text ap rest
        return out ++ cs := by
  induction rest generalizing f digits with
  | nil => rfl
  | cons c rest ih =>
    rw [scan, directive]
    cases modifier f digits c with
    | none => rfl
    | some next => exact ih _ _

/-- A directive ends behind its first character. -/
theorem directive_suffix {f f' : PrintFlags} {digits : Bool} {c : Char8} {rest rest' : List Char8}
    (h : directive f digits rest = some (f', c, rest')) : c :: rest' <:+ rest := by
  induction rest generalizing f digits with
  | nil => cases h
  | cons d rest ih =>
    rw [directive] at h
    cases hmod : modifier f digits d with
    | none =>
      rw [hmod] at h
      cases h
      exact List.suffix_rfl
    | some next =>
      rw [hmod] at h
      exact (ih h).trans (List.suffix_cons d rest)

/-- **The loop of `printk`** prints what `scan` says. -/
theorem printkFrom_eq (hs : ∀ c ∈ s, c ≠ 0) (hrounds : s.length < rounds)
    (hrest : s.drop i = rest) (hi : i ≤ s.length) (hfuel : rest.length < fuel)
    (ap : List (BitVec 64)) :
    printkFrom m (Str.ofList s) rounds fuel i ap = scan m rounds .text ap rest := by
  induction fuel generalizing i rest ap with
  | zero => exact absurd hfuel (Nat.not_lt_zero _)
  | succ fuel ih =>
    cases rest with
    | nil =>
      have hend : i = s.length := le_antisymm hi (List.drop_eq_nil_iff.mp hrest)
      rw [printkFrom, hend, ofList_length]
      rfl
    | cons c rest =>
      obtain ⟨hdrop, hlen⟩ := drop_succ hrest
      have hfuel' : rest.length < fuel := by simpa using hfuel
      have hne : c ≠ 0 := hs c (List.mem_of_mem_drop (hrest ▸ List.mem_cons_self))
      rw [printkFrom, ofList_of_cons hrest, scan]
      simp only [bind, Except.bind, if_neg hne, ne_eq, ite_not]
      split
      next =>
        rw [nextMod_eq hrounds hdrop (by omega) (by omega), scan_directive]
        cases hdir : directive .init false rest with
        | none =>
          obtain ⟨fuel, rfl⟩ := Nat.exists_eq_add_of_le' (Nat.one_le_of_lt hfuel')
          simp only
          rw [printkFrom, Str.ofList, if_neg (by omega)]
          rfl
        | some d =>
          obtain ⟨f, c', rest'⟩ := d
          have hsuffix : rest' <:+ s :=
            ((List.suffix_cons c' rest').trans (directive_suffix hdir)).trans
              (hdrop ▸ List.drop_suffix _ _)
          have hle := (directive_suffix hdir).length_le
          rw [List.length_cons] at hle
          have hback : s.length - rest'.length - 1 + 1 = s.length - rest'.length := by omega
          have hafter : s.drop (s.length - rest'.length - 1 + 1) = rest' := by
            rw [hback]
            exact (List.suffix_iff_eq_drop.mp hsuffix).symm
          simp only [bind, Except.bind]
          cases convert m rounds f ap c' with
          | error e => rfl
          | ok out =>
            have hloop := ih hafter (by omega) (by omega) out.1
            simp only [pure, Except.pure, hloop]
      next => rw [ih hdrop (by omega) hfuel']

/-- `printk` prints what `scan` says. -/
theorem printk_eq (hs : ∀ c ∈ s, c ≠ 0) (hfuel : s.length < fuel) (ap : List (BitVec 64)) :
    printk m fuel (Str.ofList s) ap = scan m fuel .text ap s :=
  printkFrom_eq hs hfuel List.drop_zero (Nat.zero_le _) hfuel ap

end Format

end Mimik.Printk
