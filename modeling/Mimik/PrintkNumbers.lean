/-
# Numbers in formatted output (`log/printk.c`)

A number is read back from its digits by `parse`.  The digits that `print_unsigned` and
`print_hex` put are those of the number in their base, so that they are read back as the
number; but 0 has no digits, and without leading zeros nothing is put for it
(`numbers_read_back_iff`).

`print_binary` goes over the bits of a number with a mask that is one bit for the sizes 1 and
2.  For the sizes 4 and 8 the mask is extended by its sign to 33 bits, and a digit tells
whether any of the bits under the mask is set (`binary_faithful_iff`).
-/
import Mimik.Printk
import Mathlib.Data.Nat.Digits.Defs

namespace Mimik.Printk

open Mem

/-! ## Reading back -/

/-- The number that digits denote in a base, behind others that denote `acc`. -/
def parseFrom (value : Char8 → Option ℕ) (base : ℕ) : ℕ → List Char8 → Option ℕ
  | acc, [] => some acc
  | acc, c :: cs => (value c).bind fun d => parseFrom value base (acc * base + d) cs

/-- The number that digits denote in a base. -/
def parse (value : Char8 → Option ℕ) (base : ℕ) (cs : List Char8) : Option ℕ :=
  parseFrom value base 0 cs

/-- The value of a decimal digit. -/
def decimalValue (c : Char8) : Option ℕ := if isDigit c then some (c.toNat - 48) else none

/-- The value of a hexadecimal digit. -/
def hexValue (c : Char8) : Option ℕ :=
  if isDigit c then some (c.toNat - 48)
  else if 65 ≤ c.toNat ∧ c.toNat ≤ 70 then some (c.toNat - 55)
  else if 97 ≤ c.toNat ∧ c.toNat ≤ 102 then some (c.toNat - 87)
  else none

/-- Digits that denote `n`, with as many characters as asked for and as it needs, at least one. -/
structure IsNumeral (value : Char8 → Option ℕ) (base zeros n : ℕ) (out : List Char8) : Prop where
  nonempty : out ≠ []
  reads : parse value base out = some n
  length : out.length = max zeros (max (Nat.digits base n).length 1)

section Digits

variable {value : Char8 → Option ℕ} {base : ℕ} {digit : BitVec 64 → Char8}
  {next : BitVec 64 → BitVec 64} {cs : List Char8} {ds : List ℕ}

theorem parseFrom_append (acc : ℕ) (cs cs' : List Char8) :
    parseFrom value base acc (cs ++ cs') =
      (parseFrom value base acc cs).bind fun acc => parseFrom value base acc cs' := by
  induction cs generalizing acc with
  | nil => rfl
  | cons c cs ih =>
    rw [List.cons_append, parseFrom, parseFrom]
    cases value c with
    | none => rfl
    | some d => exact ih _

/-- Leading zeros denote nothing. -/
theorem parseFrom_zeros (hzero : value (ascii '0') = some 0) (n : ℕ) :
    parseFrom value base 0 (List.replicate n (ascii '0')) = some 0 := by
  induction n with
  | zero => rfl
  | succ n ih =>
    rw [List.replicate_succ, parseFrom, hzero, Option.bind_some, Nat.zero_mul, Nat.add_zero]
    exact ih

/-- The lowest digit comes last. -/
theorem parse_reverse (hvalues : cs.map value = ds.map some) :
    parse value base cs.reverse = some (Nat.ofDigits base ds) := by
  induction cs generalizing ds with
  | nil =>
    rw [List.map_nil, eq_comm, List.map_eq_nil_iff] at hvalues
    rw [hvalues]
    rfl
  | cons c cs ih =>
    obtain ⟨d, ds, rfl⟩ : ∃ d ds', ds = d :: ds' := by
      cases ds with
      | nil => cases hvalues
      | cons d ds => exact ⟨d, ds, rfl⟩
    rw [List.map_cons, List.map_cons, List.cons.injEq] at hvalues
    have hrest := ih hvalues.2
    unfold parse at hrest ⊢
    rw [List.reverse_cons, parseFrom_append, hrest, Option.bind_some, parseFrom, hvalues.1,
      Option.bind_some, parseFrom, Nat.ofDigits_cons, Nat.add_comm, Nat.mul_comm]

/-- **The loop over the digits** of a number. -/
theorem fillDigits_eq (hbase : 1 < base) (hnext : ∀ n, (next n).toNat = n.toNat / base)
    (hdigit : ∀ n, value (digit n) = some (n.toNat % base)) {room : ℕ} {n : BitVec 64}
    (hroom : n.toNat < base ^ room) : ∃ cs, fillDigits digit next room n = .ok cs ∧
      cs.map value = (Nat.digits base n.toNat).map some := by
  induction room generalizing n with
  | zero =>
    have hzero : n = 0 := BitVec.eq_of_toNat_eq (Nat.lt_one_iff.mp hroom)
    refine ⟨[], ?_, ?_⟩
    · rw [fillDigits, if_pos hzero]
      rfl
    · rw [hzero]
      exact congrArg (List.map some) (Nat.digits_zero base).symm
  | succ room ih =>
    by_cases hzero : n = 0
    · refine ⟨[], ?_, ?_⟩
      · rw [fillDigits, if_pos hzero]
        rfl
      · rw [hzero]
        exact congrArg (List.map some) (Nat.digits_zero base).symm
    · have hpos : 0 < n.toNat := Nat.pos_of_ne_zero fun h => hzero (BitVec.eq_of_toNat_eq h)
      have hlt : (next n).toNat < base ^ room := by
        rw [hnext, Nat.div_lt_iff_lt_mul (by omega), ← Nat.pow_succ]
        exact hroom
      obtain ⟨cs, hcs, hvalues⟩ := ih hlt
      refine ⟨digit n :: cs, ?_, ?_⟩
      · rw [fillDigits, if_neg hzero]
        simp only [hcs, bind, Except.bind, pure, Except.pure]
      · rw [Nat.digits_def' hbase hpos, List.map_cons, List.map_cons, hdigit, hvalues, hnext]

/-- **The digits of a number are a numeral**, unless there are none. -/
theorem isNumeral_putDigits (hzero : value (ascii '0') = some 0) {n : ℕ} (zeros : ℕ)
    (hvalues : cs.map value = (Nat.digits base n).map some) :
    IsNumeral value base zeros n (putDigits zeros cs) ↔ zeros ≠ 0 ∨ n ≠ 0 := by
  have hlen : cs.length = (Nat.digits base n).length := by
    have hlen := congrArg List.length hvalues
    rwa [List.length_map, List.length_map] at hlen
  have hput : (putDigits zeros cs).length = max zeros cs.length := by
    rw [putDigits, List.length_append, List.length_replicate, List.length_reverse]
    omega
  constructor
  · intro h
    by_contra hnot
    rw [not_or, not_not, not_not] at hnot
    obtain ⟨rfl, rfl⟩ := hnot
    refine h.nonempty (List.eq_nil_of_length_eq_zero ?_)
    rw [hput, hlen, Nat.digits_zero]
    rfl
  · intro h
    have hpos : 1 ≤ max zeros cs.length := by
      rcases h with hzeros | hn
      · omega
      · have hne : Nat.digits base n ≠ [] := Nat.digits_ne_nil_iff_ne_zero.mpr hn
        have hpos := List.length_pos_iff.mpr hne
        omega
    refine ⟨fun hnil => ?_, ?_, ?_⟩
    · rw [hnil] at hput
      exact absurd hput (by simp; omega)
    · rw [parse, putDigits, parseFrom_append, parseFrom_zeros hzero, Option.bind_some]
      exact (parse_reverse hvalues).trans (congrArg some (Nat.ofDigits_digits base n))
    · rw [hput, ← hlen]
      omega

end Digits

/-- The character of a decimal digit. -/
theorem decimalValue_digit (n : BitVec 64) :
    decimalValue (decimalDigit n) = some (n.toNat % 10) := by
  have hmod : n.toNat % 10 < 10 := Nat.mod_lt _ (by decide)
  have hchar : (decimalDigit n).toNat = n.toNat % 10 + 48 := by
    have hten : (10 : BitVec 64).toNat = 10 := rfl
    have hzero : (ascii '0').toNat = 48 := rfl
    rw [decimalDigit, BitVec.toNat_add, BitVec.toNat_setWidth, BitVec.toNat_umod, hten, hzero]
    omega
  rw [decimalValue, isDigit, hchar]
  simp
  omega

/-- The character of a hexadecimal digit. -/
theorem hexValue_digit (cap : Bool) (n : BitVec 64) :
    hexValue (hexDigit cap n) = some (n.toNat % 16) := by
  have hmask : ((n &&& 0xf).setWidth 8).toNat = n.toNat % 16 := by
    rw [BitVec.toNat_setWidth, BitVec.toNat_and]
    have hand : n.toNat &&& (0xf : BitVec 64).toNat = n.toNat % 2 ^ 4 :=
      Nat.and_two_pow_sub_one_eq_mod _ 4
    rw [hand]
    omega
  have hall : ∀ cap : Bool, ∀ d : BitVec 8, d.toNat < 16 → hexValue
      (if d < 10 then d + ascii '0' else d - 10 + if cap then ascii 'A' else ascii 'a') =
      some d.toNat := by
    decide +kernel
  have hlt : ((n &&& 0xf).setWidth 8).toNat < 16 := by
    rw [hmask]
    exact Nat.mod_lt _ (by decide)
  rw [← hmask]
  exact hall cap _ hlt

/-! ## Numbers print back -/

/-- `print_unsigned` puts a decimal numeral of its argument. -/
def UnsignedReadsBack (zeros : ℕ) (n : BitVec 64) : Prop :=
  ∃ out, printUnsigned zeros n = .ok out ∧ IsNumeral decimalValue 10 zeros n.toNat out

/-- `print_hex` puts a hexadecimal numeral of its argument. -/
def HexReadsBack (zeros : ℕ) (n : BitVec 64) (cap : Bool) : Prop :=
  ∃ out, printHex zeros n cap = .ok out ∧ IsNumeral hexValue 16 zeros n.toNat out

/-- `print_decimal` puts digits, behind a minus sign or not, that denote its argument. -/
def DecimalReadsBack (zeros : ℕ) (n : BitVec 64) : Prop :=
  ∃ out digits k, printDecimal zeros n = .ok out ∧ digits ≠ [] ∧
    parse decimalValue 10 digits = some k ∧
    ((out = digits ∧ (k : ℤ) = n.toInt) ∨ (out = ascii '-' :: digits ∧ -(k : ℤ) = n.toInt))

/-- What `print_unsigned` puts. -/
theorem printUnsigned_eq {zeros : ℕ} (hzeros : zeros ≤ bufSize) (n : BitVec 64) :
    ∃ out, printUnsigned zeros n = .ok out ∧ (zeros = 0 → n = 0 → out = []) ∧
      (IsNumeral decimalValue 10 zeros n.toNat out ↔ zeros ≠ 0 ∨ n.toNat ≠ 0) := by
  have hroom : n.toNat < 10 ^ bufSize := lt_trans n.isLt (by decide)
  have hnext : ∀ n : BitVec 64, (n / 10).toNat = n.toNat / 10 := fun n => BitVec.toNat_udiv
  obtain ⟨cs, hcs, hvalues⟩ := fillDigits_eq (by decide) hnext decimalValue_digit hroom
  have hrun : printUnsigned zeros n = .ok (putDigits zeros cs) := by
    rw [printUnsigned, decide_eq_true hzeros, assert_true]
    exact congrArg (· >>= fun cs => pure (putDigits zeros cs)) hcs
  refine ⟨putDigits zeros cs, hrun, ?_, isNumeral_putDigits rfl zeros hvalues⟩
  rintro rfl rfl
  have hnil : cs = [] := List.map_eq_nil_iff.mp (hvalues.trans rfl)
  rw [hnil]
  rfl

theorem unsignedReadsBack_iff {zeros : ℕ} (hzeros : zeros ≤ bufSize) (n : BitVec 64) :
    UnsignedReadsBack zeros n ↔ zeros ≠ 0 ∨ n ≠ 0 := by
  obtain ⟨out, hrun, -, hiff⟩ := printUnsigned_eq hzeros n
  have hne : n.toNat ≠ 0 ↔ n ≠ 0 := by
    rw [ne_eq, ne_eq, ← BitVec.toNat_inj]
    rfl
  rw [← hne, ← hiff, UnsignedReadsBack, hrun]
  simp

theorem hexReadsBack_iff (zeros : ℕ) (n : BitVec 64) (cap : Bool) :
    HexReadsBack zeros n cap ↔ zeros ≠ 0 ∨ n ≠ 0 := by
  have hroom : n.toNat < 16 ^ bufSize := lt_trans n.isLt (by decide)
  have hnext : ∀ n : BitVec 64, (n >>> 4).toNat = n.toNat / 16 := fun n => by
    rw [BitVec.toNat_ushiftRight, Nat.shiftRight_eq_div_pow]
  obtain ⟨cs, hcs, hvalues⟩ := fillDigits_eq (by decide) hnext (hexValue_digit cap) hroom
  have hrun : printHex zeros n cap = .ok (putDigits zeros cs) :=
    congrArg (· >>= fun cs => pure (putDigits zeros cs)) hcs
  have hne : n.toNat ≠ 0 ↔ n ≠ 0 := by
    rw [ne_eq, ne_eq, ← BitVec.toNat_inj]
    rfl
  rw [← hne, ← isNumeral_putDigits rfl zeros hvalues, HexReadsBack, hrun]
  simp

/-- The sign of a number. -/
theorem slt_zero_iff (n : BitVec 64) : n.slt 0 = true ↔ 2 ^ 63 ≤ n.toNat := by
  have hlt := n.isLt
  have hzero : (0 : BitVec 64).toInt = 0 := rfl
  rw [BitVec.slt_eq_decide, decide_eq_true_eq, hzero, BitVec.toInt_eq_toNat_cond]
  split <;> omega

/-- The number whose digits are put behind a minus sign. -/
theorem toInt_neg_of_slt {n : BitVec 64} (hneg : n.slt 0 = true) :
    -(((-n).toNat : ℕ) : ℤ) = n.toInt := by
  have hlt := n.isLt
  rw [slt_zero_iff] at hneg
  rw [BitVec.toInt_eq_toNat_cond, if_neg (by omega), BitVec.toNat_neg]
  omega

/-- The number whose digits are put without one. -/
theorem toInt_of_not_slt {n : BitVec 64} (hpos : ¬ n.slt 0 = true) :
    ((n.toNat : ℕ) : ℤ) = n.toInt := by
  rw [slt_zero_iff] at hpos
  rw [BitVec.toInt_eq_toNat_cond, if_pos (by omega)]

theorem decimalReadsBack_iff {zeros : ℕ} (hzeros : zeros ≤ bufSize) (n : BitVec 64) :
    DecimalReadsBack zeros n ↔ zeros ≠ 0 ∨ n ≠ 0 := by
  constructor
  · rintro ⟨out, digits, k, hrun, hne, -, hout⟩
    by_contra hnot
    rw [not_or, not_not, not_not] at hnot
    obtain ⟨rfl, rfl⟩ := hnot
    have hnil : printDecimal 0 0 = .ok [] := rfl
    rw [hnil, Except.ok.injEq] at hrun
    subst hrun
    rcases hout with ⟨hdigits, -⟩ | ⟨hsign, -⟩
    · exact hne hdigits.symm
    · cases hsign
  · intro h
    unfold DecimalReadsBack printDecimal
    by_cases hneg : n.slt 0 = true
    · rw [if_pos hneg]
      obtain ⟨out, hrun, -, hiff⟩ := printUnsigned_eq hzeros (-n)
      have hne : (-n).toNat ≠ 0 := by
        have hint := toInt_neg_of_slt hneg
        intro hzero
        rw [hzero] at hint
        rw [BitVec.slt_eq_decide, ← hint] at hneg
        exact absurd hneg (by decide)
      obtain ⟨hout, hreads, -⟩ := hiff.mpr (.inr hne)
      refine ⟨_, out, (-n).toNat, ?_, hout, hreads, .inr ⟨rfl, toInt_neg_of_slt hneg⟩⟩
      rw [hrun]
      rfl
    · rw [if_neg hneg]
      obtain ⟨out, hrun, -, hiff⟩ := printUnsigned_eq hzeros n
      have hne : zeros ≠ 0 ∨ n.toNat ≠ 0 := h.imp id fun hn hzero =>
        hn (BitVec.eq_of_toNat_eq hzero)
      obtain ⟨hout, hreads, -⟩ := hiff.mpr hne
      exact ⟨out, out, n.toNat, hrun, hout, hreads, .inl ⟨rfl, toInt_of_not_slt hneg⟩⟩

/-- **Numbers print back** except for 0 without leading zeros. -/
theorem numbers_read_back_iff {zeros : ℕ} (hzeros : zeros ≤ 64) (n : BitVec 64) (cap : Bool) :
    (UnsignedReadsBack zeros n ↔ zeros ≠ 0 ∨ n ≠ 0) ∧
      (HexReadsBack zeros n cap ↔ zeros ≠ 0 ∨ n ≠ 0) ∧
      (DecimalReadsBack zeros n ↔ zeros ≠ 0 ∨ n ≠ 0) :=
  ⟨unsignedReadsBack_iff hzeros n, hexReadsBack_iff zeros n cap, decimalReadsBack_iff hzeros n⟩

/-- The lowest number. -/
theorem numbers_read_back_lowest : DecimalReadsBack 0 0x8000000000000000 :=
  (numbers_read_back_iff (by decide) 0x8000000000000000 false).2.2.mpr (.inr (by decide))

/-- **The number 0 is not printed.** -/
theorem not_numbers_read_back : printUnsigned 0 0 = .ok [] ∧ ¬ UnsignedReadsBack 0 0 := by
  have hnil : printUnsigned 0 0 = .ok [] := rfl
  refine ⟨hnil, ?_⟩
  rintro ⟨out, hrun, hnumeral⟩
  rw [hnil, Except.ok.injEq] at hrun
  exact hnumeral.nonempty hrun.symm

/-! ## Binary dumps -/

/-- The bits of `n`, the highest first. -/
def bitsOf (sz : ℕ) (n : BitVec 64) : List Char8 :=
  (List.range (8 * sz)).map fun k =>
    if n.getLsbD (8 * sz - 1 - k) then ascii '1' else ascii '0'

/-- The loop looks at the bits under the mask, which goes down by one bit a round. -/
theorem binaryDigits_eq (n : BitVec 64) (sz : ℕ) (mask : BitVec 64) : binaryDigits n sz mask =
    (List.range sz).map fun k => if mask >>> k &&& n ≠ 0 then ascii '1' else ascii '0' := by
  induction sz generalizing mask with
  | zero => rfl
  | succ sz ih =>
    rw [binaryDigits, ih, List.range_succ_eq_map, List.map_cons, List.map_map]
    congr 1
    refine List.map_congr_left fun k _ => ?_
    rw [Function.comp_apply, ← BitVec.shiftRight_add, Nat.succ_eq_add_one, Nat.add_comm 1 k]

/-- Some bit is set in both of two words. -/
theorem and_ne_zero_iff (x n : BitVec 64) :
    x &&& n ≠ 0 ↔ ∃ i, x.getLsbD i = true ∧ n.getLsbD i = true := by
  constructor
  · intro hne
    by_contra hnot
    refine hne (BitVec.eq_of_getLsbD_eq fun i hi => ?_)
    rw [BitVec.getLsbD_and]
    grind
  · rintro ⟨i, hx, hn⟩ hzero
    have hbit := congrArg (BitVec.getLsbD · i) hzero
    simp [hx, hn] at hbit

/-- Two digits are the same when they tell the same. -/
theorem digit_eq_iff (p q : Prop) [Decidable p] [Decidable q] :
    ((if p then ascii '1' else ascii '0') = if q then ascii '1' else ascii '0') ↔ (p ↔ q) := by
  have hone : ascii '1' ≠ ascii '0' := by decide
  by_cases hp : p <;> by_cases hq : q <;> simp [hp, hq, hone, hone.symm]

/-- **What a dump shows**: a digit is 1 when a bit under the mask is set. -/
theorem printBinary_eq_bitsOf_iff {sz : ℕ} {n mask : BitVec 64} (hsz : sz ≤ 8)
    (hmask : (1#32 <<< (sub64 (wrap64 (sz <<< 3)) 1 % 32)).signExtend 64 = mask) :
    printBinary sz n = bitsOf sz n ↔ ∀ k < 8 * sz,
      (∃ i, mask.getLsbD (k + i) = true ∧ n.getLsbD i = true) ↔
        n.getLsbD (8 * sz - 1 - k) = true := by
  have hlen : wrap64 (sz <<< 3) = 8 * sz := by
    rw [Nat.shiftLeft_eq, wrap64_of_lt (by omega)]
    omega
  rw [printBinary, hmask, hlen, binaryDigits_eq, bitsOf, List.map_inj_left]
  refine forall_congr' fun k => ?_
  rw [List.mem_range]
  refine imp_congr Iff.rfl ?_
  have hunder : (∃ i, mask.getLsbD (k + i) = true ∧ n.getLsbD i = true) ↔ mask >>> k &&& n ≠ 0 := by
    rw [and_ne_zero_iff]
    simp only [BitVec.getLsbD_ushiftRight]
  rw [hunder]
  exact digit_eq_iff _ _

/-- The mask of one bit. -/
theorem printBinary_single {sz m : ℕ} {n : BitVec 64} (hsz : sz ≤ 8) (hm : 8 * sz = m + 1)
    (hmask : (1#32 <<< (sub64 (wrap64 (sz <<< 3)) 1 % 32)).signExtend 64 = BitVec.twoPow 64 m) :
    printBinary sz n = bitsOf sz n := by
  rw [printBinary_eq_bitsOf_iff hsz hmask]
  intro k hk
  have hplace : 8 * sz - 1 - k = m - k := by omega
  rw [hplace]
  constructor
  · rintro ⟨i, hbit, hi⟩
    rw [BitVec.getLsbD_twoPow] at hbit
    have heq : i = m - k := by
      simp at hbit
      omega
    rwa [← heq]
  · intro hi
    refine ⟨m - k, ?_, hi⟩
    rw [BitVec.getLsbD_twoPow]
    simp
    omega

/-- The mask that is extended by its sign. -/
theorem printBinary_extended {sz : ℕ} {n : BitVec 64} (hsz : sz ≤ 8)
    (hmask : (1#32 <<< (sub64 (wrap64 (sz <<< 3)) 1 % 32)).signExtend 64 = 0xffffffff80000000) :
    printBinary sz n = bitsOf sz n ↔ ∀ k < 8 * sz,
      (∃ i, 31 ≤ k + i ∧ k + i < 64 ∧ n.getLsbD i = true) ↔
        n.getLsbD (8 * sz - 1 - k) = true := by
  have hbits : ∀ j, (0xffffffff80000000 : BitVec 64).getLsbD j = decide (31 ≤ j ∧ j < 64) := by
    intro j
    rcases Nat.lt_or_ge j 64 with hj | hj
    · revert j
      decide
    · rw [BitVec.getLsbD_of_ge _ _ hj]
      simp [Nat.not_lt.mpr hj]
  rw [printBinary_eq_bitsOf_iff hsz hmask]
  simp only [hbits, decide_eq_true_eq, and_assoc]

/-- Bits that are closed downwards are those of a power of two less one. -/
theorem bits_down_iff {n w : ℕ} (hn : n < 2 ^ w) :
    (∀ i j, i ≤ j → n.testBit j = true → n.testBit i = true) ↔ ∃ j ≤ w, n = 2 ^ j - 1 := by
  constructor
  · intro hdown
    have hexists : ∃ j, n.testBit j = false := ⟨w, Nat.testBit_lt_two_pow hn⟩
    refine ⟨Nat.find hexists, Nat.find_min' hexists (Nat.testBit_lt_two_pow hn), ?_⟩
    refine Nat.eq_of_testBit_eq fun i => ?_
    rw [Nat.testBit_two_pow_sub_one]
    rcases Nat.lt_or_ge i (Nat.find hexists) with hlt | hge
    · rw [decide_eq_true hlt]
      exact Bool.not_eq_false _ ▸ Nat.find_min hexists hlt
    · rw [decide_eq_false (Nat.not_lt.mpr hge)]
      by_contra hset
      rw [Bool.not_eq_false] at hset
      exact absurd (hdown _ _ hge hset) (by rw [Nat.find_spec hexists]; exact Bool.false_ne_true)
  · rintro ⟨j, -, rfl⟩ i k hik hk
    rw [Nat.testBit_two_pow_sub_one, decide_eq_true_eq] at hk ⊢
    omega

/-- With the size 4 all bits above a digit are under its mask. -/
theorem shows_down_iff {n : BitVec 64} (hn : n.toNat < 2 ^ 32) :
    (∀ k < 32, (∃ i, 31 ≤ k + i ∧ k + i < 64 ∧ n.getLsbD i = true) ↔ n.getLsbD (31 - k) = true) ↔
      ∀ i j, i ≤ j → n.getLsbD j = true → n.getLsbD i = true := by
  constructor
  · intro h i j hij hj
    have hlt : j < 32 := by
      by_contra hge
      have hbit : n.toNat.testBit j = false :=
        Nat.testBit_lt_two_pow (lt_of_lt_of_le hn (Nat.pow_le_pow_right (by decide) (by omega)))
      rw [BitVec.testBit_toNat, hj] at hbit
      cases hbit
    have hi := (h (31 - i) (by omega)).mp ⟨j, by omega, by omega, hj⟩
    have hplace : 31 - (31 - i) = i := by omega
    rwa [hplace] at hi
  · intro hdown k hk
    constructor
    · rintro ⟨i, hge, -, hi⟩
      exact hdown _ i (by omega) hi
    · intro hi
      exact ⟨31 - k, by omega, by omega, hi⟩

/-- With the size 8 a set bit makes the digits of the bits above show up as set. -/
theorem shows_up_iff (n : BitVec 64) :
    (∀ k < 64, (∃ i, 31 ≤ k + i ∧ k + i < 64 ∧ n.getLsbD i = true) ↔ n.getLsbD (63 - k) = true) ↔
      ∀ i j, i ≤ j → (~~~n).getLsbD j = true → (~~~n).getLsbD i = true := by
  have hnot : ∀ i, (~~~n).getLsbD i = true ↔ i < 64 ∧ n.getLsbD i = false := by
    intro i
    rw [BitVec.getLsbD_not]
    simp
  simp only [hnot]
  constructor
  · rintro h i j hij ⟨hj, hclear⟩
    refine ⟨by omega, ?_⟩
    by_contra hset
    rw [Bool.not_eq_false] at hset
    have hup : ∀ d, i + d < 64 → n.getLsbD (i + d) = true := by
      intro d
      induction d with
      | zero => exact fun _ => hset
      | succ d ih =>
        intro hd
        have hnext := (h (63 - (i + d + 1)) (by omega)).mp ⟨i + d, by omega, by omega,
          ih (by omega)⟩
        have hplace : 63 - (63 - (i + d + 1)) = i + (d + 1) := by omega
        rwa [hplace] at hnext
    have hj' := hup (j - i) (by omega)
    rw [Nat.add_sub_cancel' hij, hclear] at hj'
    cases hj'
  · intro hdown k hk
    constructor
    · rintro ⟨i, -, hlt, hi⟩
      by_contra hclear
      rw [Bool.not_eq_true] at hclear
      have hfalse := (hdown i (63 - k) (by omega) ⟨by omega, hclear⟩).2
      rw [hi] at hfalse
      cases hfalse
    · intro hi
      exact ⟨63 - k, by omega, by omega, hi⟩

/-- **Binary dumps are faithful** for the sizes 1 and 2; for the size 4 when the number is a power
of two less one, and for the size 8 when it is a power of two less than `2 ^ 64`. -/
theorem binary_faithful_iff {sz : ℕ} {n : BitVec 64} (hsz : sz ∈ [1, 2, 4, 8])
    (hn : n.toNat < 2 ^ (8 * sz)) : printBinary sz n = bitsOf sz n ↔
      sz ≤ 2 ∨ (sz = 4 ∧ ∃ j ≤ 32, n.toNat = 2 ^ j - 1) ∨
        (sz = 8 ∧ ∃ j ≤ 64, n.toNat = 2 ^ 64 - 2 ^ j) := by
  simp only [List.mem_cons, List.not_mem_nil, or_false] at hsz
  rcases hsz with rfl | rfl | rfl | rfl
  · exact iff_of_true (printBinary_single (m := 7) (by decide) rfl rfl) (.inl (by decide))
  · exact iff_of_true (printBinary_single (m := 15) (by decide) rfl rfl) (.inl (by decide))
  · have hdown := bits_down_iff hn
    simp only [BitVec.testBit_toNat] at hdown
    rw [printBinary_extended (by decide) rfl, shows_down_iff hn, hdown]
    simp
  · have hdown := bits_down_iff (~~~n).isLt
    simp only [BitVec.testBit_toNat] at hdown
    have hpower : ∀ j ≤ 64, (~~~n).toNat = 2 ^ j - 1 ↔ n.toNat = 2 ^ 64 - 2 ^ j := by
      intro j hj
      have hlt := n.isLt
      have hpos : 0 < 2 ^ j := Nat.two_pow_pos j
      have hle : 2 ^ j ≤ 2 ^ 64 := Nat.pow_le_pow_right (by decide) hj
      rw [BitVec.toNat_not]
      omega
    rw [printBinary_extended (by decide) rfl, shows_up_iff, hdown]
    simp only [Nat.reduceLeDiff, false_or, Nat.reduceEqDiff, false_and, true_and]
    exact exists_congr fun j => and_congr_right fun hj => hpower j hj

/-- The number 7 in 32 bits. -/
theorem binary_faithful_seven : printBinary 4 7 = bitsOf 4 7 :=
  (binary_faithful_iff (by decide) (by decide)).mpr (.inr (.inl ⟨rfl, 3, by decide, rfl⟩))

/-- **The number 2 is dumped as 3.** -/
theorem not_binary_faithful : printBinary 4 2 = bitsOf 4 3 ∧ printBinary 4 2 ≠ bitsOf 4 2 := by
  decide

end Mimik.Printk
