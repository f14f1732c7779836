/-
# Words, faults and constants of the kernel

The vocabulary shared by the models of the memory subsystems of MIMIK:

* `size_t`, `addr_t` and the enumerations are natural numbers; where the source
  relies on the width of the type the wrap-around is written out (`wrap64`).
  The entries of page tables and virtual addresses, whose bits matter, are
  `BitVec 64` (`PageEntry.lean`).
* `status_t` is an integer, negative for an error (`errors.h`).
* `ASSERT(x)` prints `#x` and halts the machine (`assert.c`): a call that trips
  one never returns.  A model function therefore returns in `Except Fault`, and a
  `Fault` is a call that does not come back.
-/
import Mathlib.Tactic.Common
import Mathlib.Tactic.Linarith

namespace Mimik

/-! ## Faults -/

/-- The ways in which a call fails to return. -/
inductive Fault where
  /-- `_assert_fail(…, #x)`: the expression text is printed and the machine halts. -/
  | assertion (expr : String)
  /-- An access through a pointer that points to no object of the expected type. -/
  | wild (what : String)
  /-- The fuel given to the model was used up; a call that has this result for
  every amount of fuel does not terminate. -/
  | outOfFuel
  deriving DecidableEq, Repr

/-- `ASSERT(x)`. -/
def assert (x : Bool) (expr : String) : Except Fault Unit :=
  if x then .ok () else .error (.assertion expr)

/-- An assertion is passed exactly when its condition holds. -/
@[simp] theorem assert_eq_ok {x : Bool} {expr : String} {u : Unit} :
    assert x expr = .ok u ↔ x = true := by
  cases x <;> simp [assert]

/-- An assertion whose condition holds does nothing. -/
@[simp] theorem assert_true (expr : String) : assert true expr = .ok () := rfl

/-- An assertion whose condition fails halts. -/
@[simp] theorem assert_false (expr : String) :
    assert false expr = .error (.assertion expr) := rfl

/-! ## Machine words -/

/-- Reduction to a 64-bit word. -/
def wrap64 (n : ℕ) : ℕ := n % 2 ^ 64

/-- Nothing is lost of a number that fits in a word. -/
theorem wrap64_of_lt {n : ℕ} (h : n < 2 ^ 64) : wrap64 n = n := Nat.mod_eq_of_lt h

/-- `--x` on a `size_t`. -/
def pred64 (n : ℕ) : ℕ := if n = 0 then 2 ^ 64 - 1 else n - 1

/-- `x - y` on a `size_t`. -/
def sub64 (m n : ℕ) : ℕ := if m < n then m + 2 ^ 64 - n else m - n

/-- Setting and clearing one bit of a word, read back. -/
theorem getLsbD_mask {w : ℕ} (m : BitVec w) {j k : ℕ} (h : j < w ∨ k < w) :
    (m ||| 1#w <<< j).getLsbD k = (if k = j then true else m.getLsbD k) ∧
      (m &&& ~~~(1#w <<< j)).getLsbD k = (if k = j then false else m.getLsbD k) := by
  have hmask : (1#w <<< j).getLsbD k = decide (k = j) := by
    rw [BitVec.getLsbD_shiftLeft, BitVec.getLsbD_one]
    grind
  rw [BitVec.getLsbD_or, BitVec.getLsbD_and, BitVec.getLsbD_not, hmask]
  grind

/-! ## Pages (`mem/page.h`, `util/align.h`) -/

/-- `PAGE_SIZE`. -/
def pageSize : ℕ := 4096

/-- `PAGES(b)`: the number of pages that hold `b` bytes. -/
def pagesOf (b : ℕ) : ℕ := wrap64 (b + pageSize - 1) / pageSize

/-- `BYTES(p)`: the number of bytes of `p` pages. -/
def bytesOf (p : ℕ) : ℕ := wrap64 (p * pageSize)

/-- `ALIGNUP(val, align)`, for a power of two. -/
def alignUp (val align : ℕ) : ℕ := wrap64 (val + (align - 1)) / align * align

/-- `PAGEALIGNUP(a)`. -/
def pageAlignUp (a : ℕ) : ℕ := wrap64 (a + (pageSize - 1)) / pageSize * pageSize

/-! ## Status codes (`errors.h`, `types.h`) -/

/-- `status_t`. -/
abbrev Status := ℤ

/-- `SUCCESS`. -/
def success : Status := 0

/-- `EINVAL`. -/
def einval : Status := 1

/-- `EOVERLAP`. -/
def eoverlap : Status := 2

/-- `EFULL`. -/
def efull : Status := 3

/-- `ENOMAP`. -/
def enomap : Status := 4

/-- `ENOENT`. -/
def enoent : Status := 5

/-- `ENOTIMPL`. -/
def enotimpl : Status := 6

/-- `EINTEGRITY`. -/
def eintegrity : Status := 7

/-- `ISERROR(e)`. -/
def isError (e : Status) : Bool := e < 0

end Mimik
