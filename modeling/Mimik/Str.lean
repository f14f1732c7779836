/-
# Strings (`mem/str.c`)

A string is what its pointer reads: the byte at each offset, or the fault of an access
that is out of bounds.  A pointer that is `NULL` is not of this type.

Nothing in `str_length` bounds the loop, which reads up to the first NUL byte: its bound
is an argument of the model.
-/
import Mimik.GuardedRun
import Mimik.Basic
import Mathlib.Data.List.GetD

namespace Mimik

/-- `char`. -/
abbrev Char8 := BitVec 8

/-- A `char*`: the byte at each offset, or the fault of reading it. -/
abbrev Str := ℕ → Except Fault Char8

/-- A string of its own, with the NUL byte behind its characters. -/
def Str.ofList (s : List Char8) : Str := fun i =>
  if i ≤ s.length then .ok (s.getD i 0) else .error (.wild "str")

/-- The characters of a string constant. -/
def chars (s : String) : List Char8 := s.toList.map fun c => BitVec.ofNat 8 c.toNat

/-- The loop of `str_length`, from the offset `len` on. -/
def strLengthFrom (str : Str) : ℕ → ℕ → Except Fault ℕ
  | 0, _ => .error .outOfFuel
  | fuel + 1, len => do
    let c ← str len
    if c = 0 then return len else strLengthFrom str fuel (len + 1)

/-- `str_length`. -/
def strLength (fuel : ℕ) (str : Str) : Except Fault ℕ := strLengthFrom str fuel 0

/-- The loop of `str_nequal`, for `n` characters from the offset `i` on. -/
def strNequalFrom (this other : Str) : ℕ → ℕ → Except Fault Bool
  | 0, _ => return true
  | n + 1, i => do
    let a ← this i
    let b ← other i
    if a ≠ b then return false else strNequalFrom this other n (i + 1)

/-- `str_nequal`. -/
def strNequal (this other : Str) (n : ℕ) : Except Fault Bool := do
  assert (0 < n) "n > 0"
  strNequalFrom this other n 0

/-- `str_equal`. -/
def strEqual (fuel : ℕ) (this other : Str) : Except Fault Bool := do
  let n1 ← strLength fuel this
  let n2 ← strLength fuel other
  if n1 ≠ n2 then return false else strNequal this other n1

/-! ## More fuel

A result for some fuel is the result for more of it. -/

/-- `x` ran out of fuel, or is the same as `y`. -/
def Approx {α : Type} (x y : Except Fault α) : Prop := x = .error .outOfFuel ∨ x = y

namespace Approx

variable {α β : Type} {x y : Except Fault α} {f g : α → Except Fault β}

protected theorem refl (x : Except Fault α) : Approx x x := .inr rfl

protected theorem bind (hx : Approx x y) (hf : ∀ a, Approx (f a) (g a)) :
    Approx (x >>= f) (y >>= g) := by
  rcases hx with rfl | rfl
  · exact .inl rfl
  · cases x with
    | error e => exact .inr rfl
    | ok a => exact hf a

protected theorem ite {c : Prop} [Decidable c] {x' y' : Except Fault α} (h : Approx x y)
    (h' : Approx x' y') : Approx (if c then x else x') (if c then y else y') := by
  split
  · exact h
  · exact h'

/-- What is not out of fuel is the result. -/
theorem eq_of_ne (h : Approx x y) (hne : x ≠ .error .outOfFuel) : x = y := h.resolve_left hne

end Approx

theorem strLengthFrom_approx (str : Str) {fuel fuel' : ℕ} (h : fuel ≤ fuel') (len : ℕ) :
    Approx (strLengthFrom str fuel len) (strLengthFrom str fuel' len) := by
  induction fuel generalizing fuel' len with
  | zero => exact .inl rfl
  | succ fuel ih =>
    obtain ⟨fuel', rfl⟩ := Nat.exists_eq_add_of_le' (Nat.one_le_of_lt h)
    apply Approx.bind (Approx.refl _)
    intro c
    exact Approx.ite (Approx.refl _) (ih (by omega) (len + 1))

theorem strEqual_approx (this other : Str) {fuel fuel' : ℕ} (h : fuel ≤ fuel') :
    Approx (strEqual fuel this other) (strEqual fuel' this other) := by
  apply Approx.bind (strLengthFrom_approx this h 0)
  intro n1
  apply Approx.bind (strLengthFrom_approx other h 0)
  exact fun n2 => Approx.refl _

/-! ## What the functions read -/

section Reads

variable {str this other : Str} {s t : List Char8} {fuel n i k : ℕ}

/-- The pointer reads the characters of `s`, none of which is NUL, and a NUL byte behind
them. -/
structure Holds (str : Str) (s : List Char8) : Prop where
  char : ∀ i < s.length, str i = .ok (s.getD i 0)
  nonzero : ∀ i < s.length, s.getD i 0 ≠ 0
  nul : str s.length = .ok 0

theorem holds_ofList (h : ∀ i < s.length, s.getD i 0 ≠ 0) : Holds (Str.ofList s) s where
  char i hi := if_pos hi.le
  nonzero := h
  nul := by
    rw [Str.ofList, if_pos le_rfl, List.getD_eq_default _ _ le_rfl]

/-- A pointer holds one string. -/
theorem Holds.unique (hs : Holds str s) (ht : Holds str t) : s = t := by
  -- the NUL byte of one string is no character of the other
  have hle : ∀ {u w : List Char8}, Holds str u → Holds str w → w.length ≤ u.length := by
    intro u w hu hw
    by_contra hlt
    have hchar := hw.char u.length (by omega)
    rw [hu.nul, Except.ok.injEq] at hchar
    exact hw.nonzero u.length (by omega) hchar.symm
  have hlen : s.length = t.length := le_antisymm (hle ht hs) (hle hs ht)
  refine List.ext_getElem hlen fun i hi hi' => ?_
  have hchar := (hs.char i hi).symm.trans (ht.char i hi')
  rw [Except.ok.injEq, List.getD_eq_getElem _ _ hi, List.getD_eq_getElem _ _ hi'] at hchar
  exact hchar

/-- The loop of `str_length` on a string of `n` more characters. -/
theorem strLengthFrom_eq (hchar : ∀ j < n, ∃ c, str (i + j) = .ok c ∧ c ≠ 0)
    (hnul : str (i + n) = .ok 0) :
    strLengthFrom str fuel i = if n < fuel then .ok (i + n) else .error .outOfFuel := by
  induction fuel generalizing i n with
  | zero => rfl
  | succ fuel ih =>
    cases n with
    | zero =>
      rw [Nat.add_zero] at hnul
      rw [strLengthFrom, hnul, if_pos (Nat.succ_pos fuel)]
      rfl
    | succ n =>
      obtain ⟨c, hc, hne⟩ := hchar 0 (Nat.succ_pos n)
      rw [Nat.add_zero] at hc
      have hshift : ∀ j, i + 1 + j = i + (j + 1) := fun j => by omega
      have hrest : strLengthFrom str fuel (i + 1) =
          if n < fuel then .ok (i + 1 + n) else .error .outOfFuel := by
        refine ih (fun j hj => ?_) ?_
        · rw [hshift]
          exact hchar (j + 1) (by omega)
        · rw [hshift]
          exact hnul
      rw [strLengthFrom, hc]
      show (if c = 0 then _ else _) = _
      rw [if_neg hne, hrest, hshift]
      simp only [Nat.add_lt_add_iff_right]

/-- `str_length` of a string. -/
theorem strLength_eq (h : Holds str s) (fuel : ℕ) :
    strLength fuel str = if s.length < fuel then .ok s.length else .error .outOfFuel := by
  rw [strLength, strLengthFrom_eq (n := s.length), Nat.zero_add]
  · intro j hj
    rw [Nat.zero_add]
    exact ⟨_, h.char j hj, h.nonzero j hj⟩
  · rw [Nat.zero_add]
    exact h.nul

/-- The loop of `str_nequal` on characters that can be read. -/
theorem strNequalFrom_eq (hthis : ∀ j < n, this (i + j) = .ok (s.getD (i + j) 0))
    (hother : ∀ j < n, other (i + j) = .ok (t.getD (i + j) 0)) :
    strNequalFrom this other n i = .ok (decide (∀ j < n, s.getD (i + j) 0 = t.getD (i + j) 0)) := by
  induction n generalizing i with
  | zero =>
    rw [decide_eq_true fun j hj => absurd hj (Nat.not_lt_zero j)]
    rfl
  | succ n ih =>
    have ha := hthis 0 (Nat.succ_pos n)
    have hb := hother 0 (Nat.succ_pos n)
    rw [Nat.add_zero] at ha hb
    have hshift : ∀ j, i + 1 + j = i + (j + 1) := fun j => by omega
    rw [strNequalFrom, ha, hb]
    show (if s.getD i 0 ≠ t.getD i 0 then _ else _) = _
    by_cases hne : s.getD i 0 ≠ t.getD i 0
    · rw [if_pos hne, decide_eq_false fun hall => hne (hall 0 (Nat.succ_pos n))]
      rfl
    · rw [if_neg hne, ih (fun j hj => by rw [hshift]; exact hthis (j + 1) (by omega))
        (fun j hj => by rw [hshift]; exact hother (j + 1) (by omega))]
      congr 1
      rw [decide_eq_decide]
      constructor
      · intro hall j hj
        cases j with
        | zero => exact not_not.mp hne
        | succ j =>
          have hj' := hall j (by omega)
          rwa [hshift] at hj'
      · intro hall j hj
        rw [hshift]
        exact hall (j + 1) (by omega)

/-- `str_nequal` of two strings of the length that is compared. -/
theorem strNequal_eq (hthis : Holds this s) (hother : Holds other t) (hlen : s.length = t.length)
    (hpos : 0 < s.length) : strNequal this other s.length = .ok (decide (s = t)) := by
  have hloop : strNequalFrom this other s.length 0 =
      .ok (decide (∀ j < s.length, s.getD (0 + j) 0 = t.getD (0 + j) 0)) := by
    refine strNequalFrom_eq (fun j hj => ?_) fun j hj => ?_
    · rw [Nat.zero_add]
      exact hthis.char j hj
    · rw [Nat.zero_add]
      exact hother.char j (hlen ▸ hj)
  rw [strNequal, decide_eq_true hpos, assert_true]
  show strNequalFrom this other s.length 0 = _
  rw [hloop, Except.ok.injEq, decide_eq_decide]
  constructor
  · intro hall
    refine List.ext_getElem hlen fun j hj hj' => ?_
    have hchar := hall j hj
    rwa [Nat.zero_add, List.getD_eq_getElem _ _ hj, List.getD_eq_getElem _ _ hj'] at hchar
  · rintro rfl j _
    rfl

/-- **`str_equal` on two strings that are not both empty.**  With enough fuel it says
whether they are equal. -/
theorem strEqual_eq (hthis : Holds this s) (hother : Holds other t) (hne : s ≠ [] ∨ t ≠ [])
    (fuel : ℕ) : strEqual fuel this other =
      if s.length < fuel ∧ t.length < fuel then .ok (decide (s = t)) else .error .outOfFuel := by
  rw [strEqual, strLength_eq hthis, strLength_eq hother]
  by_cases hs : s.length < fuel
  · by_cases ht : t.length < fuel
    · rw [if_pos hs, if_pos ht, if_pos ⟨hs, ht⟩]
      show (if s.length ≠ t.length then _ else _) = _
      by_cases hlen : s.length = t.length
      · have hpos : 0 < s.length := by
          rcases hne with hne | hne
          · exact List.length_pos_iff.mpr hne
          · rw [hlen]
            exact List.length_pos_iff.mpr hne
        rw [if_neg (not_not.mpr hlen), strNequal_eq hthis hother hlen hpos]
      · have hst : s ≠ t := fun h => hlen (congrArg List.length h)
        rw [if_pos hlen, decide_eq_false hst]
        rfl
    · rw [if_pos hs, if_neg ht, if_neg fun h : _ ∧ _ => ht h.2]
      rfl
  · rw [if_neg hs, if_neg fun h : _ ∧ _ => hs h.1]
    rfl

/-- Two empty strings are not compared: the assertion of `str_nequal` fails. -/
theorem strEqual_nil (hthis : Holds this []) (hother : Holds other []) (fuel : ℕ) :
    strEqual (fuel + 1) this other = .error (.assertion "n > 0") := by
  have hlen : ([] : List Char8).length < fuel + 1 := Nat.succ_pos fuel
  rw [strEqual, strLength_eq hthis, strLength_eq hother, if_pos hlen]
  rfl

/-! ## When equality is decided -/

/-- The pointer `str` with nothing to read behind the offset `n`. -/
def Str.upTo (str : Str) (n : ℕ) : Str := fun i => if i ≤ n then str i else .error (.wild "str")

/-- A string is read through the pointer that ends at its NUL byte. -/
theorem Holds.upTo (h : Holds str s) : Holds (str.upTo s.length) s where
  char i hi := by
    unfold Str.upTo
    rw [if_pos hi.le]
    exact h.char i hi
  nonzero := h.nonzero
  nul := by
    unfold Str.upTo
    rw [if_pos le_rfl]
    exact h.nul

/-- `str_equal` depends on the strings, and on nothing else that the pointers read. -/
theorem strEqual_congr {this' other' : Str} (hthis : Holds this s) (hother : Holds other t)
    (hthis' : Holds this' s) (hother' : Holds other' t) (fuel : ℕ) :
    strEqual fuel this other = strEqual fuel this' other' := by
  by_cases hne : s ≠ [] ∨ t ≠ []
  · rw [strEqual_eq hthis hother hne, strEqual_eq hthis' hother' hne]
  · simp only [not_or, not_not] at hne
    obtain ⟨rfl, rfl⟩ := hne
    cases fuel with
    | zero => rfl
    | succ fuel => rw [strEqual_nil hthis hother, strEqual_nil hthis' hother']

/-- `str_equal` returns whether the two strings are the same, and no byte behind their NUL bytes
makes a difference, not even one that cannot be read. -/
structure DecidesEqual (s t : List Char8) : Prop where
  returns {this other : Str} (hthis : Holds this s) (hother : Holds other t) {fuel : ℕ}
    (hs : s.length < fuel) (ht : t.length < fuel) :
    strEqual fuel this other = .ok (decide (s = t))
  stops {this other : Str} (hthis : Holds this s) (hother : Holds other t) (fuel : ℕ) :
    strEqual fuel (this.upTo s.length) (other.upTo t.length) = strEqual fuel this other

theorem holds_nil : Holds (Str.ofList []) [] :=
  holds_ofList fun _ hi => absurd hi (Nat.not_lt_zero _)

/-- **`str_equal` decides equality exactly of the strings that are not both empty.** -/
theorem decidesEqual_iff (s t : List Char8) : DecidesEqual s t ↔ s ≠ [] ∨ t ≠ [] := by
  constructor
  · intro h
    by_contra hne
    simp only [not_or, not_not] at hne
    obtain ⟨rfl, rfl⟩ := hne
    have hok := h.returns holds_nil holds_nil Nat.one_pos Nat.one_pos
    rw [strEqual_nil holds_nil holds_nil] at hok
    cases hok
  · intro hne
    constructor
    · intro this other hthis hother fuel hs ht
      rw [strEqual_eq hthis hother hne, if_pos ⟨hs, ht⟩]
    · intro this other hthis hother fuel
      exact strEqual_congr hthis.upTo hother.upTo hthis hother fuel

/-- The empty string is not compared with itself. -/
theorem not_decidesEqual_nil : ¬ DecidesEqual [] [] := by
  intro h
  have hok := h.returns holds_nil holds_nil Nat.one_pos Nat.one_pos
  have hrun : strEqual 1 (Str.ofList []) (Str.ofList []) = .error (.assertion "n > 0") := by
    decide
  rw [hrun] at hok
  cases hok

end Reads

end Mimik
