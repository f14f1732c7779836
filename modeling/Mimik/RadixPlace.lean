/-
# Places of paths in radix tables

`place` is how far the walk of a path comes: the table in which it ends, at the first
entry that is not present or at the last index, and the part of the path that is left
there.  Two paths with one place stay together, whatever is entered in the tables:
what makes one of them lead to a leaf makes the other lead to it.

Tables change in two ways here: the entries above the last level keep their presence
and their targets (`place_congr`), or one of them is linked to a new, empty table
(`place_link`).  Neither makes two places of one, or one place of two
(`place_eq_link`).

Nothing here mentions a particular table format.
-/
import Mimik.RadixWalk

namespace Radix

variable {τ E : Type*} (R : Radix τ E) (read read' : τ → ℕ → E)

/-- Where the walk of a path ends, and the part of the path that is left there. -/
def place : τ → List ℕ → τ × List ℕ
  | p, [] => (p, [])
  | p, [i] => (p, [i])
  | p, i :: j :: path =>
    if R.present (read p i) then place (R.next (read p i)) (j :: path) else (p, i :: j :: path)

variable {R read read'} {root p q f : τ} {n d i : ℕ} {path rest : List ℕ} {e : E}

@[simp] theorem place_singleton : R.place read p [i] = (p, [i]) := rfl

/-- A path goes on in the table that its first entry leads to. -/
theorem place_cons (hpath : path ≠ []) :
    R.place read p (i :: path) =
      if R.present (read p i) then R.place read (R.next (read p i)) path else (p, i :: path) := by
  cases path with
  | nil => exact absurd rfl hpath
  | cons j path => rfl

/-- The last place of a path is the place with one index left. -/
theorem leafSlot_eq_some_iff : R.leafSlot read p path = some (q, i) ↔
    R.place read p path = (q, [i]) := by
  induction path generalizing p with
  | nil =>
    constructor
    · intro h; cases h
    · intro h; cases h
  | cons j path ih =>
    by_cases hpath : path = []
    · subst hpath
      rw [leafSlot_singleton, place_singleton, Option.some.injEq, Prod.mk.injEq, Prod.mk.injEq,
        List.cons.injEq]
      simp
    · rw [leafSlot_cons hpath, place_cons hpath]
      split
      next => exact ih
      next =>
        constructor
        · intro h; cases h
        · intro h
          rw [Prod.mk.injEq, List.cons.injEq] at h
          exact absurd h.2.2 hpath

variable (R read) in
/-- The entry in a place, if the walk came to the last index and it is present. -/
def placed : τ × List ℕ → Option E
  | (q, [i]) => R.entry read (q, i)
  | _ => none

/-- The leaf of a path is the entry in its place. -/
theorem leaf_eq_placed : R.leaf read p path = R.placed read (R.place read p path) := by
  rw [leaf]
  cases hslot : R.leafSlot read p path with
  | some slot => rw [leafSlot_eq_some_iff.mp hslot]; rfl
  | none =>
    have hnot : ∀ q i, R.place read p path ≠ (q, [i]) := by
      intro q i hplace
      rw [leafSlot_eq_some_iff.mpr hplace] at hslot
      cases hslot
    generalize R.place read p path = pl at hnot
    obtain ⟨q, rest⟩ := pl
    rcases rest with _ | ⟨i, _ | ⟨j, rest⟩⟩
    · rfl
    · exact absurd rfl (hnot q i)
    · rfl

/-- An index is left where a walk ends. -/
theorem place_ne_nil (hpath : path ≠ []) : (R.place read p path).2 ≠ [] := by
  induction path generalizing p with
  | nil => exact absurd rfl hpath
  | cons i path ih =>
    by_cases hrest : path = []
    · subst hrest
      exact List.cons_ne_nil _ _
    · rw [place_cons hrest]
      split
      next => exact ih hrest
      next => exact List.cons_ne_nil _ _

/-- The walk ends in a table as far down as indices are used up. -/
theorem At.place (hp : R.At read root n p) (hwidth : ∀ i ∈ path, i < R.width) :
    ∃ m, R.At read root m (R.place read p path).1 ∧
      m + (R.place read p path).2.length = n + path.length ∧
      ∀ i ∈ (R.place read p path).2, i < R.width := by
  induction path generalizing n p with
  | nil => exact ⟨n, hp, rfl, hwidth⟩
  | cons i path ih =>
    by_cases hpath : path = []
    · subst hpath
      exact ⟨n, hp, rfl, hwidth⟩
    · rw [place_cons hpath]
      split
      next hpres =>
        obtain ⟨m, hm, hlen, hlt⟩ := ih (hp.step (hwidth i List.mem_cons_self) hpres)
          fun j hj => hwidth j (List.mem_cons_of_mem i hj)
        refine ⟨m, hm, ?_, hlt⟩
        rw [hlen, List.length_cons]
        omega
      next => exact ⟨n, hp, rfl, hwidth⟩

/-- In an empty table the walk of a path ends. -/
theorem place_of_empty (h : ∀ i, R.present (read q i) = false) :
    R.place read q path = (q, path) := by
  cases path with
  | nil => rfl
  | cons i path =>
    by_cases hpath : path = []
    · subst hpath
      rfl
    · rw [place_cons hpath, h i, if_neg Bool.false_ne_true]

/-! ## Changes of the tables -/

/-- Where a walk ends depends on the entries before the last one. -/
theorem place_of_slots
    (h : ∀ slot ∈ R.slots read p path.dropLast, read' slot.1 slot.2 = read slot.1 slot.2) :
    R.place read' p path = R.place read p path := by
  induction path generalizing p with
  | nil => rfl
  | cons i path ih =>
    by_cases hpath : path = []
    · subst hpath
      rfl
    · rw [List.dropLast_cons_of_ne_nil hpath] at h
      have hi := h (p, i) (by rw [slots]; exact List.mem_cons_self)
      rw [place_cons hpath, place_cons hpath, hi]
      split
      next hpres =>
        apply ih
        intro slot hslot
        apply h
        rw [slots, if_pos hpres]
        exact List.mem_cons_of_mem _ hslot
      next => rfl

/-- Places depend on the presence and the targets of the entries above the last level. -/
theorem place_congr (hsame : ∀ n < d, ∀ p, R.At read root n p → ∀ i < R.width,
      R.present (read' p i) = R.present (read p i) ∧
        (R.present (read p i) = true → R.next (read' p i) = R.next (read p i)))
    (hp : R.At read root n p) (hlen : n + path.length = d + 1)
    (hwidth : ∀ i ∈ path, i < R.width) : R.place read' p path = R.place read p path := by
  induction path generalizing n p with
  | nil => rfl
  | cons i path ih =>
    by_cases hpath : path = []
    · subst hpath
      rfl
    · have hpos := List.length_pos_iff.mpr hpath
      have hi := hwidth i List.mem_cons_self
      rw [List.length_cons] at hlen
      have h := hsame n (by omega) p hp i hi
      rw [place_cons hpath, place_cons hpath, h.1]
      split
      next hpres =>
        rw [h.2 hpres]
        exact ih (hp.step hi hpres) (by omega) fun j hj => hwidth j (List.mem_cons_of_mem i hj)
      next => rfl

/-- The places of a walk depend on them too. -/
theorem slots_upper (hsame : ∀ n < d, ∀ p, R.At read root n p → ∀ i < R.width,
      R.present (read' p i) = R.present (read p i) ∧
        (R.present (read p i) = true → R.next (read' p i) = R.next (read p i)))
    (hp : R.At read root n p) (hlen : n + path.length ≤ d + 1)
    (hwidth : ∀ i ∈ path, i < R.width) : R.slots read' p path = R.slots read p path := by
  induction path generalizing n p with
  | nil => rfl
  | cons i path ih =>
    by_cases hpath : path = []
    · subst hpath
      rw [slots_singleton, slots_singleton]
    · have hpos := List.length_pos_iff.mpr hpath
      have hi := hwidth i List.mem_cons_self
      rw [List.length_cons] at hlen
      have h := hsame n (by omega) p hp i hi
      rw [slots, slots, h.1]
      split
      next hpres =>
        rw [h.2 hpres, ih (hp.step hi hpres) (by omega)
          fun j hj => hwidth j (List.mem_cons_of_mem i hj)]
      next => rfl

variable (R read read')

/-- The absent entry in a place above the last level is linked to a table that is new and
empty; the other entries of the tables stay. -/
structure Links (root : τ) (d : ℕ) (p : τ) (i : ℕ) (f : τ) : Prop where
  absent : R.present (read p i) = false
  new : ∀ n ≤ d, ¬ R.At read root n f
  linked : R.present (read' p i) = true
  target : R.next (read' p i) = f
  empty : ∀ j, R.present (read' f j) = false
  other : ∀ n ≤ d, ∀ q, R.At read root n q → ∀ j, ¬ (q = p ∧ j = i) → read' q j = read q j

variable {R read read'}

/-- The tables before the link are tables after it. -/
theorem Links.table (h : R.Links read read' root d p i f) {m : ℕ} (hm : m ≤ d)
    (hq : R.At read root m q) : R.At read' root m q := by
  apply hq.mono (d := d) _ hm
  intro k hk r hr j _ hj
  have hne : ¬ (r = p ∧ j = i) := by
    rintro ⟨rfl, rfl⟩
    rw [h.absent] at hj
    cases hj
  rw [h.other k (by omega) r hr j hne]
  exact ⟨hj, rfl⟩

/-- The only table that is new is the one linked, one level below the link. -/
theorem Links.back (h : R.Links read read' root d p i f)
    (hp : ∀ k ≤ d, R.At read root k p → k = n) {m : ℕ} (hm : m ≤ d)
    (hq : R.At read' root m q) : R.At read root m q ∨ (m = n + 1 ∧ q = f) := by
  apply At.back (fun m q => m = n + 1 ∧ q = f) (d := d) _ hq hm
  rintro k hk r (hr | ⟨-, rfl⟩) j hj hpres
  · by_cases hhere : r = p ∧ j = i
    · obtain ⟨rfl, rfl⟩ := hhere
      exact .inr ⟨by rw [hp k (by omega) hr], h.target⟩
    · rw [h.other k (by omega) r hr j hhere] at hpres ⊢
      exact .inl (hr.step hj hpres)
  · rw [h.empty j] at hpres
    cases hpres

/-- The walks after the link pass no other places than before, but for the new table. -/
theorem Links.slots (h : R.Links read read' root d p i f) (hq : R.At read root n q)
    (hlen : n + path.length ≤ d + 1) (hwidth : ∀ i ∈ path, i < R.width) {slot : τ × ℕ}
    (hslot : slot ∈ R.slots read' q path) : slot.1 = f ∨ slot ∈ R.slots read q path := by
  induction path generalizing n q with
  | nil => cases hslot
  | cons j path ih =>
    have hj := hwidth j List.mem_cons_self
    rw [List.length_cons] at hlen
    rw [Radix.slots] at hslot ⊢
    rcases List.mem_cons.mp hslot with rfl | hslot
    · exact .inr List.mem_cons_self
    · by_cases hhere : q = p ∧ j = i
      · obtain ⟨rfl, rfl⟩ := hhere
        rw [h.linked, if_pos rfl, h.target] at hslot
        -- the walk ends in the new table
        cases path with
        | nil => cases hslot
        | cons k path =>
          rw [Radix.slots, h.empty k, if_neg Bool.false_ne_true, List.mem_singleton] at hslot
          exact .inl (by rw [hslot])
      · rw [h.other n (by omega) q hq j hhere] at hslot
        split at hslot
        next hpres =>
          rw [if_pos hpres]
          rcases ih (hq.step hj hpres) (by omega)
            (fun k hk => hwidth k (List.mem_cons_of_mem j hk)) hslot with hf | hold
          · exact .inl hf
          · exact .inr (List.mem_cons_of_mem _ hold)
        next => cases hslot

/-- Where a link takes a place. -/
def afterLink [DecidableEq τ] (p : τ) (i : ℕ) (f : τ) (pl : τ × List ℕ) : τ × List ℕ :=
  if pl.1 = p ∧ pl.2.head? = some i then (f, pl.2.tail) else pl

/-- The places after the link. -/
theorem place_link [DecidableEq τ] (h : R.Links read read' root d p i f)
    (hlast : ¬ R.At read root d p) (hq : R.At read root n q) (hlen : n + path.length = d + 1)
    (hwidth : ∀ i ∈ path, i < R.width) :
    R.place read' q path = afterLink p i f (R.place read q path) := by
  induction path generalizing n q with
  | nil => rw [place, place, afterLink, if_neg (by simp)]
  | cons j path ih =>
    rw [List.length_cons] at hlen
    by_cases hpath : path = []
    · subst hpath
      have hne : q ≠ p := by
        rintro rfl
        rw [List.length_nil, Nat.zero_add, Nat.add_right_cancel_iff] at hlen
        exact hlast (hlen ▸ hq)
      rw [place_singleton, place_singleton, afterLink, if_neg fun h => hne h.1]
    · have hj := hwidth j List.mem_cons_self
      rw [place_cons hpath, place_cons hpath]
      by_cases hhere : q = p ∧ j = i
      · obtain ⟨rfl, rfl⟩ := hhere
        rw [h.linked, h.absent, h.target, if_pos rfl, if_neg Bool.false_ne_true,
          place_of_empty h.empty, afterLink, if_pos ⟨rfl, rfl⟩]
        rfl
      · rw [h.other n (by omega) q hq j hhere]
        split
        next hpres =>
          exact ih (hq.step hj hpres) (by omega) fun k hk => hwidth k (List.mem_cons_of_mem j hk)
        next =>
          rw [afterLink, if_neg]
          rintro ⟨rfl, hhead⟩
          exact hhere ⟨rfl, Option.some.inj hhead⟩

/-- A link makes no leaf and takes none away. -/
theorem leaf_link (h : R.Links read read' root d p i f) (hlast : ¬ R.At read root d p)
    (hn : n ≤ d) (hq : R.At read root n q) (hlen : n + path.length = d + 1)
    (hwidth : ∀ i ∈ path, i < R.width) : R.leaf read' q path = R.leaf read q path := by
  classical
  rw [leaf_eq_placed, leaf_eq_placed, place_link h hlast hq hlen hwidth]
  obtain ⟨m, hm, hmlen, -⟩ := hq.place hwidth
  generalize R.place read q path = pl at hm hmlen
  obtain ⟨r, rest⟩ := pl
  rw [hlen] at hmlen
  rw [afterLink]
  split
  next hhere =>
    obtain ⟨rfl, hhead⟩ := hhere
    obtain ⟨rest, rfl⟩ := List.head?_eq_some_iff.mp hhead
    cases rest with
    | nil =>
      obtain rfl : m = d := by simpa using hmlen
      exact absurd hm hlast
    | cons k rest =>
      show R.placed read' (f, k :: rest) = none
      cases rest with
      | nil =>
        show R.entry read' (f, k) = none
        rw [entry, h.empty k, if_neg Bool.false_ne_true]
      | cons l rest => rfl
  next hnot =>
    rcases rest with _ | ⟨j, _ | ⟨k, rest⟩⟩
    · rfl
    · obtain rfl : m = d := by simpa using hmlen
      have hsame : read' r j = read r j :=
        h.other m (Nat.le_refl m) r hm j fun heq => hnot ⟨heq.1, by rw [heq.2]; rfl⟩
      show R.entry read' (r, j) = R.entry read (r, j)
      rw [entry, entry, hsame]
    · rfl

/-- Leaves stay when the entries above the last level keep their presence and their targets,
and those of the last level stay. -/
theorem leaf_upper (hsame : ∀ n < d, ∀ p, R.At read root n p → ∀ i < R.width,
      R.present (read' p i) = R.present (read p i) ∧
        (R.present (read p i) = true → R.next (read' p i) = R.next (read p i)))
    (hlast : ∀ p, R.At read root d p → ∀ i, read' p i = read p i) (hp : R.At read root n p)
    (hlen : n + path.length = d + 1) (hwidth : ∀ i ∈ path, i < R.width) :
    R.leaf read' p path = R.leaf read p path := by
  rw [leaf_eq_placed, leaf_eq_placed, place_congr hsame hp hlen hwidth]
  obtain ⟨m, hm, hmlen, -⟩ := hp.place hwidth
  generalize R.place read p path = pl at hm hmlen
  obtain ⟨q, rest⟩ := pl
  rw [hlen] at hmlen
  rcases rest with _ | ⟨j, _ | ⟨k, rest⟩⟩
  · rfl
  · obtain rfl : m = d := by simpa using hmlen
    show R.entry read' (q, j) = R.entry read (q, j)
    rw [entry, entry, hlast q hm j]
  · rfl

/-- An entry of the last level is filled. -/
theorem leaf_fill (hsame : ∀ n < d, ∀ p, R.At read root n p → ∀ i < R.width,
      R.present (read' p i) = R.present (read p i) ∧
        (R.present (read p i) = true → R.next (read' p i) = R.next (read p i)))
    (hpres : R.present e = true) (hfill : read' f i = e)
    (hother : ∀ q j, ¬ (q = f ∧ j = i) → read' q j = read q j) (hp : R.At read root n p)
    (hlen : n + path.length = d + 1) (hwidth : ∀ i ∈ path, i < R.width) [DecidableEq τ] :
    R.leaf read' p path =
      if R.place read p path = (f, [i]) then some e else R.leaf read p path := by
  rw [leaf_eq_placed, leaf_eq_placed, place_congr hsame hp hlen hwidth]
  generalize R.place read p path = pl
  obtain ⟨q, rest⟩ := pl
  split
  next heq =>
    rw [heq]
    show R.entry read' (f, i) = some e
    exact entry_eq_some_iff.mpr ⟨hpres, hfill⟩
  next hne =>
    rcases rest with _ | ⟨j, _ | ⟨k, rest⟩⟩
    · rfl
    · show R.entry read' (q, j) = R.entry read (q, j)
      rw [entry, entry, hother]
      rintro ⟨rfl, rfl⟩
      exact hne rfl
    · rfl

/-- A link keeps places together and apart. -/
theorem place_eq_link (h : R.Links read read' root d p i f) (hlast : ¬ R.At read root d p)
    {m : ℕ} {r : τ} {path' : List ℕ} (hn : n ≤ d) (hq : R.At read root n q)
    (hlen : n + path.length = d + 1) (hwidth : ∀ i ∈ path, i < R.width) (hm : m ≤ d)
    (hr : R.At read root m r) (hlen' : m + path'.length = d + 1)
    (hwidth' : ∀ i ∈ path', i < R.width) :
    R.place read' q path = R.place read' r path' ↔ R.place read q path = R.place read r path' := by
  classical
  rw [place_link h hlast hq hlen hwidth, place_link h hlast hr hlen' hwidth']
  -- no walk ended in the new table
  have hnot : ∀ {n q path}, n ≤ d → R.At read root n q → n + path.length = d + 1 →
      (∀ i ∈ path, i < R.width) → (R.place read q path).1 ≠ f := by
    intro n q path hn hq hlen hwidth heq
    obtain ⟨m, hm, hmlen, -⟩ := hq.place hwidth
    have hpath : path ≠ [] := by
      rintro rfl
      rw [List.length_nil] at hlen
      omega
    have hleft : 0 < (R.place read q path).2.length := List.length_pos_iff.mpr (place_ne_nil hpath)
    exact h.new m (by omega) (heq ▸ hm)
  have hnq := hnot hn hq hlen hwidth
  have hnr := hnot hm hr hlen' hwidth'
  generalize R.place read q path = a at hnq
  generalize R.place read r path' = b at hnr
  obtain ⟨a₁, a₂⟩ := a
  obtain ⟨b₁, b₂⟩ := b
  rw [afterLink, afterLink]
  split
  next ha =>
    obtain ⟨rfl, ha⟩ := ha
    split
    next hb =>
      obtain ⟨rfl, hb⟩ := hb
      obtain ⟨x, rfl⟩ := List.head?_eq_some_iff.mp ha
      obtain ⟨y, rfl⟩ := List.head?_eq_some_iff.mp hb
      simp
    next hb =>
      constructor
      · intro heq
        exact absurd (congrArg Prod.fst heq).symm hnr
      · intro heq
        rw [← heq] at hb
        exact absurd ⟨rfl, ha⟩ hb
  next ha =>
    split
    next hb =>
      constructor
      · intro heq
        exact absurd (congrArg Prod.fst heq) hnq
      · intro heq
        rw [heq] at ha
        exact absurd hb ha
    next => exact Iff.rfl

end Radix
