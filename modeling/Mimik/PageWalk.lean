/-
# What the processor sees

The processor translates an address by a walk through four tables, one entry in each.
`tmp_pt` is one of the tables of memory here: `view` puts it at its place among the
others.  Every entry is taken for an entry of 4 KiB pages, as in `vm.c`.
-/
import Mimik.Vm
import Mimik.RadixWalk
import Mathlib.Tactic.Positivity

namespace Mimik.Vm

/-- The format of the page tables. -/
def pageTables : Radix PAddr Pte where
  present := present
  next := ptePaddr
  width := ptLength

/-- All tables, `tmp_pt` among them. -/
def view (tmpPaddr : PAddr) (tmpPt : ℕ → Pte) (mem : Tables) : Tables := fun p i =>
  if p = tmpPaddr then tmpPt i else mem p i

variable {tmpPaddr root p : PAddr} {tmpPt : ℕ → Pte} {mem : Tables} {i : ℕ}

@[simp] theorem view_self : view tmpPaddr tmpPt mem tmpPaddr = tmpPt := by
  funext i
  rw [view, if_pos rfl]

theorem view_of_ne (h : p ≠ tmpPaddr) : view tmpPaddr tmpPt mem p = mem p := by
  funext i
  rw [view, if_neg h]

namespace VmState

/-- The tables as the processor finds them. -/
def tables (s : VmState) (tmpPaddr : PAddr) : Tables := view tmpPaddr s.tmpPt s.mem

/-- The place of the leaf entry of an address, for the tables below `root`. -/
def leafSlot (s : VmState) (tmpPaddr root : PAddr) (vaddr : ℕ) : Option (PAddr × ℕ) :=
  pageTables.leafSlot (s.tables tmpPaddr) root (indices vaddr)

/-- The places of all entries that the walk of an address reads. -/
def slots (s : VmState) (tmpPaddr root : PAddr) (vaddr : ℕ) : List (PAddr × ℕ) :=
  pageTables.slots (s.tables tmpPaddr) root (indices vaddr)

/-- The leaf entry of an address: none if the address is not mapped. -/
def leaf (s : VmState) (tmpPaddr root : PAddr) (vaddr : ℕ) : Option Pte :=
  pageTables.leaf (s.tables tmpPaddr) root (indices vaddr)

end VmState

/-- The tables below `root` lead into the temporary window. -/
def LeadsToWindow (tmpPaddr : PAddr) (tmpPt : ℕ → Pte) (mem : Tables) (root : PAddr) : Prop :=
  ∃ n ≤ 3, pageTables.At (view tmpPaddr tmpPt mem) root n tmpPaddr

/-- Tables that do not lead into the window are walked without it. -/
theorem slots_view (h : ¬ LeadsToWindow tmpPaddr tmpPt mem root) (vaddr : ℕ) :
    ∀ slot ∈ pageTables.slots (view tmpPaddr tmpPt mem) root (indices vaddr),
      mem slot.1 slot.2 = view tmpPaddr tmpPt mem slot.1 slot.2 := by
  intro slot hslot
  obtain ⟨m, -, hm, hat, -⟩ := Radix.At.root.slots (fun _ hi => indices_lt hi) hslot
  rw [length_indices] at hm
  rw [view_of_ne]
  intro heq
  exact h ⟨m, by omega, heq ▸ hat⟩

/-- Where the tables do not lead into the window, it plays no part in the walks. -/
theorem walk_view (h : ¬ LeadsToWindow tmpPaddr tmpPt mem root) (vaddr : ℕ) :
    pageTables.slots (view tmpPaddr tmpPt mem) root (indices vaddr) =
        pageTables.slots mem root (indices vaddr) ∧
      pageTables.leafSlot (view tmpPaddr tmpPt mem) root (indices vaddr) =
        pageTables.leafSlot mem root (indices vaddr) ∧
      pageTables.leaf (view tmpPaddr tmpPt mem) root (indices vaddr) =
        pageTables.leaf mem root (indices vaddr) := by
  obtain ⟨h₁, h₂, h₃⟩ := Radix.leaf_congr (slots_view h vaddr)
  exact ⟨h₁.symm, h₂.symm, h₃.symm⟩

/-! ## Permissions -/

/-- What the processor allows for a page. -/
structure Perms where
  writable : Bool
  user : Bool
  noExecute : Bool
  deriving DecidableEq

/-- The permissions of a path: all entries on the way must allow writes and users, and one
of them can forbid execution. -/
def walkPerms (mem : Tables) (root : PAddr) (path : List ℕ) : Option Perms :=
  (pageTables.leaf mem root path).map fun _ =>
    { writable := (pageTables.slots mem root path).all fun slot => writable (mem slot.1 slot.2)
      user := (pageTables.slots mem root path).all fun slot => userAccessible (mem slot.1 slot.2)
      noExecute := (pageTables.slots mem root path).any fun slot => noExecute (mem slot.1 slot.2) }

/-- The permissions of a path depend on the places of the path. -/
theorem walkPerms_congr {mem' : Tables} {path : List ℕ}
    (h : ∀ slot ∈ pageTables.slots mem root path, mem' slot.1 slot.2 = mem slot.1 slot.2) :
    walkPerms mem' root path = walkPerms mem root path := by
  obtain ⟨hslots, -, hleaf⟩ := Radix.leaf_congr h
  have hmap : ∀ f : Pte → Bool, (pageTables.slots mem root path).map (fun x => f (mem' x.1 x.2)) =
      (pageTables.slots mem root path).map fun x => f (mem x.1 x.2) := fun f =>
    List.map_congr_left fun x hx => by rw [h x hx]
  have hall : ∀ f : Pte → Bool, (pageTables.slots mem root path).all (fun x => f (mem' x.1 x.2)) =
      (pageTables.slots mem root path).all fun x => f (mem x.1 x.2) := by
    intro f
    have hid := congrArg (fun l => l.all id) (hmap f)
    simpa only [List.all_map, Function.comp_def, id] using hid
  have hany : ∀ f : Pte → Bool, (pageTables.slots mem root path).any (fun x => f (mem' x.1 x.2)) =
      (pageTables.slots mem root path).any fun x => f (mem x.1 x.2) := by
    intro f
    have hid := congrArg (fun l => l.any id) (hmap f)
    simpa only [List.any_map, Function.comp_def, id] using hid
  rw [walkPerms, walkPerms, hslots, hleaf, hall, hall, hany]

/-- The permissions of an address: none if it is not mapped. -/
def VmState.perms (s : VmState) (tmpPaddr root : PAddr) (vaddr : ℕ) : Option Perms :=
  walkPerms (s.tables tmpPaddr) root (indices vaddr)

/-- Nor in the permissions. -/
theorem perms_view (h : ¬ LeadsToWindow tmpPaddr tmpPt mem root) (vaddr : ℕ) :
    walkPerms (view tmpPaddr tmpPt mem) root (indices vaddr) =
      walkPerms mem root (indices vaddr) :=
  (walkPerms_congr (slots_view h vaddr)).symm

/-! ## The pages of the address space -/

/-- A page-aligned address that the processor accepts. -/
def IsPage (vaddr : ℕ) : Prop :=
  vaddr < 2 ^ 64 ∧ canonical vaddr = true ∧ vaddr % pageSize = 0

/-- The range of `pages` pages from `vaddr` on stays in one half of the address space. -/
def InHalf (vaddr pages : ℕ) : Prop :=
  vaddr + pages * pageSize ≤ 2 ^ 47 ∨
    2 ^ 64 - 2 ^ 47 ≤ vaddr ∧ vaddr + pages * pageSize ≤ 2 ^ 64

/-- The number of a page among the pages that four indices can tell apart. -/
def pageNumber (vaddr : ℕ) : ℕ := vaddr / pageSize % 512 ^ 4

/-- The number that a list of indices stands for. -/
def lin : List ℕ → ℕ
  | [] => 0
  | i :: path => i * 512 ^ path.length + lin path

/-- The indices, `height` of them below the first, that stand for a number. -/
def digits : ℕ → ℕ → List ℕ
  | 0, n => [n]
  | height + 1, n => n / 512 ^ (height + 1) :: digits height (n % 512 ^ (height + 1))

theorem canonical_iff {vaddr : ℕ} (h : vaddr < 2 ^ 64) :
    canonical vaddr = true ↔ vaddr < 2 ^ 47 ∨ 2 ^ 64 - 2 ^ 47 ≤ vaddr := by
  simp only [canonical, Nat.shiftRight_eq_div_pow, Bool.or_eq_true, beq_iff_eq]
  omega

/-- The indices of an address are the digits of its page number. -/
theorem indices_eq_digits (vaddr : ℕ) : indices vaddr = digits 3 (pageNumber vaddr) := by
  simp only [indices, digits, pageNumber, pageSize, Nat.shiftRight_eq_div_pow, List.cons.injEq,
    and_true]
  omega

/-- The page number is read off the indices. -/
theorem lin_indices (vaddr : ℕ) : lin (indices vaddr) = pageNumber vaddr := by
  simp only [indices, lin, pageNumber, pageSize, Nat.shiftRight_eq_div_pow, List.length_cons,
    List.length_nil]
  omega

/-- A page is known by its number. -/
theorem IsPage.ext {u v : ℕ} (hu : IsPage u) (hv : IsPage v)
    (h : pageNumber u = pageNumber v) : u = v := by
  have hcu := (canonical_iff hu.1).mp hu.2.1
  have hcv := (canonical_iff hv.1).mp hv.2.1
  obtain ⟨a, rfl⟩ := Nat.dvd_of_mod_eq_zero hu.2.2
  obtain ⟨b, rfl⟩ := Nat.dvd_of_mod_eq_zero hv.2.2
  rw [pageNumber, pageNumber, Nat.mul_div_cancel_left _ (by decide),
    Nat.mul_div_cancel_left _ (by decide)] at h
  rw [pageSize] at hcu hcv ⊢
  have hua := hu.1
  have hvb := hv.1
  rw [pageSize] at hua hvb
  omega

/-- The pages of a range in one half of the address space are numbered in order. -/
theorem InHalf.page {vaddr pages k : ℕ} (h : InHalf vaddr pages) (hal : vaddr % pageSize = 0)
    (hk : k < pages) : IsPage (vaddr + k * pageSize) ∧
      pageNumber (vaddr + k * pageSize) = pageNumber vaddr + k := by
  have hlt : vaddr + k * pageSize < 2 ^ 64 := by
    simp only [InHalf, pageSize] at h ⊢
    omega
  refine ⟨⟨hlt, (canonical_iff hlt).mpr ?_, ?_⟩, ?_⟩
  · simp only [InHalf, pageSize] at h ⊢
    omega
  · rw [Nat.add_mul_mod_self_right]
    exact hal
  · simp only [InHalf, pageSize, pageNumber] at h hal ⊢
    omega

/-- The digits of a number below the first index leave that index alone. -/
theorem digits_add {i m : ℕ} (height : ℕ) (hm : m < 512 ^ (height + 1)) :
    digits (height + 1) (i * 512 ^ (height + 1) + m) = i :: digits height m := by
  rw [digits, Nat.add_comm, Nat.add_mul_div_right _ _ (by positivity), Nat.div_eq_of_lt hm,
    Nat.add_mul_mod_self_right, Nat.mod_eq_of_lt hm, Nat.zero_add]

/-- Numbers of lists of indices are bounded. -/
theorem lin_lt {path : List ℕ} (h : ∀ i ∈ path, i < 512) : lin path < 512 ^ path.length := by
  induction path with
  | nil => exact Nat.one_pos
  | cons i path ih =>
    have hi := h i List.mem_cons_self
    have hlt := ih fun j hj => h j (List.mem_cons_of_mem i hj)
    rw [lin, List.length_cons, Nat.pow_succ]
    calc i * 512 ^ path.length + lin path
        < i * 512 ^ path.length + 512 ^ path.length := Nat.add_lt_add_left hlt _
      _ = (i + 1) * 512 ^ path.length := by rw [Nat.add_mul, Nat.one_mul]
      _ ≤ 512 * 512 ^ path.length := Nat.mul_le_mul_right _ hi
      _ = 512 ^ path.length * 512 := Nat.mul_comm _ _

/-! ## Stores -/

/-- What is read after a store to one entry. -/
theorem Tables.set_apply (mem : Tables) (p q : PAddr) (i j : ℕ) (e : Pte) :
    mem.set p i e q j = if q = p ∧ j = i then e else mem q j := by
  rw [Tables.set]
  by_cases hq : q = p
  · subst hq
    rw [Function.update_self]
    by_cases hj : j = i
    · subst hj; rw [Function.update_self, if_pos ⟨rfl, rfl⟩]
    · rw [Function.update_of_ne hj, if_neg fun h => hj h.2]
  · rw [Function.update_of_ne hq, if_neg fun h => hq h.1]

/-- What is read after a table was cleared. -/
theorem Tables.clear_apply (mem : Tables) (p q : PAddr) (j : ℕ) :
    mem.clear p q j = if q = p then 0#64 else mem q j := by
  rw [Tables.clear]
  by_cases hq : q = p
  · subst hq; rw [Function.update_self, if_pos rfl]
  · rw [Function.update_of_ne hq, if_neg hq]

/-- A store outside `tmp_pt` is a store to the tables the processor sees. -/
theorem view_set (h : p ≠ tmpPaddr) (i : ℕ) (e : Pte) :
    view tmpPaddr tmpPt (mem.set p i e) = (view tmpPaddr tmpPt mem).set p i e := by
  funext q j
  rw [Tables.set_apply, view, view, Tables.set_apply]
  by_cases hq : q = tmpPaddr
  · rw [if_pos hq, if_pos hq, if_neg]
    rintro ⟨rfl, -⟩
    exact h hq
  · rw [if_neg hq, if_neg hq]

theorem view_clear (h : p ≠ tmpPaddr) :
    view tmpPaddr tmpPt (mem.clear p) = (view tmpPaddr tmpPt mem).clear p := by
  funext q j
  rw [Tables.clear_apply, view, view, Tables.clear_apply]
  by_cases hq : q = tmpPaddr
  · rw [if_pos hq, if_pos hq, if_neg]
    rintro rfl
    exact h hq
  · rw [if_neg hq, if_neg hq]

end Mimik.Vm
