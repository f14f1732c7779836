/-
# The page tables of the boot (`arch/x86_64/boot/paging.S`)

`setup_paging` runs in 32-bit mode, before there is any paging.  It carves page tables
behind the boot data and maps the pages from the start of the kernel to the end of the
tables to themselves.  The registers are numbers below `2 ^ 32`, memory is bytes, and
the words that the routine pushes are a list, as the stack lies inside the kernel image.

`next_cleared_pt` clears the page at `%edi` and leaves `%edi` behind it.  The addresses
that are pushed are those left in `%edi`: the first of the four pages that are cleared is
no table, and the page table of the last level is not cleared.
-/
import Mimik.ByteMemory
import Mimik.PageWalk
import Mimik.Pm

namespace Mimik.Boot

open Mimik.Vm

/-! ## The routine -/

/-- Addition of 32-bit registers. -/
def add32 (a b : ℕ) : ℕ := (a + b) % 2 ^ 32

/-- Subtraction of 32-bit registers. -/
def sub32 (a b : ℕ) : ℕ := (a + (2 ^ 32 - b)) % 2 ^ 32

/-- `andl $~0xfff`. -/
def andPage (a : ℕ) : ℕ := a / 0x1000 * 0x1000

/-- `SIZE_4KB`. -/
def size4KB : ℕ := 0x1000

/-- `ENTRY_FLAGS`: present and writable. -/
def entryFlags : ℕ := 1 <<< 0 ||| 1 <<< 1

/-- `rep stosl` for `ecx` rounds, with the value it leaves in `%edi`. -/
def repStosl (eax : ℕ) : ℕ → ByteMemory → ℕ → ByteMemory × ℕ
  | 0, mem, edi => (mem, edi)
  | ecx + 1, mem, edi => repStosl eax ecx (mem.store edi 4 eax) (add32 edi 4)

/-- `next_cleared_pt`. -/
def nextClearedPt (mem : ByteMemory) (edi : ℕ) : ByteMemory × ℕ :=
  repStosl 0 (size4KB >>> 2) mem edi

/-- The rounds of a `loop` that starts with `ecx`. -/
def loopRounds (ecx : ℕ) : ℕ := if ecx = 0 then 2 ^ 32 else ecx

/-- The loop at label `0`, which writes the lower halves of entries. -/
def mapPages : ℕ → ByteMemory → ℕ → ℕ → ByteMemory
  | 0, mem, _, _ => mem
  | ecx + 1, mem, edi, eax =>
    let mem := mem.store edi 4 eax
    let edi := add32 edi 4
    mapPages ecx mem (add32 edi 4) (add32 eax size4KB)

/-- The loop at label `1`: every table that is popped gets an entry for the table before
it.  The last one is left in `%esi`. -/
def linkTables : List ℕ → ByteMemory → ℕ → ℕ → ByteMemory × ℕ
  | [], mem, _, esi => (mem, esi)
  | edi :: stack, mem, edx, esi =>
    let edx := edx >>> 9
    let eax := edx % 512
    let edi := add32 edi (eax * 8)
    let esi := esi ||| entryFlags
    let mem := mem.store edi 4 esi
    linkTables stack mem edx (andPage edi)

/-- `setup_paging`, with the boot data ending at `%ebx`: memory and `%cr3`. -/
def setupPaging (kernelPaddrStart : ℕ) (mem : ByteMemory) (ebx : ℕ) : ByteMemory × ℕ :=
  let edi := andPage (add32 ebx 0xfff)
  let (mem, edi) := nextClearedPt mem edi
  let pdpPaddr := edi
  let (mem, edi) := nextClearedPt mem edi
  let pdPaddr := edi
  let (mem, edi) := nextClearedPt mem edi
  let ptPaddr := edi
  let (mem, edi) := nextClearedPt mem edi
  let stack := [ptPaddr, pdPaddr, pdpPaddr]
  let edx := andPage kernelPaddrStart
  let ecx := sub32 (andPage (add32 (add32 edi size4KB) 0xfff)) edx >>> 12
  let esi := edx
  let edx := edx >>> 12
  let eax := edx % 512
  let mem := mapPages (loopRounds ecx) mem (add32 edi (eax * 8)) (add32 esi entryFlags)
  linkTables stack mem edx edi

/-! ## What the loops write -/

variable {mem : ByteMemory} {a b i j n edi eax page : ℕ}

/-- Double words at multiples of four are the same or disjoint. -/
theorem load_store_word {v : ℕ} (ha : a % 4 = 0) (hb : b % 4 = 0) (hv : v < 2 ^ 32) :
    (mem.store a 4 v).load b 4 = if b = a then v else mem.load b 4 := by
  split
  next heq =>
    subst heq
    exact ByteMemory.load_store hv
  next hne => exact ByteMemory.load_store_of_disjoint (by omega)

/-- `rep stosl` clears the double words that it passes. -/
theorem repStosl_zero (n : ℕ) (mem : ByteMemory) (hal : edi % 4 = 0) (hfit : edi + 4 * n < 2 ^ 32) :
    (repStosl 0 n mem edi).2 = edi + 4 * n ∧ ∀ b, b % 4 = 0 →
      (repStosl 0 n mem edi).1.load b 4 =
        if edi ≤ b ∧ b < edi + 4 * n then 0 else mem.load b 4 := by
  induction n generalizing mem edi with
  | zero =>
    refine ⟨rfl, fun b _ => ?_⟩
    rw [if_neg (by omega)]
    rfl
  | succ n ih =>
    have hnext : add32 edi 4 = edi + 4 := Nat.mod_eq_of_lt (by omega)
    obtain ⟨hedi, hwords⟩ := ih (mem.store edi 4 0) (show (edi + 4) % 4 = 0 by omega) (by omega)
    rw [repStosl, hnext]
    refine ⟨by omega, fun b hb => ?_⟩
    rw [hwords b hb, load_store_word hal hb (by decide)]
    by_cases hfirst : b = edi
    · rw [if_neg (by omega), if_pos hfirst, if_pos (by omega)]
    · rw [if_neg hfirst]
      by_cases hlater : edi + 4 ≤ b ∧ b < edi + 4 + 4 * n
      · rw [if_pos hlater, if_pos (by omega)]
      · rw [if_neg hlater, if_neg (by omega)]

/-- `next_cleared_pt` clears one page. -/
theorem nextClearedPt_eq (mem : ByteMemory) (hal : edi % 4 = 0) (hfit : edi + 0x1000 < 2 ^ 32) :
    (nextClearedPt mem edi).2 = edi + 0x1000 ∧ ∀ b, b % 4 = 0 →
      (nextClearedPt mem edi).1.load b 4 =
        if edi ≤ b ∧ b < edi + 0x1000 then 0 else mem.load b 4 :=
  repStosl_zero 1024 mem hal hfit

/-- The first loop writes the addresses of consecutive pages to the lower halves of
consecutive entries. -/
theorem mapPages_eq (n : ℕ) (mem : ByteMemory) (hal : edi % 4 = 0) (hfit : edi + 8 * n ≤ 2 ^ 32)
    (hpages : page + n ≤ 2 ^ 20) (hb : b % 4 = 0) :
    (mapPages n mem edi (page * 0x1000 + 3)).load b 4 =
      if edi ≤ b ∧ b < edi + 8 * n ∧ (b - edi) % 8 = 0 then (page + (b - edi) / 8) * 0x1000 + 3
      else mem.load b 4 := by
  induction n generalizing mem edi page with
  | zero =>
    rw [if_neg (by omega)]
    rfl
  | succ n ih =>
    have hval : page * 0x1000 + 3 < 2 ^ 32 := by omega
    rw [mapPages]
    rcases Nat.eq_zero_or_pos n with rfl | hpos
    · rw [mapPages, load_store_word hal hb hval]
      by_cases heq : b = edi
      · rw [if_pos heq, if_pos (by omega), heq, Nat.sub_self]
        rfl
      · rw [if_neg heq, if_neg (by omega)]
    · have hal' : (edi + 8) % 4 = 0 := by omega
      have hfit' : edi + 8 + 8 * n ≤ 2 ^ 32 := by omega
      have hpages' : page + 1 + n ≤ 2 ^ 20 := by omega
      have hedi : add32 (add32 edi 4) 4 = edi + 8 := by
        rw [add32, add32]
        omega
      have heax : add32 (page * 0x1000 + 3) size4KB = (page + 1) * 0x1000 + 3 := by
        rw [add32, size4KB]
        omega
      rw [hedi, heax, ih _ hal' hfit' hpages', load_store_word hal hb hval]
      by_cases heq : b = edi
      · rw [if_neg (by omega), if_pos heq, if_pos (by omega), heq, Nat.sub_self]
        rfl
      · rw [if_neg heq]
        by_cases hlater : edi + 8 ≤ b ∧ b < edi + 8 + 8 * n ∧ (b - (edi + 8)) % 8 = 0
        · rw [if_pos hlater, if_pos (by omega)]
          have hdiv : (b - edi) / 8 = (b - (edi + 8)) / 8 + 1 := by omega
          rw [hdiv]
          omega
        · rw [if_neg hlater, if_neg (by omega)]

/-! ## The tables -/

/-- The end of the page tables, for boot data that end at `ebx`. -/
def tablesEnd (ebx : ℕ) : ℕ := andPage (ebx + 0xfff) + 5 * 0x1000

/-- The table of the last level. -/
def ptPaddr (ebx : ℕ) : ℕ := andPage (ebx + 0xfff) + 4 * 0x1000

/-- The kernel and the page tables behind it lie in one region of 2 MiB below 4 GiB. -/
structure OneRegion (kernelPaddrStart ebx : ℕ) : Prop where
  order : kernelPaddrStart ≤ ebx
  below : tablesEnd ebx ≤ 2 ^ 32
  region : kernelPaddrStart / 2 ^ 21 = (tablesEnd ebx - 1) / 2 ^ 21

/-- The page of the last level maps the page with its index `j`. -/
def Mapped (kernelPaddrStart ebx j : ℕ) : Prop :=
  kernelPaddrStart / 0x1000 % 512 ≤ j ∧
    j < kernelPaddrStart / 0x1000 % 512 + (tablesEnd ebx / 0x1000 - kernelPaddrStart / 0x1000)

instance (kernelPaddrStart ebx j : ℕ) : Decidable (Mapped kernelPaddrStart ebx j) :=
  inferInstanceAs (Decidable (_ ∧ _))

/-- What `setup_paging` leaves in memory: three tables with one entry each, and in the last
one the lower halves of the entries of the range. -/
structure Filled (kernelPaddrStart ebx : ℕ) (mem mem' : ByteMemory) : Prop where
  inner : ∀ d < 3, ∀ j < 512,
    mem'.load (ptPaddr ebx - (d + 1) * 0x1000 + 8 * j) 8 =
      if j = kernelPaddrStart / 0x1000 / 512 ^ (d + 1) % 512 then
        ptPaddr ebx - d * 0x1000 + 3 else 0
  lower : ∀ j < 512, mem'.load (ptPaddr ebx + 8 * j) 4 =
    if Mapped kernelPaddrStart ebx j then
      (kernelPaddrStart / 0x1000 - kernelPaddrStart / 0x1000 % 512 + j) * 0x1000 + 3
    else mem.load (ptPaddr ebx + 8 * j) 4
  upper : ∀ j < 512, mem'.load (ptPaddr ebx + 8 * j + 4) 4 = mem.load (ptPaddr ebx + 8 * j + 4) 4

/-- The flags are added to the address of a page. -/
theorem or_entryFlags (ha : a % 0x1000 = 0) : a ||| entryFlags = a + 3 := by
  obtain ⟨p, rfl⟩ := Nat.dvd_of_mod_eq_zero ha
  exact (Nat.two_pow_add_eq_or_of_lt (i := 12) (show 3 < 2 ^ 12 by decide) p).symm

/-- One round of the second loop. -/
theorem linkTables_cons {table esi edx : ℕ} (stack : List ℕ) (htable : table % 0x1000 = 0)
    (hesi : esi % 0x1000 = 0) (hfit : table + 0x1000 < 2 ^ 32) :
    linkTables (table :: stack) mem edx esi =
      linkTables stack (mem.store (table + edx / 512 % 512 * 8) 4 (esi + 3)) (edx / 512)
        table := by
  have hshift : edx >>> 9 = edx / 512 := Nat.shiftRight_eq_div_pow edx 9
  have hadd : add32 table (edx / 512 % 512 * 8) = table + edx / 512 % 512 * 8 :=
    Nat.mod_eq_of_lt (by omega)
  have hpage : andPage (table + edx / 512 % 512 * 8) = table := by
    rw [andPage]
    omega
  rw [linkTables]
  simp only [hshift, hadd, or_entryFlags hesi, hpage]

/-- The four pages that are cleared. -/
theorem cleared_eq {e : ℕ} (hal : e % 0x1000 = 0) (hfit : e + 0x4000 < 2 ^ 32)
    {mem₁ mem₂ mem₃ mem₄ : ByteMemory} {e₁ e₂ e₃ e₄ : ℕ}
    (h₁ : nextClearedPt mem e = (mem₁, e₁)) (h₂ : nextClearedPt mem₁ e₁ = (mem₂, e₂))
    (h₃ : nextClearedPt mem₂ e₂ = (mem₃, e₃)) (h₄ : nextClearedPt mem₃ e₃ = (mem₄, e₄)) :
    e₁ = e + 0x1000 ∧ e₂ = e + 0x2000 ∧ e₃ = e + 0x3000 ∧ e₄ = e + 0x4000 ∧
      ∀ b, b % 4 = 0 → mem₄.load b 4 = if e ≤ b ∧ b < e + 0x4000 then 0 else mem.load b 4 := by
  have hstep : ∀ {m m' : ByteMemory} {s s' : ℕ}, s % 0x1000 = 0 → s + 0x1000 < 2 ^ 32 →
      nextClearedPt m s = (m', s') → s' = s + 0x1000 ∧ ∀ b, b % 4 = 0 →
        m'.load b 4 = if s ≤ b ∧ b < s + 0x1000 then 0 else m.load b 4 := by
    intro m m' s s' hs hlt heq
    have hclear := nextClearedPt_eq m (show s % 4 = 0 by omega) hlt
    rw [heq] at hclear
    exact hclear
  obtain ⟨he₁, hwords₁⟩ := hstep hal (by omega) h₁
  obtain ⟨he₂, hwords₂⟩ := hstep (by omega) (by omega) h₂
  obtain ⟨he₃, hwords₃⟩ := hstep (by omega) (by omega) h₃
  obtain ⟨he₄, hwords₄⟩ := hstep (by omega) (by omega) h₄
  refine ⟨he₁, by omega, by omega, by omega, fun b hb => ?_⟩
  rw [hwords₄ b hb, hwords₃ b hb, hwords₂ b hb, hwords₁ b hb]
  clear hwords₁ hwords₂ hwords₃ hwords₄
  split_ifs <;> first | rfl | omega

/-- The number of pages that `setup_paging` maps. -/
theorem loopRounds_eq {k e : ℕ} (he : e % 0x1000 = 0) (hle : k ≤ e)
    (hbelow : e + 0x5000 ≤ 2 ^ 32) (hlast : e + 0x5000 = 2 ^ 32 → 0 < k / 0x1000) :
    loopRounds (sub32 (andPage (add32 (add32 (e + 0x4000) size4KB) 0xfff)) (andPage k) >>> 12) =
      e / 0x1000 + 5 - k / 0x1000 := by
  have hend : andPage (add32 (add32 (e + 0x4000) size4KB) 0xfff) = (e + 0x5000) % 2 ^ 32 := by
    rw [andPage, add32, add32, size4KB]
    omega
  have hsub : sub32 ((e + 0x5000) % 2 ^ 32) (andPage k) = e + 0x5000 - andPage k := by
    rw [sub32, andPage]
    omega
  rw [hend, hsub, Nat.shiftRight_eq_div_pow, andPage, loopRounds, if_neg (by omega)]
  omega

/-- `setup_paging` without its register arithmetic. -/
theorem setupPaging_eq (mem : ByteMemory) {k ebx : ℕ} (h : OneRegion k ebx) :
    ∃ cleared : ByteMemory, (∀ b, b % 4 = 0 → cleared.load b 4 =
        if andPage (ebx + 0xfff) ≤ b ∧ b < ptPaddr ebx then 0 else mem.load b 4) ∧
      setupPaging k mem ebx =
        linkTables [ptPaddr ebx - 0x1000, ptPaddr ebx - 0x2000, ptPaddr ebx - 0x3000]
          (mapPages (tablesEnd ebx / 0x1000 - k / 0x1000) cleared
            (ptPaddr ebx + k / 0x1000 % 512 * 8) (k / 0x1000 * 0x1000 + 3))
          (k / 0x1000) (ptPaddr ebx) := by
  obtain ⟨horder, hbelow, hregion⟩ := h
  rw [tablesEnd] at hbelow hregion
  have hstart : andPage (add32 ebx 0xfff) = andPage (ebx + 0xfff) := by
    rw [add32, Nat.mod_eq_of_lt]
    rw [andPage] at hbelow
    omega
  have hal : andPage (ebx + 0xfff) % 0x1000 = 0 := Nat.mul_mod_left _ _
  have hle : k ≤ andPage (ebx + 0xfff) := by
    rw [andPage]
    omega
  rw [tablesEnd, ptPaddr]
  generalize andPage (ebx + 0xfff) = e at hstart hal hle hbelow hregion
  rcases h₁ : nextClearedPt mem e with ⟨mem₁, e₁⟩
  rcases h₂ : nextClearedPt mem₁ e₁ with ⟨mem₂, e₂⟩
  rcases h₃ : nextClearedPt mem₂ e₂ with ⟨mem₃, e₃⟩
  rcases h₄ : nextClearedPt mem₃ e₃ with ⟨mem₄, e₄⟩
  obtain ⟨he₁, he₂, he₃, he₄, hwords⟩ := cleared_eq hal (by omega) h₁ h₂ h₃ h₄
  refine ⟨mem₄, hwords, ?_⟩
  have hrounds := loopRounds_eq hal hle hbelow (by omega)
  have hcount : e / 0x1000 + 5 - k / 0x1000 = (e + 5 * 0x1000) / 0x1000 - k / 0x1000 := by omega
  have hshift : andPage k >>> 12 = k / 0x1000 := by
    rw [Nat.shiftRight_eq_div_pow, andPage]
    omega
  have hedi : add32 (e + 0x4000) (k / 0x1000 % 512 * 8) = e + 0x4000 + k / 0x1000 % 512 * 8 :=
    Nat.mod_eq_of_lt (by omega)
  have heax : add32 (andPage k) entryFlags = k / 0x1000 * 0x1000 + 3 := by
    rw [andPage, show entryFlags = 3 by rfl]
    exact Nat.mod_eq_of_lt (by omega)
  have htables : [e₃, e₂, e₁] =
      [e + 4 * 0x1000 - 0x1000, e + 4 * 0x1000 - 0x2000, e + 4 * 0x1000 - 0x3000] := by
    rw [he₁, he₂, he₃]
    simp only [List.cons.injEq, and_true]
    omega
  rw [setupPaging, hstart]
  simp only [h₁, h₂, h₃, h₄, htables]
  rw [he₄, hrounds, hcount, hshift, hedi, heax]

/-- A load of an entry is a load of its halves. -/
theorem load_entry (mem : ByteMemory) (a : ℕ) :
    mem.load a 8 = mem.load a 4 + 2 ^ 32 * mem.load (a + 4) 4 :=
  ByteMemory.load_add mem a 4 4

/-- Where the tables of a region lie, and how many pages are mapped. -/
theorem OneRegion.layout {k ebx : ℕ} (h : OneRegion k ebx) :
    ptPaddr ebx % 0x1000 = 0 ∧ 0x4000 ≤ ptPaddr ebx ∧
      andPage (ebx + 0xfff) = ptPaddr ebx - 0x4000 ∧ tablesEnd ebx = ptPaddr ebx + 0x1000 ∧
      ptPaddr ebx + 0x1000 ≤ 2 ^ 32 ∧ k / 0x1000 ≤ ptPaddr ebx / 0x1000 - 4 ∧
      k / 0x1000 % 512 + (ptPaddr ebx / 0x1000 + 1 - k / 0x1000) ≤ 512 := by
  obtain ⟨horder, hbelow, hregion⟩ := h
  have hend : tablesEnd ebx = ptPaddr ebx + 0x1000 := by
    unfold tablesEnd ptPaddr
    omega
  rw [hend] at hbelow hregion
  have hstart : andPage (ebx + 0xfff) = ptPaddr ebx - 0x4000 := by
    unfold ptPaddr
    omega
  have hlow : 0x4000 ≤ ptPaddr ebx := by
    unfold ptPaddr
    omega
  have hal : ptPaddr ebx % 0x1000 = 0 := by
    unfold ptPaddr andPage
    omega
  have hle : k ≤ ptPaddr ebx - 0x4000 := by
    rw [← hstart, andPage]
    omega
  generalize ptPaddr ebx = pt at *
  refine ⟨hal, hlow, hstart, hend, hbelow, ?_, ?_⟩
  · omega
  · omega

/-- The double words that `setup_paging` leaves behind, read as entries. -/
theorem filled_of_words {k ebx : ℕ} (h : OneRegion k ebx) {final : ByteMemory}
    (hfinal : ∀ b, b % 4 = 0 → final.load b 4 =
      if b = ptPaddr ebx - 0x3000 + k / 0x1000 / 512 / 512 / 512 % 512 * 8 then
        ptPaddr ebx - 0x2000 + 3
      else if b = ptPaddr ebx - 0x2000 + k / 0x1000 / 512 / 512 % 512 * 8 then
        ptPaddr ebx - 0x1000 + 3
      else if b = ptPaddr ebx - 0x1000 + k / 0x1000 / 512 % 512 * 8 then ptPaddr ebx + 3
      else if ptPaddr ebx + k / 0x1000 % 512 * 8 ≤ b ∧
          b < ptPaddr ebx + k / 0x1000 % 512 * 8 +
            8 * (ptPaddr ebx / 0x1000 + 1 - k / 0x1000) ∧
          (b - (ptPaddr ebx + k / 0x1000 % 512 * 8)) % 8 = 0 then
        (k / 0x1000 + (b - (ptPaddr ebx + k / 0x1000 % 512 * 8)) / 8) * 0x1000 + 3
      else if ptPaddr ebx - 0x4000 ≤ b ∧ b < ptPaddr ebx then 0
      else mem.load b 4) : Filled k ebx mem final := by
  obtain ⟨hal, hlow, -, hend, -, hle, hcount⟩ := h.layout
  have hmapped : ∀ j, Mapped k ebx j ↔ k / 0x1000 % 512 ≤ j ∧
      j < k / 0x1000 % 512 + (ptPaddr ebx / 0x1000 + 1 - k / 0x1000) := by
    intro j
    have hpages : (ptPaddr ebx + 0x1000) / 0x1000 = ptPaddr ebx / 0x1000 + 1 := by omega
    rw [Mapped, hend, hpages]
  have hdigit : ∀ p : ℕ, p / 512 / 512 = p / 512 ^ 2 ∧ p / 512 / 512 / 512 = p / 512 ^ 3 := by
    intro p
    rw [Nat.div_div_eq_div_mul, Nat.div_div_eq_div_mul]
    exact ⟨rfl, rfl⟩
  -- in the three tables above the last one
  have hinner : ∀ b, b % 4 = 0 → ptPaddr ebx - 0x3000 ≤ b → b < ptPaddr ebx → _ :=
    fun b hb hle hlt => (hfinal b hb).trans (by
      rw [if_neg (show ¬ (ptPaddr ebx + k / 0x1000 % 512 * 8 ≤ b ∧ _) by omega),
        if_pos (show ptPaddr ebx - 0x4000 ≤ b ∧ b < ptPaddr ebx by omega)])
  have hupper : ∀ b, b % 8 = 4 → ptPaddr ebx - 0x3000 ≤ b → b < ptPaddr ebx →
      final.load b 4 = 0 := by
    intro b hb hge hlt
    rw [hinner b (by omega) hge hlt, if_neg (by omega), if_neg (by omega), if_neg (by omega)]
  refine ⟨fun d hd j hj => ?_, fun j hj => ?_, fun j hj => ?_⟩
  · rw [load_entry, hinner _ (by omega) (by omega) (by omega),
      hupper _ (by omega) (by omega) (by omega), Nat.mul_zero, Nat.add_zero, (hdigit _).2,
      (hdigit _).1]
    clear hinner hupper hdigit hfinal hmapped hend
    generalize ptPaddr ebx = pt at *
    have hlt₁ := Nat.mod_lt (k / 0x1000 / 512) (show 0 < 512 by decide)
    have hlt₂ := Nat.mod_lt (k / 0x1000 / 512 ^ 2) (show 0 < 512 by decide)
    have hlt₃ := Nat.mod_lt (k / 0x1000 / 512 ^ 3) (show 0 < 512 by decide)
    obtain ⟨e, rfl⟩ : ∃ e, pt = e + 0x4000 := ⟨pt - 0x4000, by omega⟩
    clear hcount hle h
    -- one case for each table
    obtain rfl | rfl | rfl : d = 0 ∨ d = 1 ∨ d = 2 := by omega
    all_goals
      simp only [Nat.reduceAdd, Nat.reduceMul, Nat.reduceSubDiff, Nat.sub_zero, Nat.pow_one]
      generalize k / 0x1000 / 512 % 512 = i₁ at *
      generalize k / 0x1000 / 512 ^ 2 % 512 = i₂ at *
      generalize k / 0x1000 / 512 ^ 3 % 512 = i₃ at *
      split_ifs <;> omega
  · rw [hfinal _ (by omega)]
    clear hinner hupper hfinal
    by_cases hj' : Mapped k ebx j
    · rw [if_pos hj']
      rw [hmapped] at hj'
      rw [if_neg (by omega), if_neg (by omega), if_neg (by omega), if_pos (by omega)]
      omega
    · rw [if_neg hj']
      rw [hmapped] at hj'
      rw [if_neg (by omega), if_neg (by omega), if_neg (by omega), if_neg (by omega),
        if_neg (by omega)]
  · rw [hfinal _ (by omega)]
    clear hinner hupper hfinal
    rw [if_neg (by omega), if_neg (by omega), if_neg (by omega), if_neg (by omega),
      if_neg (by omega)]

/-- **What `setup_paging` does**, whatever memory held before. -/
theorem setupPaging_filled (mem : ByteMemory) {k ebx : ℕ} (h : OneRegion k ebx) :
    (setupPaging k mem ebx).2 = ptPaddr ebx - 0x3000 ∧
      Filled k ebx mem (setupPaging k mem ebx).1 := by
  obtain ⟨cleared, hwords, heq⟩ := setupPaging_eq mem h
  have hpost := @filled_of_words mem k ebx h (setupPaging k mem ebx).1
  obtain ⟨hal, hlow, hstart, hend, hbelow, hle, hcount⟩ := h.layout
  have hpages : (ptPaddr ebx + 0x1000) / 0x1000 = ptPaddr ebx / 0x1000 + 1 := by omega
  rw [hstart] at hwords
  rw [hend, hpages] at heq
  generalize ptPaddr ebx = pt at *
  generalize k / 0x1000 = p at *
  generalize hn : pt / 0x1000 + 1 - p = n at *
  rw [linkTables_cons _ (by omega) hal (by omega),
    linkTables_cons _ (by omega) (by omega) (by omega),
    linkTables_cons _ (by omega) (by omega) (by omega), linkTables] at heq
  refine ⟨by rw [heq], hpost fun b hb => ?_⟩
  have hstart' : (pt + p % 512 * 8) % 4 = 0 := by omega
  have hfit' : pt + p % 512 * 8 + 8 * n ≤ 2 ^ 32 := by omega
  have hn' : p + n ≤ 2 ^ 20 := by omega
  have hmap := mapPages_eq n cleared hstart' hfit' hn' hb
  rw [heq, load_store_word (by omega) hb (by omega), load_store_word (by omega) hb (by omega),
    load_store_word (by omega) hb (by omega), hmap, hwords b hb]

/-! ## What the processor makes of it -/

/-- The words of memory as the entries of page tables. -/
def tablesOf (mem : ByteMemory) : Tables := fun p i =>
  BitVec.ofNat 64 (mem.load (p.toNat + 8 * i) 8)

/-- The leaf entry of an address under the table at `root`. -/
def leafOf (mem : ByteMemory) (root vaddr : ℕ) : Option Pte :=
  pageTables.leaf (tablesOf mem) (BitVec.ofNat 64 root) (indices vaddr)

/-- Every entry on the walk of an address allows writes. -/
def WritableWalk (mem : ByteMemory) (root vaddr : ℕ) : Prop :=
  ∀ slot ∈ pageTables.slots (tablesOf mem) (BitVec.ofNat 64 root) (indices vaddr),
    writable (tablesOf mem slot.1 slot.2) = true

/-- The table at `root` maps the pages from `first` up to `last` to themselves, writable,
and maps no other page. -/
def MapsExactly (mem : ByteMemory) (root first last : ℕ) : Prop :=
  ∀ vaddr, IsPage vaddr →
    if first ≤ vaddr ∧ vaddr < last then
      (∃ e, leafOf mem root vaddr = some e ∧ (ptePaddr e).toNat = vaddr) ∧
        WritableWalk mem root vaddr
    else leafOf mem root vaddr = none

/-- What the page that becomes the last table must have held: no address bits in the upper
halves of the entries that are used, and no present entry among the others. -/
def PtClean (kernelPaddrStart ebx : ℕ) (mem : ByteMemory) : Prop :=
  ∀ j < 512,
    if Mapped kernelPaddrStart ebx j then mem.load (ptPaddr ebx + 8 * j + 4) 4 % 2 ^ 20 = 0
    else mem.load (ptPaddr ebx + 8 * j) 4 % 2 = 0

/-- The bits of a number that is an entry. -/
theorem getLsbD_word (v : ℕ) {i : ℕ} (hi : i < 64) :
    (BitVec.ofNat 64 v).getLsbD i = v.testBit i := by
  rw [BitVec.getLsbD_ofNat, decide_eq_true hi, Bool.true_and]

/-- The address in a number that is an entry. -/
theorem toNat_ptePaddr_word (v : ℕ) :
    (ptePaddr (BitVec.ofNat 64 v)).toNat = v % 2 ^ 52 / 2 ^ 12 * 2 ^ 12 := by
  rw [toNat_ptePaddr, BitVec.toNat_ofNat, Nat.mod_mod_of_dvd _ (by decide)]

/-- Whether a number is a present entry. -/
theorem present_word (v : ℕ) : present (BitVec.ofNat 64 v) = decide (v % 2 = 1) := by
  rw [present, getLsbD_word v (by decide), Nat.testBit_zero]

/-- The entry for a table or a page of the boot: present, writable, with its address. -/
theorem bootEntry {a : ℕ} (ha : a % 0x1000 = 0) (hlt : a < 2 ^ 52) :
    present (BitVec.ofNat 64 (a + 3)) = true ∧ writable (BitVec.ofNat 64 (a + 3)) = true ∧
      ptePaddr (BitVec.ofNat 64 (a + 3)) = BitVec.ofNat 64 a := by
  refine ⟨?_, ?_, ?_⟩
  · rw [present_word, decide_eq_true_eq]
    omega
  · rw [writable, getLsbD_word _ (by decide), Nat.testBit_eq_decide_div_mod_eq, decide_eq_true_eq]
    omega
  · apply BitVec.eq_of_toNat_eq
    rw [toNat_ptePaddr_word, BitVec.toNat_ofNat, Nat.mod_eq_of_lt (show a < 2 ^ 64 by omega)]
    omega

/-- A walk through a table with one entry. -/
theorem walk_oneEntry {table next index j : ℕ} (path : List ℕ)
    (hread : ∀ j < 512, mem.load (table + 8 * j) 8 = if j = index then next + 3 else 0)
    (htable : table < 2 ^ 64) (hal : next % 0x1000 = 0) (hlt : next < 2 ^ 52) (hj : j < 512)
    (hpath : path ≠ []) :
    pageTables.leaf (tablesOf mem) (BitVec.ofNat 64 table) (j :: path) =
        (if j = index then pageTables.leaf (tablesOf mem) (BitVec.ofNat 64 next) path else none) ∧
      pageTables.slots (tablesOf mem) (BitVec.ofNat 64 table) (j :: path) =
        (BitVec.ofNat 64 table, j) ::
          (if j = index then pageTables.slots (tablesOf mem) (BitVec.ofNat 64 next) path else []) ∧
      (j = index → writable (tablesOf mem (BitVec.ofNat 64 table) j) = true) := by
  obtain ⟨hpres, hwrite, haddr⟩ := bootEntry hal hlt
  have hentry : tablesOf mem (BitVec.ofNat 64 table) j =
      BitVec.ofNat 64 (if j = index then next + 3 else 0) := by
    rw [tablesOf, BitVec.toNat_ofNat, Nat.mod_eq_of_lt htable, hread j hj]
  rw [Radix.leaf_cons hpath, Radix.slots, hentry]
  by_cases heq : j = index
  · have hnext : pageTables.next (BitVec.ofNat 64 (next + 3)) = BitVec.ofNat 64 next := haddr
    have hthere : pageTables.present (BitVec.ofNat 64 (next + 3)) = true := hpres
    simp only [if_pos heq, hnext, if_pos hthere, hwrite, true_and, implies_true]
  · have hthere : pageTables.present (BitVec.ofNat 64 0) = false := by decide
    simp only [heq, reduceIte, hthere, Bool.false_eq_true, true_and, false_implies]

/-- The walk of a page after `setup_paging`. -/
theorem walk_filled {k ebx vaddr : ℕ} {mem' : ByteMemory} (h : OneRegion k ebx)
    (hfill : Filled k ebx mem mem') :
    (leafOf mem' (ptPaddr ebx - 0x3000) vaddr =
      if pageNumber vaddr / 512 = k / 0x1000 / 512 then
        pageTables.entry (tablesOf mem') (BitVec.ofNat 64 (ptPaddr ebx), pageNumber vaddr % 512)
      else none) ∧
    (pageNumber vaddr / 512 = k / 0x1000 / 512 →
      writable (tablesOf mem' (BitVec.ofNat 64 (ptPaddr ebx)) (pageNumber vaddr % 512)) = true →
      WritableWalk mem' (ptPaddr ebx - 0x3000) vaddr) := by
  obtain ⟨hal, hlow, -, -, hbelow, hle, -⟩ := h.layout
  have hpages : k / 0x1000 < 2 ^ 20 := by omega
  have hn : pageNumber vaddr < 512 ^ 4 := Nat.mod_lt _ (by decide)
  have hread := fun d hd => hfill.inner d hd
  have hpath : indices vaddr = [pageNumber vaddr / 512 ^ 3, pageNumber vaddr / 512 ^ 2 % 512,
      pageNumber vaddr / 512 % 512, pageNumber vaddr % 512] := by
    rw [indices_eq_digits]
    simp only [digits, List.cons.injEq, and_true, true_and]
    omega
  rw [WritableWalk, leafOf, hpath]
  generalize ptPaddr ebx = pt at *
  generalize pageNumber vaddr = n at *
  generalize k / 0x1000 = p at *
  obtain ⟨hleaf₂, hslots₂, hw₂⟩ := walk_oneEntry
    [n / 512 ^ 2 % 512, n / 512 % 512, n % 512] (hread 2 (by decide)) (by omega)
    (by omega) (by omega) (show n / 512 ^ 3 < 512 by omega) (List.cons_ne_nil _ _)
  obtain ⟨hleaf₁, hslots₁, hw₁⟩ := walk_oneEntry [n / 512 % 512, n % 512]
    (hread 1 (by decide)) (by omega) (by omega) (by omega)
    (show n / 512 ^ 2 % 512 < 512 by omega) (List.cons_ne_nil _ _)
  obtain ⟨hleaf₀, hslots₀, hw₀⟩ := walk_oneEntry [n % 512]
    (hread 0 (by decide)) (by omega) (by omega) (by omega)
    (show n / 512 % 512 < 512 by omega) (List.cons_ne_nil _ _)
  simp only [Nat.reduceAdd, Nat.reduceMul, Nat.sub_zero] at *
  by_cases hregion : n / 512 = p / 512
  · have h₂ : n / 512 ^ 3 = p / 512 ^ 3 % 512 := by omega
    have h₁ : n / 512 ^ 2 % 512 = p / 512 ^ 2 % 512 := by omega
    have h₀ : n / 512 % 512 = p / 512 ^ 1 % 512 := by omega
    rw [if_pos hregion, hleaf₂, if_pos h₂, hleaf₁, if_pos h₁, hleaf₀, if_pos h₀]
    refine ⟨rfl, fun _ hlast slot hslot => ?_⟩
    rw [hslots₂, if_pos h₂, hslots₁, if_pos h₁, hslots₀, if_pos h₀, Radix.slots_singleton] at hslot
    simp only [List.mem_cons, List.not_mem_nil, or_false] at hslot
    rcases hslot with rfl | rfl | rfl | rfl
    · exact hw₂ h₂
    · exact hw₁ h₁
    · exact hw₀ h₀
    · exact hlast
  · rw [if_neg hregion]
    refine ⟨?_, fun heq => absurd heq hregion⟩
    rw [hleaf₂, hleaf₁, hleaf₀]
    split
    next h₂ =>
      split
      next h₁ => rw [if_neg (by omega)]
      next => rfl
    next => rfl

/-- The entry in the last table after `setup_paging`. -/
theorem lastEntry {k ebx j : ℕ} {mem mem' : ByteMemory} (h : OneRegion k ebx)
    (hfill : Filled k ebx mem mem') (hj : j < 512) :
    tablesOf mem' (BitVec.ofNat 64 (ptPaddr ebx)) j = BitVec.ofNat 64
      ((if Mapped k ebx j then (k / 0x1000 - k / 0x1000 % 512 + j) * 0x1000 + 3
        else mem.load (ptPaddr ebx + 8 * j) 4) +
          2 ^ 32 * mem.load (ptPaddr ebx + 8 * j + 4) 4) := by
  obtain ⟨-, -, -, -, hbelow, -, -⟩ := h.layout
  rw [tablesOf, BitVec.toNat_ofNat, Nat.mod_eq_of_lt (show ptPaddr ebx < 2 ^ 64 by omega),
    load_entry, hfill.lower j hj, hfill.upper j hj]

/-- The pages that the last table can map. -/
theorem page_of_region {k ebx vaddr : ℕ} (h : OneRegion k ebx) (hpage : IsPage vaddr) :
    (pageNumber vaddr / 512 = k / 0x1000 / 512 →
      vaddr = (k / 0x1000 - k / 0x1000 % 512 + pageNumber vaddr % 512) * 0x1000) ∧
    (andPage k ≤ vaddr ∧ vaddr < tablesEnd ebx ↔
      pageNumber vaddr / 512 = k / 0x1000 / 512 ∧ Mapped k ebx (pageNumber vaddr % 512)) := by
  obtain ⟨hal, hlow, -, hend, hbelow, hle, hcount⟩ := h.layout
  obtain ⟨hlt, hcan, hpal⟩ := hpage
  rw [canonical_iff hlt] at hcan
  rw [Mapped, hend, andPage]
  generalize ptPaddr ebx = pt at *
  have hk : k / 0x1000 < 2 ^ 20 := by omega
  have hnum : pageNumber vaddr = vaddr / 0x1000 % 2 ^ 36 := rfl
  rw [hnum]
  rw [pageSize] at hpal
  obtain ⟨n, rfl⟩ := Nat.dvd_of_mod_eq_zero hpal
  have hdiv : 4096 * n / 0x1000 = n := Nat.mul_div_cancel_left n (by decide)
  have hend : (pt + 0x1000) / 0x1000 = pt / 0x1000 + 1 := by omega
  rw [hdiv, hend]
  clear hend hdiv hnum hpal hbelow hlow
  refine ⟨by omega, ⟨fun hin => ?_, fun hin => ?_⟩⟩
  · have hn : n % 2 ^ 36 = n := by omega
    rw [hn]
    omega
  · have hn : n % 2 ^ 36 = n := by omega
    rw [hn] at hin
    omega

/-- An index of the last table belongs to a page. -/
theorem page_of_index {k ebx j : ℕ} (h : OneRegion k ebx) (hj : j < 512) :
    IsPage ((k / 0x1000 - k / 0x1000 % 512 + j) * 0x1000) ∧
      pageNumber ((k / 0x1000 - k / 0x1000 % 512 + j) * 0x1000) =
        k / 0x1000 - k / 0x1000 % 512 + j := by
  obtain ⟨hal, hlow, -, hend, hbelow, hle, hcount⟩ := h.layout
  have hk : k / 0x1000 < 2 ^ 20 := by omega
  generalize k / 0x1000 = p at *
  have hlt : (p - p % 512 + j) * 0x1000 < 2 ^ 33 := by omega
  refine ⟨⟨by omega, (canonical_iff (by omega)).mpr (.inl (by omega)), Nat.mul_mod_left _ _⟩, ?_⟩
  rw [pageNumber, pageSize, Nat.mul_div_cancel _ (by decide)]
  exact Nat.mod_eq_of_lt (by omega)

/-- The entry in the last table for a page that is mapped. -/
theorem lastEntry_mapped {k ebx j : ℕ} {mem mem' : ByteMemory} (h : OneRegion k ebx)
    (hfill : Filled k ebx mem mem') (hj : j < 512) (hmapped : Mapped k ebx j) :
    ∃ e, pageTables.entry (tablesOf mem') (BitVec.ofNat 64 (ptPaddr ebx), j) = some e ∧
      writable (tablesOf mem' (BitVec.ofNat 64 (ptPaddr ebx)) j) = true ∧
      (ptePaddr e).toNat = (k / 0x1000 - k / 0x1000 % 512 + j) * 0x1000 +
        2 ^ 32 * (mem.load (ptPaddr ebx + 8 * j + 4) 4 % 2 ^ 20) := by
  have hentry := lastEntry h hfill hj
  rw [if_pos hmapped] at hentry
  obtain ⟨hpage, hnum⟩ := page_of_index h hj
  obtain ⟨-, -, -, -, hbelow, hle, -⟩ := h.layout
  have hlower : (k / 0x1000 - k / 0x1000 % 512 + j) * 0x1000 < 2 ^ 32 := by
    have hin := ((page_of_region h hpage).2.mpr (by rw [hnum]; exact ⟨by omega, by
      rw [show (k / 0x1000 - k / 0x1000 % 512 + j) % 512 = j by omega]; exact hmapped⟩)).2
    exact Nat.lt_of_lt_of_le hin h.below
  have hal : (k / 0x1000 - k / 0x1000 % 512 + j) * 0x1000 % 0x1000 = 0 := Nat.mul_mod_left _ _
  generalize mem.load (ptPaddr ebx + 8 * j + 4) 4 = upper at *
  generalize (k / 0x1000 - k / 0x1000 % 512 + j) * 0x1000 = u at *
  have hpres : present (BitVec.ofNat 64 (u + 3 + 2 ^ 32 * upper)) = true := by
    rw [present_word, decide_eq_true_eq]
    omega
  refine ⟨_, Radix.entry_eq_some_iff.mpr ⟨hpres, hentry⟩, ?_, ?_⟩
  · rw [hentry, writable, getLsbD_word _ (by decide), Nat.testBit_eq_decide_div_mod_eq,
      decide_eq_true_eq]
    omega
  · rw [toNat_ptePaddr_word]
    omega

/-- The entry in the last table for a page that is not mapped. -/
theorem lastEntry_other {k ebx j : ℕ} {mem mem' : ByteMemory} (h : OneRegion k ebx)
    (hfill : Filled k ebx mem mem') (hj : j < 512) (hmapped : ¬ Mapped k ebx j) :
    pageTables.entry (tablesOf mem') (BitVec.ofNat 64 (ptPaddr ebx), j) = none ↔
      mem.load (ptPaddr ebx + 8 * j) 4 % 2 = 0 := by
  have hentry := lastEntry h hfill hj
  rw [if_neg hmapped] at hentry
  rw [Radix.entry, hentry, show pageTables.present = present by rfl, present_word]
  simp only [decide_eq_true_eq, ite_eq_right_iff, reduceCtorEq, imp_false]
  omega

/-- Tables that map exactly the range were made in a page that held nothing in the way. -/
theorem Filled.ptClean {k ebx : ℕ} {mem mem' : ByteMemory} (h : OneRegion k ebx)
    (hfill : Filled k ebx mem mem')
    (hmaps : MapsExactly mem' (ptPaddr ebx - 0x3000) (andPage k) (tablesEnd ebx)) :
    PtClean k ebx mem := by
  intro j hj
  obtain ⟨hpage, hnum⟩ := page_of_index h hj
  have hregion : pageNumber ((k / 0x1000 - k / 0x1000 % 512 + j) * 0x1000) / 512 =
      k / 0x1000 / 512 := by omega
  have hindex : pageNumber ((k / 0x1000 - k / 0x1000 % 512 + j) * 0x1000) % 512 = j := by omega
  have hmaps := hmaps _ hpage
  simp only [(page_of_region h hpage).2, (walk_filled h hfill).1, hregion, hindex, true_and,
    reduceIte] at hmaps
  by_cases hmapped : Mapped k ebx j
  · obtain ⟨e, hentry, -, haddr⟩ := lastEntry_mapped h hfill hj hmapped
    rw [if_pos hmapped, hentry] at hmaps
    obtain ⟨⟨e', he', haddr'⟩, -⟩ := hmaps
    rw [if_pos hmapped]
    cases he'
    omega
  · rw [if_neg hmapped] at hmaps
    rw [if_neg hmapped]
    exact (lastEntry_other h hfill hj hmapped).mp hmaps

/-- Tables made in a page that held nothing in the way map exactly the range. -/
theorem Filled.mapsExactly {k ebx : ℕ} {mem mem' : ByteMemory} (h : OneRegion k ebx)
    (hfill : Filled k ebx mem mem') (hclean : PtClean k ebx mem) :
    MapsExactly mem' (ptPaddr ebx - 0x3000) (andPage k) (tablesEnd ebx) := by
  intro vaddr hpage
  have hj := Nat.mod_lt (pageNumber vaddr) (show 0 < 512 by decide)
  have hclean := hclean _ hj
  rw [(walk_filled h hfill).1]
  simp only [(page_of_region h hpage).2]
  by_cases hregion : pageNumber vaddr / 512 = k / 0x1000 / 512
  · simp only [hregion, true_and, reduceIte]
    by_cases hmapped : Mapped k ebx (pageNumber vaddr % 512)
    · obtain ⟨e, hentry, hwrite, haddr⟩ := lastEntry_mapped h hfill hj hmapped
      rw [if_pos hmapped] at hclean
      rw [if_pos hmapped, hentry]
      refine ⟨⟨e, rfl, ?_⟩, (walk_filled h hfill).2 hregion hwrite⟩
      rw [haddr, hclean, Nat.mul_zero, Nat.add_zero]
      exact ((page_of_region h hpage).1 hregion).symm
    · rw [if_neg hmapped] at hclean
      rw [if_neg hmapped]
      exact (lastEntry_other h hfill hj hmapped).mpr hclean
  · simp only [hregion, false_and, reduceIte]

/-- **Boot paging**: the last table is not cleared, so the tables map exactly the pages of the
kernel and of the tables when the page that becomes the last table holds no address bits in the
upper halves of the entries that are used, and no present entry elsewhere. -/
theorem mapsExactly_iff {k ebx : ℕ} (mem : ByteMemory) (h : OneRegion k ebx) :
    MapsExactly (setupPaging k mem ebx).1 (setupPaging k mem ebx).2 (andPage k) (tablesEnd ebx) ↔
      PtClean k ebx mem := by
  obtain ⟨hcr3, hfill⟩ := setupPaging_filled mem h
  rw [hcr3]
  exact ⟨hfill.ptClean h, hfill.mapsExactly h⟩

/-- Where the linker puts the kernel, with boot data that end 64 KiB behind its start. -/
theorem oneRegion_kernel : OneRegion 0x10000 0x20000 := ⟨by decide, by decide, by decide⟩

/-- Memory with stale contents: full of ones, but in the page that becomes the last table the lower
halves of the entries are even and the upper ones have no address bits. -/
def staleMemory : ByteMemory := fun a =>
  if a < 0x24000 ∨ 0x25000 ≤ a then 0xff
  else if a % 8 = 4 ∨ a % 8 = 5 then 0
  else if a % 8 = 6 then 0xf0
  else 0xfe

/-- Such memory gives exact tables. -/
theorem mapsExactly_stale :
    MapsExactly (setupPaging 0x10000 staleMemory 0x20000).1
      (setupPaging 0x10000 staleMemory 0x20000).2 0x10000 0x25000 := by
  refine (mapsExactly_iff _ oneRegion_kernel).mpr fun j hj => ?_
  have hpage : ptPaddr 0x20000 = 0x24000 := by decide
  have hbyte : ∀ k < 8, staleMemory (0x24000 + 8 * j + k) =
      if k = 4 ∨ k = 5 then 0 else if k = 6 then 0xf0 else 0xfe := by
    intro k hk
    have hmod : (0x24000 + 8 * j + k) % 8 = k := by omega
    rw [staleMemory, if_neg (by omega), hmod]
  rw [hpage]
  split
  · have h4 := hbyte 4 (by decide)
    have h5 := hbyte 5 (by decide)
    have h6 := hbyte 6 (by decide)
    have h7 := hbyte 7 (by decide)
    simp only [ByteMemory.load, Nat.add_assoc, Nat.reduceAdd] at h4 h5 h6 h7 ⊢
    rw [h4, h5, h6, h7]
    decide
  · have h0 := hbyte 0 (by decide)
    rw [Nat.add_zero] at h0
    rw [ByteMemory.load, h0]
    show (0xfe + 256 * _) % 2 = 0
    omega

/-- Memory full of ones does not: the upper halves keep their bits. -/
theorem not_mapsExactly : ¬ ∀ (k ebx : ℕ) (mem : ByteMemory), OneRegion k ebx →
    MapsExactly (setupPaging k mem ebx).1 (setupPaging k mem ebx).2 (andPage k)
      (tablesEnd ebx) := by
  intro hall
  obtain ⟨hcr3, hfill⟩ := setupPaging_filled (fun _ => 0xff#8) oneRegion_kernel
  have hmaps := hall 0x10000 0x20000 (fun _ => 0xff#8) oneRegion_kernel
  rw [hcr3] at hmaps
  have hclean := hfill.ptClean oneRegion_kernel hmaps 16 (by decide)
  revert hclean
  decide

/-- The tables are those that the pages of the boot are counted with. -/
theorem bootTables_eq {k ebx : ℕ} (mem : ByteMemory) (h : OneRegion k ebx) :
    Pm.setupPaging ebx = [(setupPaging k mem ebx).2, ptPaddr ebx - 0x2000, ptPaddr ebx - 0x1000,
      ptPaddr ebx] := by
  obtain ⟨hal, hlow, hstart, -, hbelow, -, -⟩ := h.layout
  have hadd : (ebx + 0xfff) % 2 ^ 32 = ebx + 0xfff := by
    rw [andPage] at hstart
    exact Nat.mod_eq_of_lt (by omega)
  rw [(setupPaging_filled mem h).1, Pm.setupPaging, hadd, ← andPage.eq_1, hstart]
  simp only [Pm.nextClearedPt, List.cons.injEq, and_true]
  omega

end Mimik.Boot
