/-
# What is left of the boot information

A run of `init_bootinfo` over the tags of an information block keeps one of two things, by
whether a tag of a module was among those it has seen (`Parsed`):

* without modules, `_bootinfo` points to a copy of the command line and to one of the memory
  map (`Clean`);
* with modules, the first byte of the command line of the first module, where the C layout
  puts it, is NUL (`Records`): the copy starts 8 bytes behind it.

The test at the end of a round compares with `jge`, as signed numbers.  In a block of 2 GiB or
more it can end the run after the first tag (`visited`).
-/
import Mimik.BootInfo

namespace Mimik.Boot

open Mimik.Vm

/-! ## Where the copies go -/

/-- The bytes that a tag takes in the data area. -/
def Tag.room : Tag → ℕ
  | cmdline s => s.length + 1
  | module m => 32 + (m.cmdline.length + 1)
  | memMap es => 24 * es.length
  | other _ _ => 0

/-- The end of the copies of some tags, of which the first is put at `b`. -/
def dataEnd : ℕ → List Tag → ℕ
  | b, [] => b
  | b, t :: ts => dataEnd ((b + t.room + 7) / 8 * 8) ts

theorem le_dataEnd (ts : List Tag) (b : ℕ) : b ≤ dataEnd b ts := by
  induction ts generalizing b with
  | nil => exact le_rfl
  | cons t ts ih =>
    have hle := ih ((b + t.room + 7) / 8 * 8)
    unfold dataEnd
    omega

/-- A block with at most one command line and one memory map, at a place where it is not
overwritten: `_bootinfo` is clear at first, and the copies lie in the 2 GiB that the kernel's
half shows. -/
structure Placed (sym : BootSymbols) (mem : ByteMemory) (start : ℕ) (tags : List Tag) : Prop where
  block : IsBlock mem start tags
  single : tags.Pairwise fun t t' => t.type = 1 ∨ t.type = 6 → t'.type ≠ t.type
  in_memory : start + blockSize tags ≤ 2 ^ 32
  clear : ∀ x, sym.bootinfo ≤ x → x < sym.bootinfo + 80 → mem x = 0
  struct_end : sym.bootinfo + 80 ≤ 2 ^ 31
  data_pos : 0 < sym.bootinfoData
  data_end : dataEnd sym.bootinfoData tags ≤ 2 ^ 31
  struct_data : sym.bootinfo + 80 ≤ sym.bootinfoData ∨
    dataEnd sym.bootinfoData tags ≤ sym.bootinfo
  struct_block : sym.bootinfo + 80 ≤ start ∨ start + blockSize tags ≤ sym.bootinfo
  data_block : dataEnd sym.bootinfoData tags ≤ start ∨
    start + blockSize tags ≤ sym.bootinfoData

/-- The address of the tag behind some tags. -/
def tagAddr (start : ℕ) (seen : List Tag) : ℕ := start + 8 + (seen.map Tag.padded).sum

theorem tagAddr_append (start : ℕ) (seen : List Tag) (t : Tag) :
    tagAddr start (seen ++ [t]) = tagAddr start seen + t.padded := by
  simp [tagAddr, Nat.add_assoc]

/-- The tags behind `seen`, as long as the test at the end of a round lets the run go on. -/
def visited (start size : ℕ) : List Tag → List Tag → List Tag
  | _, [] => []
  | seen, t :: ts =>
    t :: if signed32 size ≤ signed32 (tagAddr start (seen ++ [t]) - start) then []
      else visited start size (seen ++ [t]) ts

/-! ## What the kernel reads -/

/-- The modules of some tags. -/
def modulesOf : List Tag → List BootModule
  | [] => []
  | .module m :: ts => m :: modulesOf ts
  | _ :: ts => modulesOf ts

/-- The list at `p`, through the layout of `struct bootinfo_module`. -/
def ModulesAt (mem : ByteMemory) : ℕ → List BootModule → Prop
  | p, [] => p = 0
  | p, m :: ms => p ≠ 0 ∧ mem.load (physical p + 8) 8 = m.start ∧
      mem.load (physical p + 16) 8 = m.stop ∧ IsString mem (physical p + 24) m.cmdline ∧
      ModulesAt mem (mem.load (physical p) 8) ms

/-- What `struct bootinfo` gives, read through its C layout: the command line, unless its
pointer is the null pointer of before; the modules; the memory map. -/
structure Survives (sym : BootSymbols) (tags : List Tag) (mem : ByteMemory) : Prop where
  cmdline : ∀ s, .cmdline s ∈ tags → mem.load sym.bootinfo 8 ≠ higherHalf ∧
    IsString mem (physical (mem.load sym.bootinfo 8)) s
  modules : ModulesAt mem (mem.load (sym.bootinfo + 8) 8) (modulesOf tags)
  memMap : ∀ es, .memMap es ∈ tags → mem.load (sym.bootinfo + 16) 8 = es.length ∧
    SegmentsAt mem (physical (mem.load (sym.bootinfo + 24) 8)) es

/-- **Boot information survives decoding**: both routines return, given enough fuel, and leave
what the tags say. -/
def SurvivesDecoding (sym : BootSymbols) (mem : ByteMemory) (start : ℕ) (tags : List Tag) : Prop :=
  ∃ n mem', (∀ fuel ≥ n, bootInfo sym fuel mem start = .ok mem') ∧ Survives sym tags mem'

/-! ## The invariant -/

/-- The modules that were seen, as records at the addresses in `S`, the first at `a`: each is
followed by one at a higher address, or is the last; and byte 24 of the first is 0. -/
structure Records (sym : BootSymbols) (mem : ByteMemory) (b a : ℕ) (S : List ℕ) : Prop where
  first : mem.load (sym.bootinfo + 8) 4 = a
  mem_first : a ∈ S
  zero : mem (a + 24) = 0
  within : ∀ x ∈ S, sym.bootinfoData ≤ x ∧ x + 32 ≤ b
  next : ∀ x ∈ S, mem.load x 8 = 0 ∨ (mem.load x 8 ∈ S ∧ x < mem.load x 8)
  apart : ∀ x ∈ S, ∀ y ∈ S, x < y → x + 32 ≤ y

/-- The command line of the tags that were seen has its copy. -/
structure CmdlineKept (sym : BootSymbols) (seen : List Tag) (mem : ByteMemory) (b : ℕ) :
    Prop where
  none : (∀ t ∈ seen, t.type ≠ 1) → mem.load sym.bootinfo 4 = 0
  some : ∀ s, .cmdline s ∈ seen → sym.bootinfoData ≤ mem.load sym.bootinfo 4 ∧
    mem.load sym.bootinfo 4 + (s.length + 1) ≤ b ∧ IsString mem (mem.load sym.bootinfo 4) s

/-- The memory map of the tags that were seen has its copy. -/
structure MemMapKept (sym : BootSymbols) (seen : List Tag) (mem : ByteMemory) (b : ℕ) :
    Prop where
  none : (∀ t ∈ seen, t.type ≠ 6) → mem.load (sym.bootinfo + 16) 4 = 0
  some : ∀ es, .memMap es ∈ seen → mem.load (sym.bootinfo + 16) 4 = es.length ∧
    sym.bootinfoData ≤ mem.load (sym.bootinfo + 24) 4 ∧
    mem.load (sym.bootinfo + 24) 4 + 24 * es.length ≤ b ∧
    SegmentsAt mem (mem.load (sym.bootinfo + 24) 4) es

/-- What is left of the tags that were seen, when none of them is a module. -/
structure Clean (sym : BootSymbols) (seen : List Tag) (mem : ByteMemory) (b : ℕ) : Prop where
  modules : mem.load (sym.bootinfo + 8) 4 = 0
  cmdline : CmdlineKept sym seen mem b
  memMap : MemMapKept sym seen mem b

/-- What holds after the tags `seen`, when the next copy goes to `b`. -/
structure Parsed (sym : BootSymbols) (mem₀ : ByteMemory) (seen : List Tag) (mem : ByteMemory)
    (b : ℕ) : Prop where
  le : sym.bootinfoData ≤ b
  /-- Only `_bootinfo` and the data area are written to. -/
  frame : ∀ x, (x < sym.bootinfo ∨ sym.bootinfo + 80 ≤ x) → (x < sym.bootinfoData ∨ b ≤ x) →
    mem x = mem₀ x
  /-- The upper halves of the first four fields are clear. -/
  high : ∀ off < 32, 4 ≤ off % 8 → mem (sym.bootinfo + off) = 0
  clean : (∀ t ∈ seen, t.type ≠ 3) → Clean sym seen mem b
  records : (∃ t ∈ seen, t.type = 3) → ∃ a S, Records sym mem b a S

variable {sym : BootSymbols} {mem mem' mem₀ : ByteMemory} {start b b' a : ℕ}
  {tags seen ts : List Tag} {t : Tag} {S : List ℕ} {s : List (BitVec 8)}

/-- What is read of a tag behind its first two fields. -/
theorem PayloadAt.congr (h : t.PayloadAt mem a)
    (heq : ∀ x, a ≤ x → x < a + t.payload → mem' x = mem x) : t.PayloadAt mem' a := by
  cases t with
  | cmdline s =>
    refine ⟨h.1, h.2.congr ?_⟩
    intro i hi
    exact heq _ (by omega) (by simp only [Tag.payload]; omega)
  | module m =>
    simp only [Tag.payload] at heq
    obtain ⟨hstart, hstop, hne, hs⟩ := h
    refine ⟨?_, ?_, hne, hs.congr ?_⟩
    · rw [ByteMemory.load_congr fun x hle hlt => heq x (by omega) (by omega), hstart]
    · rw [ByteMemory.load_congr fun x hle hlt => heq x (by omega) (by omega), hstop]
    · intro i hi
      exact heq _ (by omega) (by omega)
  | memMap es =>
    simp only [Tag.payload] at heq
    obtain ⟨hsize, hne, hes⟩ := h
    refine ⟨?_, hne, hes.congr ?_⟩
    · rw [ByteMemory.load_congr fun x hle hlt => heq x (by omega) (by omega), hsize]
    · intro x hle hlt
      exact heq x (by omega) (by omega)
  | other type payload => exact h

/-- Records stay where only what is behind them, or other fields, is written to. -/
theorem Records.congr (h : Records sym mem b a S) (hb : b ≤ b')
    (hdata : ∀ x, sym.bootinfoData ≤ x → x < b → mem' x = mem x)
    (hfield : ∀ x, sym.bootinfo + 8 ≤ x → x < sym.bootinfo + 12 → mem' x = mem x) :
    Records sym mem' b' a S := by
  have hnext : ∀ x ∈ S, mem'.load x 8 = mem.load x 8 := by
    intro x hx
    obtain ⟨hlo, hhi⟩ := h.within x hx
    exact ByteMemory.load_congr fun y hle hlt => hdata y (by omega) (by omega)
  obtain ⟨hlo, hhi⟩ := h.within a h.mem_first
  refine ⟨?_, h.mem_first, ?_, ?_, ?_, h.apart⟩
  · rw [ByteMemory.load_congr fun x hle hlt => hfield x hle (by omega), h.first]
  · rw [hdata (a + 24) (by omega) (by omega), h.zero]
  · intro x hx
    obtain ⟨hlo', hhi'⟩ := h.within x hx
    exact ⟨hlo', by omega⟩
  · intro x hx
    rw [hnext x hx]
    exact h.next x hx

/-- A tag of another type leaves the command line. -/
theorem CmdlineKept.pass (h : CmdlineKept sym seen mem b) (ht : t.type ≠ 1) (hb : b ≤ b')
    (hdata : ∀ x, sym.bootinfoData ≤ x → x < b → mem' x = mem x)
    (hfield : ∀ x, sym.bootinfo ≤ x → x < sym.bootinfo + 4 → mem' x = mem x) :
    CmdlineKept sym (seen ++ [t]) mem' b' := by
  have hload : mem'.load sym.bootinfo 4 = mem.load sym.bootinfo 4 := ByteMemory.load_congr hfield
  constructor
  · intro hnone
    rw [hload, h.none fun t ht => hnone t (List.mem_append_left _ ht)]
  · intro s hs
    rcases List.mem_append.mp hs with hs | hs
    · obtain ⟨hlo, hhi, hstring⟩ := h.some s hs
      rw [hload]
      refine ⟨hlo, by omega, hstring.congr ?_⟩
      intro i hi
      exact hdata _ (by omega) (by omega)
    · rw [List.mem_singleton] at hs
      exact absurd (congrArg Tag.type hs.symm) ht

/-- A tag of another type leaves the memory map. -/
theorem MemMapKept.pass (h : MemMapKept sym seen mem b) (ht : t.type ≠ 6) (hb : b ≤ b')
    (hdata : ∀ x, sym.bootinfoData ≤ x → x < b → mem' x = mem x)
    (hfield : ∀ x, sym.bootinfo + 16 ≤ x → x < sym.bootinfo + 28 → mem' x = mem x) :
    MemMapKept sym (seen ++ [t]) mem' b' := by
  have hcount : mem'.load (sym.bootinfo + 16) 4 = mem.load (sym.bootinfo + 16) 4 :=
    ByteMemory.load_congr fun x hle hlt => hfield x hle (by omega)
  have hptr : mem'.load (sym.bootinfo + 24) 4 = mem.load (sym.bootinfo + 24) 4 :=
    ByteMemory.load_congr fun x hle hlt => hfield x (by omega) (by omega)
  constructor
  · intro hnone
    rw [hcount, h.none fun t ht => hnone t (List.mem_append_left _ ht)]
  · intro es hes
    rcases List.mem_append.mp hes with hes | hes
    · obtain ⟨hlen, hlo, hhi, hseg⟩ := h.some es hes
      rw [hcount, hptr]
      refine ⟨hlen, hlo, by omega, hseg.congr ?_⟩
      intro x hle hlt
      exact hdata x (by omega) (by omega)
    · rw [List.mem_singleton] at hes
      exact absurd (congrArg Tag.type hes.symm) ht

/-- **A tag that is no module** writes behind the copies and to fields other than that of the
modules; then it is enough to know what it does where there were no modules yet. -/
theorem Parsed.pass (h : Parsed sym mem₀ seen mem b) (ht : t.type ≠ 3) (hb : b ≤ b')
    (hstruct : sym.bootinfo + 80 ≤ sym.bootinfoData ∨ b' ≤ sym.bootinfo)
    (hwrite : ∀ x, (x < sym.bootinfo ∨ sym.bootinfo + 80 ≤ x) → (x < b ∨ b' ≤ x) →
      mem' x = mem x)
    (hhigh : ∀ off < 32, 4 ≤ off % 8 → mem' (sym.bootinfo + off) = mem (sym.bootinfo + off))
    (hfield : ∀ x, sym.bootinfo + 8 ≤ x → x < sym.bootinfo + 12 → mem' x = mem x)
    (hclean : Clean sym seen mem b → Clean sym (seen ++ [t]) mem' b') :
    Parsed sym mem₀ (seen ++ [t]) mem' b' := by
  have hle := h.le
  refine ⟨by omega, ?_, ?_, ?_, ?_⟩
  · intro x hx hx'
    rw [hwrite x hx (by omega), h.frame x hx (by omega)]
  · intro off hoff hmod
    rw [hhigh off hoff hmod, h.high off hoff hmod]
  · intro hnone
    exact hclean (h.clean fun t' ht' => hnone t' (List.mem_append_left _ ht'))
  · rintro ⟨t', ht', htype⟩
    rcases List.mem_append.mp ht' with ht' | ht'
    · obtain ⟨a, S, hrec⟩ := h.records ⟨t', ht', htype⟩
      refine ⟨a, S, hrec.congr hb ?_ hfield⟩
      intro x hle hlt
      exact hwrite x (by omega) (by omega)
    · rw [List.mem_singleton] at ht'
      rw [ht'] at htype
      exact absurd htype ht

/-! ## The modules -/

/-- The words at the records, read as double words. -/
theorem Records.next_low (h : Records sym mem b a S) {x : ℕ} (hx : x ∈ S) (hb : b ≤ 2 ^ 32) :
    mem.load x 4 = mem.load x 8 := by
  have hlt : mem.load x 8 < 2 ^ 32 := by
    rcases h.next x hx with hzero | ⟨hmem, -⟩
    · rw [hzero]
      decide
    · have := (h.within _ hmem).2
      omega
  have hlow := ByteMemory.load_lt mem x 4
  rw [load_eight] at hlt ⊢
  omega

/-- The walk to the last module ends at one. -/
theorem Records.lastModule (h : Records sym mem b a S) (hb : b ≤ 2 ^ 32) {fuel x last : ℕ}
    (hx : x ∈ S) (hrun : Boot.lastModule mem fuel x = .ok last) :
    last ∈ S ∧ mem.load last 8 = 0 := by
  induction fuel generalizing x with
  | zero => cases hrun
  | succ fuel ih =>
    have hlow := h.next_low hx hb
    unfold Boot.lastModule at hrun
    by_cases hzero : mem.load x 4 = 0
    · rw [if_pos hzero] at hrun
      cases hrun
      exact ⟨hx, by rw [← hlow, hzero]⟩
    · rw [if_neg hzero] at hrun
      rcases h.next x hx with hnext | ⟨hmem, -⟩
      · rw [hlow] at hzero
        exact absurd hnext hzero
      · rw [hlow] at hrun
        exact ih hmem hrun

/-- **One record more**, behind the last one. -/
theorem Records.append (h : Records sym mem b a S) {last : ℕ} (hlast : last ∈ S)
    (hzero : mem.load last 8 = 0) (hb : b + 32 ≤ b') (hlt : b < 2 ^ 32)
    (hstruct : sym.bootinfo + 80 ≤ sym.bootinfoData ∨ b' ≤ sym.bootinfo)
    (hword : mem'.load b 8 = 0)
    (hwrite : ∀ x, (x < b ∨ b' ≤ x) → mem' x = mem.store last 4 b x) :
    Records sym mem' b' a (b :: S) := by
  obtain ⟨hlast_lo, hlast_hi⟩ := h.within last hlast
  have hsame : ∀ x, (x < b ∨ b' ≤ x) → (x < last ∨ last + 4 ≤ x) → mem' x = mem x := by
    intro x hx hx'
    rw [hwrite x hx, ByteMemory.store_of_not_mem hx']
  have hapart : ∀ x ∈ S, x = last ∨ x + 32 ≤ last ∨ last + 32 ≤ x := by
    intro x hx
    rcases Nat.lt_trichotomy x last with hlt | heq | hgt
    · exact Or.inr (Or.inl (h.apart x hx last hlast hlt))
    · exact Or.inl heq
    · exact Or.inr (Or.inr (h.apart last hlast x hx hgt))
  have hnext : ∀ x ∈ S, x ≠ last → mem'.load x 8 = mem.load x 8 := by
    intro x hx hne
    have := h.within x hx
    have := hapart x hx
    exact ByteMemory.load_congr fun y hle hlt => hsame y (by omega) (by omega)
  have hlink : mem'.load last 8 = b := by
    have hhigh : mem.load (last + 4) 4 = 0 := by
      rw [load_eight] at hzero
      omega
    rw [load_eight, ByteMemory.load_congr fun y hle hlt => hwrite y (by omega),
      ByteMemory.load_store (by omega),
      ByteMemory.load_congr fun y hle hlt => hsame y (by omega) (by omega), hhigh]
    omega
  obtain ⟨ha_lo, ha_hi⟩ := h.within a h.mem_first
  refine ⟨?_, List.mem_cons_of_mem _ h.mem_first, ?_, ?_, ?_, ?_⟩
  · rw [ByteMemory.load_congr fun y hle hlt => hsame y (by omega) (by omega), h.first]
  · have := hapart a h.mem_first
    rw [hsame (a + 24) (by omega) (by omega), h.zero]
  · intro x hx
    rcases List.mem_cons.mp hx with rfl | hx
    · exact ⟨by omega, hb⟩
    · have := h.within x hx
      exact ⟨this.1, by omega⟩
  · intro x hx
    rcases List.mem_cons.mp hx with rfl | hx
    · exact Or.inl hword
    · by_cases hne : x = last
      · right
        rw [hne, hlink]
        exact ⟨List.mem_cons_self, by omega⟩
      · rw [hnext x hx hne]
        rcases h.next x hx with hnone | ⟨hmem, hgt⟩
        · exact Or.inl hnone
        · exact Or.inr ⟨List.mem_cons_of_mem _ hmem, hgt⟩
  · intro x hx y hy hxy
    rw [List.mem_cons] at hx hy
    rcases hx with rfl | hx <;> rcases hy with rfl | hy
    · omega
    · have := h.within y hy
      omega
    · exact (h.within x hx).2
    · exact h.apart x hx y hy hxy

/-! ## One tag -/

variable (start) in
/-- The tag behind `seen` lies in the block, and is not the end of it. -/
theorem tagAddr_le (htags : tags = seen ++ t :: ts) :
    tagAddr start seen + t.padded + 8 ≤ start + blockSize tags := by
  unfold tagAddr blockSize
  rw [htags, List.map_append, List.sum_append, List.map_cons, List.sum_cons]
  omega

theorem payload_le_padded (t : Tag) : 8 + t.payload ≤ t.padded := by
  unfold Tag.padded
  omega

/-- The block is where it was. -/
theorem Parsed.block (h : Parsed sym mem₀ seen mem b) (hp : Placed sym mem₀ start tags)
    (hb : b ≤ dataEnd sym.bootinfoData tags) {x : ℕ} (hlo : start ≤ x)
    (hhi : x < start + blockSize tags) : mem x = mem₀ x := by
  have hstruct := hp.struct_block
  have hdata := hp.data_block
  exact h.frame x (by omega) (by omega)

section Step

variable {fuel : ℕ} {r : ByteMemory × ℕ}

/-- **A command line.** -/
theorem Parsed.cmdline (h : Parsed sym mem₀ seen mem b) (hp : Placed sym mem₀ start tags)
    (htags : tags = seen ++ .cmdline s :: ts) {edx : ℕ} (hs : IsString mem edx s)
    (hedx : start ≤ edx) (hend : edx + (s.length + 1) + 8 ≤ start + blockSize tags)
    (hb' : b + (s.length + 1) ≤ b') (hroom : b' ≤ dataEnd sym.bootinfoData tags)
    (hrun : handleTag sym fuel mem 1 b edx (s.length + 1) = .ok r) :
    r.2 = b + (s.length + 1) ∧ Parsed sym mem₀ (seen ++ [.cmdline s]) r.1 b' := by
  have hle := h.le
  have hmemory := hp.in_memory
  have hstruct_end := hp.struct_end
  have hdata_end := hp.data_end
  have hstruct_data := hp.struct_data
  have hstruct_block := hp.struct_block
  have hdata_block := hp.data_block
  obtain ⟨mem', hcopy, hptr, hstring, hframe⟩ :=
    handleCmdline_spec b sym hs (by omega) (by omega) (by omega) (by omega)
      (by omega)
  have hr : r = (mem', b + (s.length + 1)) := by
    rw [← hcopy]
    exact (Except.ok.inj hrun).symm
  subst hr
  refine ⟨rfl, h.pass (by simp [Tag.type]) (by omega) (by omega) ?_ ?_ ?_ ?_⟩
  · intro x hx hx'
    exact hframe x (by omega) (by omega)
  · intro off hoff hmod
    exact hframe _ (by omega) (by omega)
  · intro x hle hlt
    exact hframe x (by omega) (by omega)
  · intro hclean
    refine ⟨?_, ⟨?_, ?_⟩, hclean.memMap.pass (by simp [Tag.type]) (by omega) ?_ ?_⟩
    · rw [ByteMemory.load_congr fun x hle hlt => hframe x (by omega) (by omega), hclean.modules]
    · intro hnone
      exact absurd rfl (hnone (.cmdline s) (by simp))
    · intro s' hs'
      rcases List.mem_append.mp hs' with hs' | hs'
      · -- there is only one command line
        have hsingle := hp.single
        rw [htags, List.pairwise_append] at hsingle
        have hother := hsingle.2.2 _ hs' (.cmdline s) List.mem_cons_self (Or.inl rfl)
        exact absurd rfl hother
      · rw [List.mem_singleton] at hs'
        cases hs'
        rw [hptr]
        exact ⟨hle, by omega, hstring⟩
    · intro x hle hlt
      exact hframe x (by omega) (by omega)
    · intro x hle hlt
      exact hframe x (by omega) (by omega)

/-- **A memory map.** -/
theorem Parsed.memMap (h : Parsed sym mem₀ seen mem b) (hp : Placed sym mem₀ start tags)
    {es : List MemMapEntry} (htags : tags = seen ++ .memMap es :: ts) {edx : ℕ}
    (hsize : mem.load edx 4 = 24) (hne : es ≠ []) (hes : EntriesAt mem (edx + 8) es)
    (hedx : start ≤ edx) (hend : edx + (8 + 24 * es.length) + 8 ≤ start + blockSize tags)
    (hb' : b + 24 * es.length ≤ b') (hroom : b' ≤ dataEnd sym.bootinfoData tags)
    (hrun : handleTag sym fuel mem 6 b edx (8 + 24 * es.length) = .ok r) :
    r.2 = b + 24 * es.length ∧ Parsed sym mem₀ (seen ++ [.memMap es]) r.1 b' := by
  have hle := h.le
  have hmemory := hp.in_memory
  have hstruct_end := hp.struct_end
  have hdata_end := hp.data_end
  have hstruct_data := hp.struct_data
  have hstruct_block := hp.struct_block
  have hdata_block := hp.data_block
  obtain ⟨mem', hcopy, hcount, hptr, hseg, hframe⟩ :=
    handleMemMap_spec b sym hsize hne hes (by omega) (by omega) (by omega)
      (by omega) (by omega)
  have hr : r = (mem', b + 24 * es.length) := by
    rw [← Except.ok.injEq, ← hcopy]
    exact hrun.symm
  subst hr
  refine ⟨rfl, h.pass (by simp [Tag.type]) (by omega) (by omega) ?_ ?_ ?_ ?_⟩
  · intro x hx hx'
    exact hframe x (by omega) (by omega) (by omega)
  · intro off hoff hmod
    exact hframe _ (by omega) (by omega) (by omega)
  · intro x hle hlt
    exact hframe x (by omega) (by omega) (by omega)
  · intro hclean
    refine ⟨?_, hclean.cmdline.pass (by simp [Tag.type]) (by omega) ?_ ?_, ⟨?_, ?_⟩⟩
    · rw [ByteMemory.load_congr fun x hle hlt => hframe x (by omega) (by omega) (by omega),
        hclean.modules]
    · intro x hle hlt
      exact hframe x (by omega) (by omega) (by omega)
    · intro x hle hlt
      exact hframe x (by omega) (by omega) (by omega)
    · intro hnone
      exact absurd rfl (hnone (.memMap es) (by simp))
    · intro es' hes'
      rcases List.mem_append.mp hes' with hes' | hes'
      · -- there is only one memory map
        have hsingle := hp.single
        rw [htags, List.pairwise_append] at hsingle
        have hother := hsingle.2.2 _ hes' (.memMap es) List.mem_cons_self (Or.inr rfl)
        exact absurd rfl hother
      · rw [List.mem_singleton] at hes'
        cases hes'
        rw [hptr]
        exact ⟨hcount, hle, by omega, hseg⟩

/-- **A tag of another type** is a descriptor of ACPI, or ignored. -/
theorem Parsed.other (h : Parsed sym mem₀ seen mem b) (hp : Placed sym mem₀ start tags)
    {type payload : ℕ} (htype : type ∉ [0, 1, 3, 6])
    (hacpi : type = 14 ∨ type = 15 → 0 < payload ∧ payload ≤ 40) {edx : ℕ}
    (hedx : start ≤ edx) (hend : edx + payload + 8 ≤ start + blockSize tags)
    (hb' : b ≤ b') (hroom : b' ≤ dataEnd sym.bootinfoData tags)
    (hrun : handleTag sym fuel mem type b edx payload = .ok r) :
    r.2 = b ∧ Parsed sym mem₀ (seen ++ [.other type payload]) r.1 b' := by
  have hle := h.le
  have hmemory := hp.in_memory
  have hstruct_end := hp.struct_end
  have hstruct_data := hp.struct_data
  have hstruct_block := hp.struct_block
  simp only [List.mem_cons, List.not_mem_nil, or_false, not_or] at htype
  obtain ⟨-, hone, hthree, hsix⟩ := htype
  have hr : r.2 = b ∧ ∀ x, (x < sym.bootinfo + 32 ∨ sym.bootinfo + 80 ≤ x) → r.1 x = mem x := by
    unfold handleTag at hrun
    rw [if_neg hone, if_neg hthree, if_neg hsix] at hrun
    by_cases hold : type = 14
    · obtain ⟨hpos, hle40⟩ := hacpi (Or.inl hold)
      rw [if_pos hold] at hrun
      cases hrun
      exact ⟨rfl, handleAcpi_spec 1 hpos hle40 (by omega) (by omega) (by omega)⟩
    · rw [if_neg hold] at hrun
      by_cases hnew : type = 15
      · obtain ⟨hpos, hle40⟩ := hacpi (Or.inr hnew)
        rw [if_pos hnew] at hrun
        cases hrun
        exact ⟨rfl, handleAcpi_spec 2 hpos hle40 (by omega) (by omega) (by omega)⟩
      · rw [if_neg hnew] at hrun
        cases hrun
        exact ⟨rfl, fun _ _ => rfl⟩
  obtain ⟨hr₂, hframe⟩ := hr
  refine ⟨hr₂, h.pass hthree hb' (by omega) ?_ ?_ ?_ ?_⟩
  · intro x hx _
    exact hframe x (by omega)
  · intro off hoff _
    exact hframe _ (by omega)
  · intro x hle hlt
    exact hframe x (by omega)
  · intro hclean
    refine ⟨?_, hclean.cmdline.pass hone hb' ?_ ?_, hclean.memMap.pass hsix hb' ?_ ?_⟩
    · rw [ByteMemory.load_congr fun x hle hlt => hframe x (by omega), hclean.modules]
    all_goals
      intro x hle hlt
      exact hframe x (by omega)

/-- What the code up to label `2` does with the records. -/
theorem linkModule_eq_ok {mem₁ : ByteMemory} {ebx : ℕ}
    (hlink : linkModule sym fuel mem ebx = .ok mem₁) :
    (mem.load (sym.bootinfo + 8) 4 = 0 ∧ mem₁ = mem.store (sym.bootinfo + 8) 4 ebx) ∨
      mem.load (sym.bootinfo + 8) 4 ≠ 0 ∧ ∃ last,
        Boot.lastModule mem fuel (mem.load (sym.bootinfo + 8) 4) = .ok last ∧
          mem₁ = mem.store last 4 ebx := by
  unfold linkModule at hlink
  by_cases hzero : mem.load (sym.bootinfo + 8) 4 = 0
  · simp only [if_pos hzero, Except.ok.injEq] at hlink
    exact Or.inl ⟨hzero, hlink.symm⟩
  · simp only [if_neg hzero] at hlink
    obtain ⟨last, hlast, hstore⟩ := Except.bind_eq_ok_iff.mp hlink
    cases hstore
    exact Or.inr ⟨hzero, last, hlast, rfl⟩

/-- **A module** becomes a record, the first one or one more. -/
theorem Parsed.module (h : Parsed sym mem₀ seen mem b) (hp : Placed sym mem₀ start tags)
    {m : BootModule} {edx : ℕ} (hedx : start ≤ edx)
    (hend : edx + (8 + (m.cmdline.length + 1)) + 8 ≤ start + blockSize tags)
    (hb' : b + (32 + (m.cmdline.length + 1)) ≤ b') (hroom : b' ≤ dataEnd sym.bootinfoData tags)
    (hrun : handleTag sym fuel mem 3 b edx (8 + (m.cmdline.length + 1)) = .ok r) :
    r.2 = b + (32 + (m.cmdline.length + 1)) ∧
      Parsed sym mem₀ (seen ++ [.module m]) r.1 b' := by
  have hle := h.le
  have hmemory := hp.in_memory
  have hstruct_end := hp.struct_end
  have hdata_end := hp.data_end
  have hdata_pos := hp.data_pos
  have hstruct_data := hp.struct_data
  have hstruct_block := hp.struct_block
  have hdata_block := hp.data_block
  obtain ⟨hr₂, hword, hzero, mem₁, hlink, hframe⟩ :=
    handleModule_spec b sym (Nat.succ_pos _) (by omega) (by omega) (by omega)
      hrun
  have hrest : (∀ x, (x < sym.bootinfo ∨ sym.bootinfo + 80 ≤ x) →
        (x < sym.bootinfoData ∨ b' ≤ x) → r.1 x = mem x) ∧
      (∀ off < 32, 4 ≤ off % 8 → r.1 (sym.bootinfo + off) = mem (sym.bootinfo + off)) ∧
      ∃ a S, Records sym r.1 b' a S := by
    rcases linkModule_eq_ok hlink with ⟨hnone, hstore⟩ | ⟨hsome, last, hlast, hstore⟩
    · -- the first module
      refine ⟨?_, ?_, b, [b], ?_, List.mem_singleton_self b, hzero, ?_, ?_, ?_⟩
      · intro x hx hx'
        rw [hframe x (by omega), hstore, ByteMemory.store_of_not_mem (by omega)]
      · intro off hoff hmod
        rw [hframe _ (by omega), hstore, ByteMemory.store_of_not_mem (by omega)]
      · rw [ByteMemory.load_congr fun x hle hlt => hframe x (by omega), hstore,
          ByteMemory.load_store (by omega)]
      · intro x hx
        rw [List.mem_singleton] at hx
        omega
      · intro x hx
        rw [List.mem_singleton] at hx
        exact Or.inl (hx ▸ hword)
      · intro x hx y hy hxy
        rw [List.mem_singleton] at hx hy
        omega
    · -- one of the tags before was a module
      have hseen : ∃ t ∈ seen, t.type = 3 := by
        by_contra hnone
        refine hsome (h.clean ?_).modules
        intro t ht htype
        exact hnone ⟨t, ht, htype⟩
      obtain ⟨a, S, hrec⟩ := h.records hseen
      rw [hrec.first] at hlast
      obtain ⟨hlast_mem, hlast_zero⟩ := hrec.lastModule (by omega) hrec.mem_first hlast
      obtain ⟨hlast_lo, hlast_hi⟩ := hrec.within last hlast_mem
      refine ⟨?_, ?_, a, b :: S,
        hrec.append hlast_mem hlast_zero (by omega) (by omega) (by omega) hword ?_⟩
      · intro x hx hx'
        rw [hframe x (by omega), hstore, ByteMemory.store_of_not_mem (by omega)]
      · intro off hoff hmod
        rw [hframe _ (by omega), hstore, ByteMemory.store_of_not_mem (by omega)]
      · intro x hx
        rw [hframe x (by omega), hstore]
  obtain ⟨hsame, hhigh, hrecords⟩ := hrest
  refine ⟨hr₂, by omega, ?_, ?_, ?_, fun _ => hrecords⟩
  · intro x hx hx'
    rw [hsame x hx hx', h.frame x hx (by omega)]
  · intro off hoff hmod
    rw [hhigh off hoff hmod, h.high off hoff hmod]
  · intro hnone
    exact absurd rfl (hnone (.module m) (by simp))

/-- **One tag.**  It leaves what the invariant says, with the next copy behind its own; and
the code for it returns, unless it is a module. -/
theorem Parsed.handle (h : Parsed sym mem₀ seen mem b) (hp : Placed sym mem₀ start tags)
    (htags : tags = seen ++ t :: ts) (hpayload : t.PayloadAt mem₀ (tagAddr start seen + 8))
    (hb' : b + t.room ≤ b') (hroom : b' ≤ dataEnd sym.bootinfoData tags)
    (hrun : handleTag sym fuel mem t.type b (tagAddr start seen + 8) t.payload = .ok r) :
    r.2 = b + t.room ∧ Parsed sym mem₀ (seen ++ [t]) r.1 b' := by
  have hend := tagAddr_le start htags
  have hpadded := payload_le_padded t
  have hstart : start ≤ tagAddr start seen + 8 := by
    unfold tagAddr
    omega
  have hpayload' : t.PayloadAt mem (tagAddr start seen + 8) := by
    refine PayloadAt.congr hpayload ?_
    intro x hle hlt
    exact h.block hp (by omega) (by omega) (by omega)
  cases t with
  | cmdline s =>
    simp only [Tag.payload] at hpadded
    exact h.cmdline hp htags hpayload'.2 hstart (by omega) hb' hroom hrun
  | module m =>
    simp only [Tag.payload] at hpadded
    exact h.module hp hstart (by omega) hb' hroom hrun
  | memMap es =>
    simp only [Tag.payload] at hpadded
    obtain ⟨hsize, hne, hes⟩ := hpayload'
    exact h.memMap hp htags hsize hne hes hstart (by omega) hb' hroom hrun
  | other type payload =>
    simp only [Tag.payload] at hpadded
    exact h.other hp hpayload'.1 hpayload'.2 hstart (by omega) hb' hroom hrun

variable (sym) in
/-- The code for a tag returns, and needs no fuel, unless it is a module. -/
theorem handleTag_returns (htype : t.type ≠ 3) (hpayload : t.PayloadAt mem a) (b : ℕ) :
    ∃ r, ∀ fuel, handleTag sym fuel mem t.type b a t.payload = .ok r := by
  cases t with
  | cmdline s => exact ⟨_, fun _ => rfl⟩
  | module m => exact absurd rfl htype
  | memMap es =>
    have hne : ¬ mem.load a 4 = 0 := by
      rw [hpayload.1]
      decide
    exact ⟨_, fun _ => if_neg hne⟩
  | other type payload =>
    have hthree : ¬ type = 3 := htype
    show ∃ r, ∀ fuel, handleTag sym fuel mem type b a payload = .ok r
    unfold handleTag
    have hmem := hpayload.1
    simp only [List.mem_cons, List.not_mem_nil, or_false, not_or] at hmem
    simp only [if_neg hmem.2.1, if_neg hthree, if_neg hmem.2.2.2]
    split
    · exact ⟨_, fun _ => rfl⟩
    · split
      · exact ⟨_, fun _ => rfl⟩
      · exact ⟨_, fun _ => rfl⟩

end Step

end Mimik.Boot
