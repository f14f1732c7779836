/-
# The boot information (`arch/x86_64/boot/multiboot2/entry.S`, `arch/x86_64/boot/stub.S`)

`init_bootinfo` walks over the tags that a Multiboot2 loader has left in memory, and copies
what the kernel needs of them behind the kernel image: the command line, a list of modules
and the memory map.  Pointers to the copies are in `_bootinfo`, and the modules are linked
through the first word of each.  `_stub64` later makes pointers of the higher half of them.

The routine runs in 32-bit mode without paging, so that its addresses are those of memory;
its registers are numbers below `2 ^ 32`.  The stack lies inside the kernel image, and what
is pushed is a variable here.  In `_stub64` memory is mapped twice, from 0 and from
`HIGHER_HALF` on.

The tags are described by `Tag`, the places of the copies by `place`.
-/
import Mimik.BootPaging
import Mimik.VmKernel

namespace Mimik.Boot

open Mimik.Vm

/-! ## The routines -/

/-- The addresses that the linker gives to `_bootinfo` and `_bootinfo_data`. -/
structure BootSymbols where
  bootinfo : ℕ
  bootinfoData : ℕ

/-- The loops that copy bytes, for `ecx` rounds: memory and `%ebx`. -/
def copyLoop : ℕ → ByteMemory → ℕ → ℕ → ByteMemory × ℕ
  | 0, mem, _, ebx => (mem, ebx)
  | ecx + 1, mem, edx, ebx =>
    copyLoop ecx (mem.store ebx 1 (mem.load edx 1)) (add32 edx 1) (add32 ebx 1)

/-- The walk to the last module, from the module at `%eax` on. -/
def lastModule (mem : ByteMemory) : ℕ → ℕ → Except Fault ℕ
  | 0, _ => .error .outOfFuel
  | fuel + 1, eax =>
    if mem.load eax 4 = 0 then .ok eax else lastModule mem fuel (mem.load eax 4)

section Tags

variable (sym : BootSymbols) (fuel : ℕ)

/-- The code for `MULTIBOOT_TAG_TYPE_CMDLINE`. -/
def handleCmdline (mem : ByteMemory) (ebx edx ecx : ℕ) : ByteMemory × ℕ :=
  let mem := mem.store sym.bootinfo 4 ebx
  copyLoop (loopRounds ecx) mem edx ebx

/-- The code for `MULTIBOOT_TAG_TYPE_MODULE` up to label `2`: the pointer to the new module is
put into `_bootinfo_modules`, or behind the last module. -/
def linkModule (mem : ByteMemory) (ebx : ℕ) : Except Fault ByteMemory :=
  let eax := mem.load (sym.bootinfo + 8) 4
  if eax = 0 then .ok (mem.store (sym.bootinfo + 8) 4 ebx)
  else do
    let eax ← lastModule mem fuel eax
    return mem.store eax 4 ebx

/-- The code for `MULTIBOOT_TAG_TYPE_MODULE`. -/
def handleModule (mem : ByteMemory) (ebx edx ecx : ℕ) : Except Fault (ByteMemory × ℕ) := do
  let mem ← linkModule sym fuel mem ebx
  let mem := mem.store ebx 4 0
  let mem := mem.store (add32 ebx 4) 4 0
  let mem := mem.store (add32 ebx 8) 4 (mem.load edx 4)
  let mem := mem.store (add32 ebx 12) 4 0
  let mem := mem.store (add32 ebx 16) 4 (mem.load (add32 edx 4) 4)
  let mem := mem.store (add32 ebx 20) 4 0
  -- `bootinfo_module.cmdline[0]`
  let mem := mem.store (add32 ebx 24) 4 0
  let ebx := add32 ebx 32
  let edx := add32 edx 8
  let ecx := sub32 ecx 8
  if ecx = 0 then return (mem, ebx)
  return copyLoop (loopRounds ecx) mem edx ebx

/-- A double word is copied, and both pointers go on. -/
def copyWord (s : ByteMemory × ℕ × ℕ) : ByteMemory × ℕ × ℕ :=
  let (mem, edx, ebx) := s
  (mem.store ebx 4 (mem.load edx 4), add32 edx 4, add32 ebx 4)

/-- The loop over the entries of the memory map: memory and `%ebx`. -/
def memMapLoop : ℕ → ByteMemory → ℕ → ℕ → ByteMemory × ℕ
  | 0, mem, _, ebx => (mem, ebx)
  | ecx + 1, mem, edx, ebx =>
    let eax := add32 edx 16
    let mem := mem.store ebx 4 (if mem.load eax 4 = 1 then 1 else 0)
    let ebx := add32 ebx 4
    let mem := mem.store ebx 4 0
    let ebx := add32 ebx 4
    let (mem, edx, ebx) := copyWord (copyWord (copyWord (copyWord (mem, edx, ebx))))
    memMapLoop ecx mem (add32 edx 8) ebx

/-- The code for `MULTIBOOT_TAG_TYPE_MMAP`. -/
def handleMemMap (mem : ByteMemory) (ebx edx ecx : ℕ) : Except Fault (ByteMemory × ℕ) :=
  let entrySize := mem.load edx 4
  if entrySize = 0 then .error (.wild "divl %ebx") else
  let ecx := ecx / entrySize
  let edx := add32 edx 8
  let mem := mem.store (sym.bootinfo + 16) 4 ecx
  let mem := mem.store (sym.bootinfo + 24) 4 ebx
  .ok (memMapLoop (loopRounds ecx) mem edx ebx)

/-- The code for `MULTIBOOT_TAG_TYPE_ACPI_OLD` and `MULTIBOOT_TAG_TYPE_ACPI_NEW`. -/
def handleAcpi (mem : ByteMemory) (acpiType edx ecx : ℕ) : ByteMemory :=
  let mem := mem.store (sym.bootinfo + 32) 4 acpiType
  (copyLoop (loopRounds ecx) mem edx (sym.bootinfo + 40)).1

/-- The code for a tag of the type `%eax`, up to label `next_tag`: memory and `%ebx`. -/
def handleTag (mem : ByteMemory) (eax ebx edx ecx : ℕ) : Except Fault (ByteMemory × ℕ) :=
  if eax = 1 then .ok (handleCmdline sym mem ebx edx ecx)
  else if eax = 3 then handleModule sym fuel mem ebx edx ecx
  else if eax = 6 then handleMemMap sym mem ebx edx ecx
  else if eax = 14 then .ok (handleAcpi sym mem 1 edx ecx, ebx)
  else if eax = 15 then .ok (handleAcpi sym mem 2 edx ecx, ebx)
  else .ok (mem, ebx)

end Tags

/-- `addl $7` and `andl $~7`. -/
def alignUp8 (a : ℕ) : ℕ := add32 a 7 / 8 * 8

/-- The address of the tag behind the one at `%edi`. -/
def nextTag (mem : ByteMemory) (edi : ℕ) : ℕ :=
  let edi := add32 edi 4
  let edi := add32 edi (mem.load edi 4)
  alignUp8 (sub32 edi 4)

/-- A register as a signed number. -/
def signed32 (a : ℕ) : ℤ := if a < 2 ^ 31 then a else a - 2 ^ 32

/-- `parse_next_tag`, for the block at `start` with `%esi` bytes: memory and `%ebx`. -/
def parseNextTag (sym : BootSymbols) (start esi : ℕ) :
    ℕ → ByteMemory → ℕ → ℕ → Except Fault (ByteMemory × ℕ)
  | 0, _, _, _ => .error .outOfFuel
  | fuel + 1, mem, edi, ebx => do
    let eax := mem.load edi 4
    let edx := add32 edi 4
    let ecx := sub32 (mem.load edx 4) 8
    let edx := add32 edx 4
    if eax = 0 then return (mem, ebx)
    let (mem, ebx) ← handleTag sym fuel mem eax ebx edx ecx
    let edi := nextTag mem edi
    let ebx := alignUp8 ebx
    -- `jge`
    if signed32 esi ≤ signed32 (sub32 edi start) then return (mem, ebx)
    parseNextTag sym start esi fuel mem edi ebx

/-- `init_bootinfo`, for the block at `%ebx`: memory, and the end of the boot data in `%eax`. -/
def initBootinfo (sym : BootSymbols) (fuel : ℕ) (mem : ByteMemory) (ebx : ℕ) :
    Except Fault (ByteMemory × ℕ) :=
  let esi := mem.load ebx 4
  parseNextTag sym ebx esi fuel mem (add32 ebx 8) sym.bootinfoData

/-- The place in memory of an address of `_stub64`. -/
def physical (a : ℕ) : ℕ := if higherHalf ≤ a then a - higherHalf else a

/-- The loop of `_stub64` over the pointers of the modules. -/
def relocateModules : ℕ → ByteMemory → ℕ → Except Fault ByteMemory
  | 0, _, _ => .error .outOfFuel
  | fuel + 1, mem, rsi =>
    let rax := mem.load (physical rsi) 8
    if rax = 0 then .ok mem else
    let rax := wrap64 (rax + higherHalf)
    relocateModules fuel (mem.store (physical rsi) 8 rax) rax

/-- The pointers in `_bootinfo` become pointers of the higher half. -/
def relocate (sym : BootSymbols) (fuel : ℕ) (mem : ByteMemory) : Except Fault ByteMemory :=
  let mem := mem.store sym.bootinfo 8 (wrap64 (mem.load sym.bootinfo 8 + higherHalf))
  let mem := mem.store (sym.bootinfo + 24) 8 (wrap64 (mem.load (sym.bootinfo + 24) 8 + higherHalf))
  relocateModules fuel mem (sym.bootinfo + 8)

/-- `init_bootinfo`, and the relocation in `_stub64`. -/
def bootInfo (sym : BootSymbols) (fuel : ℕ) (mem : ByteMemory) (ebx : ℕ) :
    Except Fault ByteMemory := do
  let (mem, _) ← initBootinfo sym fuel mem ebx
  relocate sym fuel mem

/-! ## Tags -/

/-- A module. -/
structure BootModule where
  start : ℕ
  stop : ℕ
  cmdline : List (BitVec 8)

/-- An entry of a memory map. -/
structure MemMapEntry where
  addr : ℕ
  len : ℕ
  type : ℕ

/-- A tag of an information block.  Of those that the kernel has no use for there are only the
type and the number of bytes behind it and the size. -/
inductive Tag where
  | cmdline (string : List (BitVec 8))
  | module (m : BootModule)
  | memMap (entries : List MemMapEntry)
  | other (type payload : ℕ)

/-- The characters of a string, and the NUL byte behind them. -/
def IsString (mem : ByteMemory) (a : ℕ) (s : List (BitVec 8)) : Prop :=
  0 ∉ s ∧ ∀ i ≤ s.length, mem (a + i) = s.getD i 0

/-- The entries of a memory map, as the loader leaves them. -/
def EntriesAt (mem : ByteMemory) : ℕ → List MemMapEntry → Prop
  | _, [] => True
  | a, e :: es => mem.load a 8 = e.addr ∧ mem.load (a + 8) 8 = e.len ∧
      mem.load (a + 16) 4 = e.type ∧ EntriesAt mem (a + 24) es

namespace Tag

/-- The number of the type. -/
def type : Tag → ℕ
  | cmdline _ => 1
  | module _ => 3
  | memMap _ => 6
  | other type _ => type

/-- The size without the first two fields. -/
def payload : Tag → ℕ
  | cmdline s => s.length + 1
  | module m => 8 + (m.cmdline.length + 1)
  | memMap es => 8 + 24 * es.length
  | other _ payload => payload

/-- The distance to the next tag. -/
def padded (t : Tag) : ℕ := (8 + t.payload + 7) / 8 * 8

/-- What is behind the first two fields.  Command lines are not empty; a descriptor of ACPI is
not empty either, and not larger than the place for it. -/
def PayloadAt (mem : ByteMemory) (a : ℕ) : Tag → Prop
  | cmdline s => s ≠ [] ∧ IsString mem a s
  | module m => mem.load a 4 = m.start ∧ mem.load (a + 4) 4 = m.stop ∧
      m.cmdline ≠ [] ∧ IsString mem (a + 8) m.cmdline
  | memMap es => mem.load a 4 = 24 ∧ es ≠ [] ∧ EntriesAt mem (a + 8) es
  | other type payload => type ∉ [0, 1, 3, 6] ∧
      (type = 14 ∨ type = 15 → 0 < payload ∧ payload ≤ 40)

end Tag

/-- Tags, one behind the other, and the end tag. -/
def TagsAt (mem : ByteMemory) : ℕ → List Tag → Prop
  | a, [] => mem.load a 4 = 0 ∧ mem.load (a + 4) 4 = 8
  | a, t :: ts => mem.load a 4 = t.type ∧ mem.load (a + 4) 4 = 8 + t.payload ∧
      t.PayloadAt mem (a + 8) ∧ TagsAt mem (a + t.padded) ts

/-- The size of a block with these tags. -/
def blockSize (tags : List Tag) : ℕ := 8 + (tags.map Tag.padded).sum + 8

/-- An information block. -/
structure IsBlock (mem : ByteMemory) (start : ℕ) (tags : List Tag) : Prop where
  aligned : start % 8 = 0
  size : mem.load start 4 = blockSize tags
  tags : TagsAt mem (start + 8) tags

/-! ## Copies -/

variable {mem mem' : ByteMemory} {a b n edx ebx : ℕ} {s : List (BitVec 8)}

/-- Nothing is lost of a sum that fits in a register. -/
theorem add32_of_lt (h : a + b < 2 ^ 32) : add32 a b = a + b := Nat.mod_eq_of_lt h

/-- A byte is copied. -/
theorem copy_byte (mem : ByteMemory) (a b : ℕ) :
    (mem.store b 1 (mem.load a 1)) = Function.update mem b (mem a) := by
  funext c
  rw [Function.update_apply]
  split
  next heq =>
    rw [heq, ByteMemory.store_of_mem (Nat.le_refl b) (Nat.lt_succ_self b), Nat.sub_self,
      Nat.pow_zero, Nat.div_one, ByteMemory.load, ByteMemory.load, Nat.mul_zero, Nat.add_zero]
    exact (BitVec.ofNat_toNat 8 _).trans (BitVec.setWidth_eq _)
  next hne => exact ByteMemory.store_of_not_mem (by omega)

/-- **Bytes are copied** from `edx` to `ebx`. -/
theorem copyLoop_eq (n : ℕ) (mem : ByteMemory) (hedx : edx + n < 2 ^ 32) (hebx : ebx + n < 2 ^ 32)
    (happart : edx + n ≤ ebx ∨ ebx + n ≤ edx) :
    (copyLoop n mem edx ebx).2 = ebx + n ∧ ∀ b, (copyLoop n mem edx ebx).1 b =
      if ebx ≤ b ∧ b < ebx + n then mem (edx + (b - ebx)) else mem b := by
  induction n generalizing mem edx ebx with
  | zero =>
    refine ⟨rfl, fun b => ?_⟩
    rw [if_neg (by omega)]
    rfl
  | succ n ih =>
    rw [copyLoop, add32_of_lt (by omega), add32_of_lt (by omega), copy_byte]
    obtain ⟨hend, hbytes⟩ := ih (Function.update mem ebx (mem edx))
      (show edx + 1 + n < 2 ^ 32 by omega) (show ebx + 1 + n < 2 ^ 32 by omega) (by omega)
    refine ⟨by rw [hend]; omega, fun b => ?_⟩
    rw [hbytes, Function.update_apply, Function.update_apply]
    rcases Nat.lt_trichotomy b ebx with hlt | rfl | hgt
    · rw [if_neg (by omega), if_neg (by omega), if_neg (by omega)]
    · rw [if_neg (by omega), if_pos rfl, if_pos (by omega), Nat.sub_self, Nat.add_zero]
    · by_cases hin : b < ebx + 1 + n
      · have hplace : edx + 1 + (b - (ebx + 1)) = edx + (b - ebx) := by omega
        rw [if_pos (by omega), if_neg (by omega), if_pos (by omega), hplace]
      · rw [if_neg (by omega), if_neg (by omega), if_neg (by omega)]

/-- The entries of a memory map, in the segments of the kernel. -/
def SegmentsAt (mem : ByteMemory) : ℕ → List MemMapEntry → Prop
  | _, [] => True
  | a, e :: es => mem.load a 4 = (if e.type = 1 then 1 else 0) ∧ mem.load (a + 8) 8 = e.addr ∧
      mem.load (a + 16) 8 = e.len ∧ SegmentsAt mem (a + 24) es

/-- Entries are read from their bytes. -/
theorem EntriesAt.congr {es : List MemMapEntry} (h : EntriesAt mem a es)
    (heq : ∀ b, a ≤ b → b < a + 24 * es.length → mem' b = mem b) : EntriesAt mem' a es := by
  induction es generalizing a with
  | nil => trivial
  | cons e es ih =>
    rw [List.length_cons] at heq
    obtain ⟨haddr, hlen, htype, hrest⟩ := h
    refine ⟨?_, ?_, ?_, ih hrest fun b hle hlt => heq b (by omega) (by omega)⟩
    · rw [ByteMemory.load_congr fun b hle hlt => heq b (by omega) (by omega), haddr]
    · rw [ByteMemory.load_congr fun b hle hlt => heq b (by omega) (by omega), hlen]
    · rw [ByteMemory.load_congr fun b hle hlt => heq b (by omega) (by omega), htype]

/-- So are segments. -/
theorem SegmentsAt.congr {es : List MemMapEntry} (h : SegmentsAt mem a es)
    (heq : ∀ b, a ≤ b → b < a + 24 * es.length → mem' b = mem b) : SegmentsAt mem' a es := by
  induction es generalizing a with
  | nil => trivial
  | cons e es ih =>
    rw [List.length_cons] at heq
    obtain ⟨htype, haddr, hlen, hrest⟩ := h
    refine ⟨?_, ?_, ?_, ih hrest fun b hle hlt => heq b (by omega) (by omega)⟩
    · rw [ByteMemory.load_congr fun b hle hlt => heq b (by omega) (by omega), htype]
    · rw [ByteMemory.load_congr fun b hle hlt => heq b (by omega) (by omega), haddr]
    · rw [ByteMemory.load_congr fun b hle hlt => heq b (by omega) (by omega), hlen]

/-- Two double words make a number. -/
theorem load_eight (mem : ByteMemory) (a : ℕ) :
    mem.load a 8 = mem.load a 4 + 2 ^ 32 * mem.load (a + 4) 4 := ByteMemory.load_add mem a 4 4

/-- A round of the loop over the memory map. -/
def memMapRound (mem : ByteMemory) (edx ebx : ℕ) : ByteMemory :=
  let mem := mem.store ebx 4 (if mem.load (edx + 16) 4 = 1 then 1 else 0)
  let mem := mem.store (ebx + 4) 4 0
  let mem := mem.store (ebx + 8) 4 (mem.load edx 4)
  let mem := mem.store (ebx + 12) 4 (mem.load (edx + 4) 4)
  let mem := mem.store (ebx + 16) 4 (mem.load (edx + 8) 4)
  mem.store (ebx + 20) 4 (mem.load (edx + 12) 4)

theorem memMapLoop_succ (hedx : edx + 24 < 2 ^ 32) (hebx : ebx + 24 < 2 ^ 32) :
    memMapLoop (n + 1) mem edx ebx =
      memMapLoop n (memMapRound mem edx ebx) (edx + 24) (ebx + 24) := by
  simp (disch := omega) only [memMapLoop, copyWord, add32_of_lt, Nat.add_assoc, Nat.reduceAdd,
    memMapRound]

/-- A number that was loaded and stored is loaded again. -/
theorem load_store_load (mem mem' : ByteMemory) (a b n : ℕ) :
    (mem.store a n (mem'.load b n)).load a n = mem'.load b n :=
  ByteMemory.load_store (ByteMemory.load_lt mem' b n)

variable (mem edx ebx) in
/-- A round leaves a segment, and the bytes before and behind it. -/
theorem memMapRound_eq (happart : edx + 24 ≤ ebx ∨ ebx + 24 ≤ edx) :
    (memMapRound mem edx ebx).load ebx 4 = (if mem.load (edx + 16) 4 = 1 then 1 else 0) ∧
      (memMapRound mem edx ebx).load (ebx + 8) 8 = mem.load edx 8 ∧
      (memMapRound mem edx ebx).load (ebx + 16) 8 = mem.load (edx + 8) 8 ∧
      ∀ b, b < ebx ∨ ebx + 24 ≤ b → memMapRound mem edx ebx b = mem b := by
  have hone : (if mem.load (edx + 16) 4 = 1 then 1 else 0) < 256 ^ 4 := by
    split <;> decide
  refine ⟨?_, ?_, ?_, fun b hb => ?_⟩
  · simp (disch := omega) only [memMapRound, ByteMemory.load_store_of_disjoint]
    exact ByteMemory.load_store hone
  · simp (disch := omega) only [memMapRound, load_eight, ByteMemory.load_store_of_disjoint,
      load_store_load, Nat.add_assoc, Nat.reduceAdd]
  · simp (disch := omega) only [memMapRound, load_eight, ByteMemory.load_store_of_disjoint,
      load_store_load, Nat.add_assoc, Nat.reduceAdd]
  · simp (disch := omega) only [memMapRound, ByteMemory.store_of_not_mem]

/-- **The memory map is copied**, entry by entry. -/
theorem memMapLoop_eq {es : List MemMapEntry} (hes : EntriesAt mem edx es)
    (hedx : edx + 24 * es.length < 2 ^ 32) (hebx : ebx + 24 * es.length < 2 ^ 32)
    (happart : edx + 24 * es.length ≤ ebx ∨ ebx + 24 * es.length ≤ edx) :
    (memMapLoop es.length mem edx ebx).2 = ebx + 24 * es.length ∧
      SegmentsAt (memMapLoop es.length mem edx ebx).1 ebx es ∧
      ∀ b, b < ebx ∨ ebx + 24 * es.length ≤ b →
        (memMapLoop es.length mem edx ebx).1 b = mem b := by
  induction es generalizing mem edx ebx with
  | nil => exact ⟨rfl, trivial, fun _ _ => rfl⟩
  | cons e es ih =>
    rw [List.length_cons] at hedx hebx happart ⊢
    obtain ⟨haddr, hlen, htype, hrest⟩ := hes
    obtain ⟨htype', haddr', hlen', hsame⟩ := memMapRound_eq mem edx ebx (by omega)
    have hrest' : EntriesAt (memMapRound mem edx ebx) (edx + 24) es :=
      hrest.congr fun b hle hlt => hsame b (by omega)
    obtain ⟨hend, hseg, hframe⟩ := ih hrest' (by omega) (show ebx + 24 + _ < _ by omega) (by omega)
    rw [memMapLoop_succ (by omega) (by omega)]
    refine ⟨by rw [hend]; omega, ⟨?_, ?_, ?_, hseg⟩, fun b hb => ?_⟩
    · rw [ByteMemory.load_congr fun b hle hlt => hframe b (by omega), htype', htype]
    · rw [ByteMemory.load_congr fun b hle hlt => hframe b (by omega), haddr', haddr]
    · rw [ByteMemory.load_congr fun b hle hlt => hframe b (by omega), hlen', hlen]
    · rw [hframe b (by omega), hsame b (by omega)]

/-! ## What a tag leaves -/

variable {sym : BootSymbols} {es : List MemMapEntry} {m : BootModule}

/-- A string is read from its bytes. -/
theorem IsString.congr (h : IsString mem a s)
    (heq : ∀ i ≤ s.length, mem' (b + i) = mem (a + i)) : IsString mem' b s := by
  refine ⟨h.1, ?_⟩
  intro i hi
  rw [heq i hi, h.2 i hi]

/-- `%ecx` holds the number of bytes behind the first two fields. -/
theorem sub32_eight (h : n < 2 ^ 32) : sub32 (8 + n) 8 = n := by
  unfold sub32
  omega

/-- A loop that is to make some rounds makes as many. -/
theorem loopRounds_of_pos (h : 0 < n) : loopRounds n = n := if_neg (by omega)

variable (ebx sym) in
/-- **A command line** is copied, and `_bootinfo_cmdline` points to the copy. -/
theorem handleCmdline_spec (hs : IsString mem edx s) (hedx : edx + (s.length + 1) < 2 ^ 32)
    (hebx : ebx + (s.length + 1) < 2 ^ 32)
    (happart : edx + (s.length + 1) ≤ ebx ∨ ebx + (s.length + 1) ≤ edx)
    (hsrc : sym.bootinfo + 4 ≤ edx ∨ edx + (s.length + 1) ≤ sym.bootinfo)
    (hdst : sym.bootinfo + 4 ≤ ebx ∨ ebx + (s.length + 1) ≤ sym.bootinfo) :
    ∃ mem', handleCmdline sym mem ebx edx (s.length + 1) = (mem', ebx + (s.length + 1)) ∧
      mem'.load sym.bootinfo 4 = ebx ∧ IsString mem' ebx s ∧
      ∀ x, (x < sym.bootinfo ∨ sym.bootinfo + 4 ≤ x) → (x < ebx ∨ ebx + (s.length + 1) ≤ x) →
        mem' x = mem x := by
  obtain ⟨hend, hbytes⟩ :=
    copyLoop_eq (s.length + 1) (mem.store sym.bootinfo 4 ebx) hedx hebx happart
  refine ⟨(copyLoop (s.length + 1) (mem.store sym.bootinfo 4 ebx) edx ebx).1, ?_, ?_, ?_, ?_⟩
  · unfold handleCmdline
    simp only [loopRounds_of_pos (Nat.succ_pos _)]
    rw [← hend]
  · have hsame : ∀ x, sym.bootinfo ≤ x → x < sym.bootinfo + 4 →
        (copyLoop (s.length + 1) (mem.store sym.bootinfo 4 ebx) edx ebx).1 x =
          mem.store sym.bootinfo 4 ebx x := by
      intro x hle hlt
      rw [hbytes, if_neg (by omega)]
    rw [ByteMemory.load_congr hsame, ByteMemory.load_store (by omega)]
  · refine hs.congr ?_
    intro i hi
    rw [hbytes, if_pos (by omega), Nat.add_sub_cancel_left,
      ByteMemory.store_of_not_mem (by omega)]
  · intro x hx hx'
    rw [hbytes, if_neg (by omega), ByteMemory.store_of_not_mem (by omega)]

variable (ebx sym) in
/-- **A memory map** is copied, and `_bootinfo_mem_map_segments` points to the copy. -/
theorem handleMemMap_spec (hsize : mem.load edx 4 = 24) (hne : es ≠ [])
    (hes : EntriesAt mem (edx + 8) es) (hedx : edx + (8 + 24 * es.length) < 2 ^ 32)
    (hebx : ebx + 24 * es.length < 2 ^ 32)
    (happart : edx + (8 + 24 * es.length) ≤ ebx ∨ ebx + 24 * es.length ≤ edx)
    (hsrc : sym.bootinfo + 28 ≤ edx ∨ edx + (8 + 24 * es.length) ≤ sym.bootinfo)
    (hdst : sym.bootinfo + 28 ≤ ebx ∨ ebx + 24 * es.length ≤ sym.bootinfo) :
    ∃ mem', handleMemMap sym mem ebx edx (8 + 24 * es.length) =
        .ok (mem', ebx + 24 * es.length) ∧
      mem'.load (sym.bootinfo + 16) 4 = es.length ∧ mem'.load (sym.bootinfo + 24) 4 = ebx ∧
      SegmentsAt mem' ebx es ∧
      ∀ x, (x < sym.bootinfo + 16 ∨ sym.bootinfo + 20 ≤ x) →
        (x < sym.bootinfo + 24 ∨ sym.bootinfo + 28 ≤ x) → (x < ebx ∨ ebx + 24 * es.length ≤ x) →
        mem' x = mem x := by
  have hcount : (8 + 24 * es.length) / 24 = es.length := by omega
  have hpos : 0 < es.length := List.length_pos_iff.mpr hne
  have hstart : add32 edx 8 = edx + 8 := add32_of_lt (by omega)
  generalize hmem : (mem.store (sym.bootinfo + 16) 4 es.length).store (sym.bootinfo + 24) 4 ebx =
    mem₁
  have hsame : ∀ x, (x < sym.bootinfo + 16 ∨ sym.bootinfo + 20 ≤ x) →
      (x < sym.bootinfo + 24 ∨ sym.bootinfo + 28 ≤ x) → mem₁ x = mem x := by
    intro x hx hx'
    rw [← hmem, ByteMemory.store_of_not_mem (by omega), ByteMemory.store_of_not_mem (by omega)]
  have hes₁ : EntriesAt mem₁ (edx + 8) es := by
    refine hes.congr ?_
    intro x hle hlt
    exact hsame x (by omega) (by omega)
  obtain ⟨hend, hseg, hframe⟩ :=
    memMapLoop_eq hes₁ (by omega) hebx (by omega)
  refine ⟨(memMapLoop es.length mem₁ (edx + 8) ebx).1, ?_, ?_, ?_, hseg, ?_⟩
  · unfold handleMemMap
    simp only [hsize, hcount, hstart, loopRounds_of_pos hpos, hmem]
    rw [if_neg (by decide), ← hend]
  · rw [ByteMemory.load_congr fun x hle hlt => hframe x (by omega), ← hmem,
      ByteMemory.load_store_of_disjoint (by omega), ByteMemory.load_store (by omega)]
  · rw [ByteMemory.load_congr fun x hle hlt => hframe x (by omega), ← hmem,
      ByteMemory.load_store (by omega)]
  · intro x hx hx' hx''
    rw [hframe x hx'', hsame x hx hx']

/-- **A descriptor of ACPI** is copied into its place in `_bootinfo`. -/
theorem handleAcpi_spec (acpiType : ℕ) (hpos : 0 < n) (hn : n ≤ 40) (hedx : edx + n < 2 ^ 32)
    (hstruct : sym.bootinfo + 80 < 2 ^ 32)
    (hsrc : sym.bootinfo + 80 ≤ edx ∨ edx + n ≤ sym.bootinfo) :
    ∀ x, (x < sym.bootinfo + 32 ∨ sym.bootinfo + 80 ≤ x) →
      handleAcpi sym mem acpiType edx n x = mem x := by
  intro x hx
  obtain ⟨-, hbytes⟩ := copyLoop_eq n (mem.store (sym.bootinfo + 32) 4 acpiType) hedx
    (show sym.bootinfo + 40 + n < 2 ^ 32 by omega) (by omega)
  unfold handleAcpi
  simp only [loopRounds_of_pos hpos]
  rw [hbytes, if_neg (by omega), ByteMemory.store_of_not_mem (by omega)]

variable (ebx sym) in
/-- **A module**: the copy of its command line is put at offset 32, and the four bytes from
offset 24 on are cleared. -/
theorem handleModule_spec {fuel : ℕ} {r : ByteMemory × ℕ} (hn : 0 < n)
    (hedx : edx + (8 + n) < 2 ^ 32) (hebx : ebx + (32 + n) < 2 ^ 32)
    (happart : edx + (8 + n) ≤ ebx ∨ ebx + (32 + n) ≤ edx)
    (hrun : handleModule sym fuel mem ebx edx (8 + n) = .ok r) :
    r.2 = ebx + (32 + n) ∧ r.1.load ebx 8 = 0 ∧ r.1 (ebx + 24) = 0 ∧
      ∃ mem₁, linkModule sym fuel mem ebx = .ok mem₁ ∧
        ∀ x, (x < ebx ∨ ebx + (32 + n) ≤ x) → r.1 x = mem₁ x := by
  unfold handleModule at hrun
  obtain ⟨mem₁, hlink, hrest⟩ := Except.bind_eq_ok_iff.mp hrun
  have hsub : sub32 (8 + n) 8 = n := sub32_eight (by omega)
  simp (disch := omega) only [hsub, add32_of_lt] at hrest
  rw [if_neg (by omega), loopRounds_of_pos hn] at hrest
  generalize hmem : (((((((mem₁.store ebx 4 0).store (ebx + 4) 4 0).store (ebx + 8) 4 _).store
    (ebx + 12) 4 0).store (ebx + 16) 4 _).store (ebx + 20) 4 0).store (ebx + 24) 4 0) = mem₂
    at hrest
  obtain ⟨hend, hbytes⟩ := copyLoop_eq n mem₂ (show edx + 8 + n < 2 ^ 32 by omega)
    (show ebx + 32 + n < 2 ^ 32 by omega) (by omega)
  cases hrest
  refine ⟨by rw [hend]; omega, ?_, ?_, mem₁, hlink, ?_⟩
  · rw [ByteMemory.load_congr fun x hle hlt => (hbytes x).trans (if_neg (by omega)), ← hmem,
      load_eight]
    simp (disch := omega) only [ByteMemory.load_store_of_disjoint]
    rw [ByteMemory.load_store (by decide), ByteMemory.load_store (by decide), Nat.mul_zero]
  · rw [hbytes, if_neg (by omega), ← hmem, ByteMemory.store_of_mem (by omega) (by omega),
      Nat.zero_div]
    rfl
  · intro x hx
    rw [hbytes, if_neg (by omega), ← hmem]
    simp (disch := omega) only [ByteMemory.store_of_not_mem]

end Mimik.Boot
