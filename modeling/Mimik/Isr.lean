/-
# Interrupt gates and their handlers (`cpu/isr.c`)

`isr_init` writes one descriptor for each of the 48 stubs of `cpu/isr.S` into the table `idt`
and loads it.  The fields of a descriptor are those of `struct idt_entry`: the parts of the
stub's address, a selector and a byte of bit fields.  What the processor reads in the table is
the gate of the stub, for any address (`isrInit_gate`), and nothing else can be taken.

`isr_register` and `isr_common` are about the handlers of vectors: an array of function
pointers.  The functions themselves are a parameter.
-/
import Mimik.X86
import Mimik.PicAck
import Mimik.Pit

namespace Mimik.Isr

open X86

/-! ## Descriptors -/

/-- `enum gate_type`. -/
inductive GateType where
  /-- `GATE_INTERRUPT` -/
  | interrupt
  /-- `GATE_TRAP` -/
  | trap
  deriving DecidableEq, Repr

/-- The value of a `gate_type`. -/
def GateType.value : GateType → BitVec 8
  | .interrupt => 0xe
  | .trap => 0xf

/-- `KERNEL_CS`: the descriptor behind the null one. -/
def kernelCs : BitVec 64 := 8

/-- `PL(p)`. -/
def pl (p : BitVec 8) : BitVec 8 := p &&& 0b11

/-- A byte with `v` in the bit field of `width` bits from the bit `start` on. -/
def setField (b : BitVec 8) (start width : ℕ) (v : BitVec 8) : BitVec 8 :=
  let mask := (1#8 <<< width - 1) <<< start
  b &&& ~~~mask ||| v <<< start &&& mask

/-- A store to a bit field of the byte at `a`. -/
def storeField (mem : ByteMemory) (a start width : ℕ) (v : BitVec 8) : ByteMemory :=
  Function.update mem a (setField (mem a) start width v)

/-- `set_idt_entry`. -/
def setIdtEntry (entry : ℕ) (address : BitVec 64) (type : GateType) (mem : ByteMemory) :
    ByteMemory :=
  let mem := mem.store (entry + 0) 2 (address >>> 0 &&& 0xffff).toNat
  let mem := mem.store (entry + 6) 2 (address >>> 16 &&& 0xffff).toNat
  let mem := mem.store (entry + 8) 4 ((address >>> 32).setWidth 32 &&& 0xffffffff#32).toNat
  let mem := mem.store (entry + 2) 2 (kernelCs.setWidth 16).toNat
  let mem := storeField mem (entry + 4) 0 2 0
  let mem := storeField mem (entry + 5) 0 4 (type.value &&& 0xf)
  let mem := storeField mem (entry + 5) 4 1 0
  let mem := storeField mem (entry + 5) 7 1 1
  storeField mem (entry + 5) 5 2 (pl 0)

/-- `MAX_IDT_ENTRIES`. -/
def maxIdtEntries : ℕ := 256

/-- `sizeof(struct idt_entry)`. -/
def sizeofIdtEntry : ℕ := 16

/-- `TRAP(n)` or `INTERRUPT(n)` for each stub, in their order. -/
def gateTypes : List (ℕ × GateType) :=
  [(0, .trap), (1, .trap), (2, .interrupt), (3, .trap), (4, .trap), (5, .trap), (6, .trap),
    (7, .trap), (8, .trap), (9, .trap), (10, .trap), (11, .trap), (12, .trap), (13, .trap),
    (14, .trap), (15, .trap), (16, .trap), (17, .trap), (18, .trap), (19, .trap), (20, .trap),
    (21, .trap), (22, .trap), (23, .trap), (24, .trap), (25, .trap), (26, .trap), (27, .trap),
    (28, .trap), (29, .trap), (30, .trap), (31, .trap), (32, .interrupt), (33, .interrupt),
    (34, .interrupt), (35, .interrupt), (36, .interrupt), (37, .interrupt), (38, .interrupt),
    (39, .interrupt), (40, .interrupt), (41, .interrupt), (42, .interrupt), (43, .interrupt),
    (44, .interrupt), (45, .interrupt), (46, .interrupt), (47, .interrupt)]

/-- `idtr`. -/
def idtr (idt : ℕ) : Idtr where
  limit := maxIdtEntries * sizeofIdtEntry - 1
  base := idt

/-- Entries of the table at `idt` are written; `isr n` is the address of the stub `n`. -/
def writeGates (idt : ℕ) (isr : ℕ → BitVec 64) (gates : List (ℕ × GateType)) (mem : ByteMemory) :
    ByteMemory :=
  gates.foldl
    (fun mem gate => setIdtEntry (idt + sizeofIdtEntry * gate.1) (isr gate.1) gate.2 mem) mem

/-- The writes of `isr_init` to the table. -/
def isrInit (idt : ℕ) (isr : ℕ → BitVec 64) (mem : ByteMemory) : ByteMemory :=
  writeGates idt isr gateTypes mem

/-! ## What the processor reads -/

section Gates

variable {mem : ByteMemory} {a b entry n start width : ℕ} {address v : BitVec 64} {type : GateType}

/-- The gate of a stub. -/
def gateOf (address : BitVec 64) (type : GateType) : Gate where
  offset := address
  selector := 8
  ist := 0
  kind := type.value.setWidth 4
  dpl := 0
  present := true

/-- A bit field is stored to one byte. -/
theorem storeField_of_ne {v : BitVec 8} (h : b ≠ a) :
    storeField mem a start width v b = mem b := by
  simp [storeField, h]

/-- The three parts of an address are the address. -/
theorem parts_of_address (address : BitVec 64) :
    (address >>> 0 &&& 0xffff).toNat + 2 ^ 16 * (address >>> 16 &&& 0xffff).toNat +
      2 ^ 32 * ((address >>> 32).setWidth 32 &&& 0xffffffff#32).toNat = address.toNat := by
  have hlt := address.isLt
  have hlow : ∀ k, (address >>> k &&& 0xffff).toNat = address.toNat / 2 ^ k % 2 ^ 16 := by
    intro k
    rw [BitVec.toNat_and, BitVec.toNat_ushiftRight, Nat.shiftRight_eq_div_pow]
    exact Nat.and_two_pow_sub_one_eq_mod _ 16
  have hhigh : ((address >>> 32).setWidth 32 &&& 0xffffffff#32).toNat = address.toNat / 2 ^ 32 := by
    rw [BitVec.toNat_and, BitVec.toNat_setWidth, BitVec.toNat_ushiftRight,
      Nat.shiftRight_eq_div_pow]
    have hmask := Nat.and_two_pow_sub_one_eq_mod (address.toNat / 2 ^ 32 % 2 ^ 32) 32
    rw [Nat.mod_mod] at hmask
    refine hmask.trans (Nat.mod_eq_of_lt ?_)
    omega
  rw [hlow, hlow, hhigh]
  omega

theorem load_storeField {k : ℕ} {v : BitVec 8} (h : a < b ∨ b + k ≤ a) :
    (storeField mem a start width v).load b k = mem.load b k :=
  ByteMemory.load_congr fun _ hle hlt => storeField_of_ne (by omega)

/-- The byte of the bit fields, whatever was there before. -/
theorem type_byte (b : BitVec 8) (type : GateType) :
    setField (setField (setField (setField b 0 4 (type.value &&& 0xf)) 4 1 0) 7 1 1) 5 2 (pl 0) =
      type.value ||| 0x80 := by
  cases type <;> revert b <;> decide

/-- The byte with the field `ist`, of which the processor reads one bit more. -/
theorem ist_byte {b : BitVec 8} (hreserved : b.getLsbD 2 = false) :
    (setField b 0 2 0).extractLsb' 0 3 = 0 := by
  revert b
  decide

/-- What `set_idt_entry` stores, and what it keeps. -/
theorem setIdtEntry_spec (mem : ByteMemory) (entry : ℕ) (address : BitVec 64) (type : GateType) :
    let mem' := setIdtEntry entry address type mem
    mem'.load entry 2 = (address >>> 0 &&& 0xffff).toNat ∧
      mem'.load (entry + 2) 2 = 8 ∧
      mem' (entry + 4) = setField (mem (entry + 4)) 0 2 0 ∧
      mem' (entry + 5) = type.value ||| 0x80 ∧
      mem'.load (entry + 6) 2 = (address >>> 16 &&& 0xffff).toNat ∧
      mem'.load (entry + 8) 4 = ((address >>> 32).setWidth 32 &&& 0xffffffff#32).toNat ∧
      ∀ b, b < entry ∨ entry + 12 ≤ b → mem' b = mem b := by
  have hword : ∀ k : ℕ, (address >>> k &&& 0xffff#64).toNat < 256 ^ 2 := by
    intro k
    rw [BitVec.toNat_and]
    exact Nat.lt_of_le_of_lt Nat.and_le_right (by decide)
  simp only [setIdtEntry]
  refine ⟨?_, ?_, ?_, ?_, ?_, ?_, fun b hb => ?_⟩
  · simp (disch := omega) only [load_storeField, ByteMemory.load_store_of_disjoint]
    exact ByteMemory.load_store (hword 0)
  · simp (disch := omega) only [load_storeField]
    exact ByteMemory.load_store (by decide)
  · simp (disch := omega) only [storeField_of_ne]
    simp (disch := omega) only [storeField, Function.update_self, ByteMemory.store_of_not_mem]
  · rw [← type_byte (mem (entry + 5)) type]
    simp (disch := omega) only [storeField, Function.update_self, Function.update_of_ne,
      ByteMemory.store_of_not_mem]
  · simp (disch := omega) only [load_storeField, ByteMemory.load_store_of_disjoint]
    exact ByteMemory.load_store (hword 16)
  · simp (disch := omega) only [load_storeField, ByteMemory.load_store_of_disjoint]
    exact ByteMemory.load_store (BitVec.isLt _)
  · simp (disch := omega) only [storeField_of_ne, ByteMemory.store_of_not_mem]

/-- **A descriptor is read as the gate** whose fields were written; the reserved bit next to `ist`
is one that the processor reads. -/
theorem read_setIdtEntry (hreserved : (mem (entry + 4)).getLsbD 2 = false) :
    Gate.read (setIdtEntry entry address type mem) entry = gateOf address type := by
  obtain ⟨hlow, hselector, hist, htype, hmid, hhigh, -⟩ := setIdtEntry_spec mem entry address type
  have hoffset := parts_of_address address
  rw [← hlow, ← hmid, ← hhigh] at hoffset
  unfold Gate.read gateOf
  rw [hoffset, hselector, hist, htype, ist_byte hreserved, BitVec.ofNat_toNat, BitVec.setWidth_eq]
  cases type <;> rfl

/-- A gate depends on its bytes. -/
theorem read_congr {mem' : ByteMemory} (h : ∀ b, a ≤ b → b < a + 12 → mem' b = mem b) :
    Gate.read mem' a = Gate.read mem a := by
  have hload : ∀ d k, d + k ≤ 12 → mem'.load (a + d) k = mem.load (a + d) k := fun d k hle =>
    ByteMemory.load_congr fun b hb hlt => h b (by omega) (by omega)
  have hlow := hload 0 2 (by decide)
  rw [Nat.add_zero] at hlow
  unfold Gate.read
  rw [hlow, hload 2 2 (by decide), hload 6 2 (by decide), hload 8 4 (by decide),
    h (a + 4) (by omega) (by omega), h (a + 5) (by omega) (by omega)]

/-! ## The table -/

variable {idt : ℕ} {isr : ℕ → BitVec 64} {gates : List (ℕ × GateType)}

/-- Entries that are not written keep their bytes. -/
theorem writeGates_of_not_mem
    (h : ∀ gate ∈ gates, b < idt + 16 * gate.1 ∨ idt + 16 * gate.1 + 12 ≤ b) :
    writeGates idt isr gates mem b = mem b := by
  induction gates generalizing mem with
  | nil => rfl
  | cons gate gates ih =>
    obtain ⟨-, -, -, -, -, -, hkept⟩ :=
      setIdtEntry_spec mem (idt + sizeofIdtEntry * gate.1) (isr gate.1) gate.2
    have hfirst := hkept b (h gate List.mem_cons_self)
    exact (ih fun gate' hmem => h gate' (List.mem_cons_of_mem gate hmem)).trans hfirst

/-- **Each entry** that is written is the gate of its stub. -/
theorem read_writeGates (hnodup : (gates.map Prod.fst).Nodup) (hmem : (n, type) ∈ gates)
    (hreserved : (mem (idt + 16 * n + 4)).getLsbD 2 = false) :
    Gate.read (writeGates idt isr gates mem) (idt + 16 * n) = gateOf (isr n) type := by
  induction gates generalizing mem with
  | nil => exact absurd hmem List.not_mem_nil
  | cons gate gates ih =>
    rw [List.map_cons, List.nodup_cons] at hnodup
    have hne : ∀ gate' ∈ gates, gate'.1 ≠ gate.1 := fun gate' hin heq =>
      hnodup.1 (heq ▸ List.mem_map_of_mem hin)
    rcases List.mem_cons.mp hmem with rfl | hin
    · obtain ⟨mem', hmem'⟩ : ∃ mem', mem' = setIdtEntry (idt + 16 * n) (isr n) type mem := ⟨_, rfl⟩
      have hrest : Gate.read (writeGates idt isr gates mem') (idt + 16 * n) =
          Gate.read mem' (idt + 16 * n) := by
        refine read_congr fun b hle hlt => writeGates_of_not_mem fun gate' hin => ?_
        have hother := hne gate' hin
        simp only at hother
        omega
      rw [hmem'] at hrest
      exact hrest.trans (read_setIdtEntry hreserved)
    · have hother := hne (n, type) hin
      obtain ⟨-, -, -, -, -, -, hkept⟩ :=
        setIdtEntry_spec mem (idt + sizeofIdtEntry * gate.1) (isr gate.1) gate.2
      have hstep := hkept (idt + 16 * n + 4) (by unfold sizeofIdtEntry; simp only at hother; omega)
      exact ih hnodup.2 hin ((congrArg (·.getLsbD 2) hstep).trans hreserved)

/-- The kind of the gate of a stub. -/
def typeOf (n : ℕ) : GateType := if n = 2 ∨ 32 ≤ n then .interrupt else .trap

/-- The table has a gate for each stub, and no other. -/
def IdtReady (idt : ℕ) (isr : ℕ → BitVec 64) (mem : ByteMemory) : Prop :=
  ∀ n < maxIdtEntries,
    if n < 48 then Gate.read mem (idt + 16 * n) = gateOf (isr n) (typeOf n)
    else (Gate.read mem (idt + 16 * n)).present = false

/-- **`isr_init`** makes the table ready. -/
theorem isrInit_ready
    (hzero : ∀ b, idt ≤ b → b < idt + maxIdtEntries * sizeofIdtEntry → mem b = 0) :
    IdtReady idt isr (isrInit idt isr mem) := by
  intro n hn
  unfold maxIdtEntries sizeofIdtEntry at *
  have hkeys : gateTypes.map Prod.fst = List.range 48 := by decide
  split
  next hlt =>
    have hmem : ∀ n < 48, (n, typeOf n) ∈ gateTypes := by decide
    refine read_writeGates ?_ (hmem n hlt) ?_
    · rw [hkeys]
      exact List.nodup_range
    · rw [hzero _ (by omega) (by omega)]
      rfl
  next hge =>
    have hkept : isrInit idt isr mem (idt + 16 * n + 5) = 0 := by
      rw [← hzero (idt + 16 * n + 5) (by omega) (by omega)]
      refine writeGates_of_not_mem fun gate hmem => ?_
      have hkey : gate.1 ∈ List.range 48 := hkeys ▸ List.mem_map_of_mem hmem
      rw [List.mem_range] at hkey
      omega
    unfold Gate.read
    rw [hkept]
    rfl

/-- A table that is ready stays so while its bytes are kept. -/
theorem IdtReady.congr {mem' : ByteMemory} (hready : IdtReady idt isr mem)
    (h : ∀ b, idt ≤ b → b < idt + maxIdtEntries * sizeofIdtEntry → mem' b = mem b) :
    IdtReady idt isr mem' := by
  intro n hn
  unfold maxIdtEntries sizeofIdtEntry at *
  rw [read_congr fun b hle hlt => h b (by omega) (by omega)]
  exact hready n hn

end Gates

/-! ## Handlers -/

/-- `struct isr_frame`. -/
structure IsrFrame where
  r15 : BitVec 64
  r14 : BitVec 64
  r13 : BitVec 64
  r12 : BitVec 64
  r11 : BitVec 64
  r10 : BitVec 64
  r9 : BitVec 64
  r8 : BitVec 64
  rsi : BitVec 64
  rdi : BitVec 64
  rdx : BitVec 64
  rcx : BitVec 64
  rbx : BitVec 64
  rax : BitVec 64
  rbp : BitVec 64
  isrN : BitVec 64
  error : BitVec 64
  deriving DecidableEq

/-- The frame at an address. -/
def IsrFrame.read (mem : ByteMemory) (a : ℕ) : IsrFrame where
  r15 := word mem a
  r14 := word mem (a + 8)
  r13 := word mem (a + 16)
  r12 := word mem (a + 24)
  r11 := word mem (a + 32)
  r10 := word mem (a + 40)
  r9 := word mem (a + 48)
  r8 := word mem (a + 56)
  rsi := word mem (a + 64)
  rdi := word mem (a + 72)
  rdx := word mem (a + 80)
  rcx := word mem (a + 88)
  rbx := word mem (a + 96)
  rax := word mem (a + 104)
  rbp := word mem (a + 112)
  isrN := word mem (a + 120)
  error := word mem (a + 128)

/-- `sizeof(struct isr_frame)`. -/
def sizeofIsrFrame : ℕ := 136

/-- What the handlers of interrupts work on: `isrs`, `use_new_pic`, the controllers and the rest of
the kernel.  A pointer to a handler is a value of `H`. -/
structure Irqs (H σ : Type) where
  isrs : ℕ → Option H
  useNewPic : Bool
  chips : Pic.Chips
  rest : σ

section Handlers

variable {H σ : Type} (call : H → IsrFrame → Irqs H σ → Except Fault (IsrFrame × Irqs H σ))

/-- `isr_common`: what is left in the frame, and in the kernel.  The function that `h` points to
gets the frame, which it may write. -/
def isrCommon (frame : IsrFrame) (s : Irqs H σ) : Except Fault (IsrFrame × Irqs H σ) := do
  let n := frame.isrN
  assert (n ≤ 255) "n <= UINT8_MAX"
  match s.isrs n.toNat with
  | none => .error (.assertion "isr && \"unhandled interrupt\"")
  | some isr =>
    let (frame, s) ← call isr frame s
    let chips ← Pic.picAck s.useNewPic (n.setWidth 8) s.chips
    return (frame, { s with chips })

/-- `pit_handler`. -/
def pitHandler (frame : IsrFrame) (s : Irqs H σ) : Except Fault (IsrFrame × Irqs H σ) := do
  assert (frame.isrN == 32) "isr_frame->isr_n == PIT_IRQ"
  return (frame, s)

variable {call} {frame frame' : IsrFrame} {s s' : Irqs H σ}

/-- **A handled interrupt**: the handler that is registered for the vector runs, and then its
vector is acknowledged, whatever the handler has left in the frame. -/
theorem isrCommon_eq_ok_iff :
    isrCommon call frame s = .ok (frame', s') ↔ frame.isrN ≤ 255 ∧ ∃ isr s₁,
      s.isrs frame.isrN.toNat = some isr ∧ call isr frame s = .ok (frame', s₁) ∧
      s₁.useNewPic = false ∧
      s' = { s₁ with chips := Pic.oldPicAck (frame.isrN.setWidth 8) s₁.chips } := by
  unfold isrCommon
  rw [Except.bind_eq_ok_iff]
  constructor
  · rintro ⟨_, hassert, hok⟩
    refine ⟨of_decide_eq_true (assert_eq_ok.mp hassert), ?_⟩
    cases hisr : s.isrs frame.isrN.toNat with
    | none =>
      rw [hisr] at hok
      cases hok
    | some isr =>
      rw [hisr] at hok
      obtain ⟨⟨frame₁, s₁⟩, hcall, hok⟩ := Except.bind_eq_ok_iff.mp hok
      obtain ⟨chips, hack, hok⟩ := Except.bind_eq_ok_iff.mp hok
      cases hok
      unfold Pic.picAck at hack
      cases hnew : s₁.useNewPic with
      | true =>
        rw [hnew, if_pos rfl] at hack
        cases hack
      | false =>
        rw [hnew, if_neg Bool.false_ne_true] at hack
        cases hack
        exact ⟨isr, s₁, rfl, hcall, hnew, by rw [hnew]⟩
  · rintro ⟨hle, isr, s₁, hisr, hcall, hnew, rfl⟩
    refine ⟨(), assert_eq_ok.mpr (decide_eq_true hle), ?_⟩
    rw [hisr]
    refine Except.bind_eq_ok_iff.mpr ⟨(frame', s₁), hcall, ?_⟩
    refine Except.bind_eq_ok_iff.mpr ⟨_, ?_, rfl⟩
    simp only [Pic.picAck, hnew, Bool.false_eq_true, if_false]

end Handlers

end Mimik.Isr
