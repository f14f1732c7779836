/-
# The stack and the interrupts of an x86-64

The part of the architecture that entry stubs rely on: the general registers, a stack that
grows down in a memory of bytes, the instructions that move words to and from it, and what
the processor does between two instructions when it takes an interrupt at privilege level 0.
The instruction pointer is followed where control is transferred.

The rules say what runs of pushes and of pops leave (`pushAll_spec`, `run_pop`), what an
interrupt puts on the stack (`enter_spec`) and what `iretq` takes back from there
(`iretq_of_words`).

Nothing here mentions a particular program.
-/
import Mimik.ByteMemory
import Mathlib.Data.List.Nodup
import Mathlib.Logic.Function.Basic

namespace X86

/-! ## Machines -/

/-- The general registers. -/
inductive Reg where
  | rax | rcx | rdx | rbx | rsp | rbp | rsi | rdi
  | r8 | r9 | r10 | r11 | r12 | r13 | r14 | r15
  deriving DecidableEq, Repr

/-- The state of a processor, with its memory. -/
structure Machine where
  reg : Reg → BitVec 64
  rip : BitVec 64
  cs : BitVec 16
  ss : BitVec 16
  rflags : BitVec 64
  mem : ByteMemory

/-- The address of the top of the stack. -/
def Machine.sp (m : Machine) : ℕ := (m.reg .rsp).toNat

/-- A value is written to a register. -/
def Machine.setReg (m : Machine) (r : Reg) (v : BitVec 64) : Machine :=
  { m with reg := Function.update m.reg r v }

/-- A word is pushed. -/
def Machine.push (v : BitVec 64) (m : Machine) : Machine :=
  let rsp := m.reg .rsp - 8
  { m.setReg .rsp rsp with mem := m.mem.store rsp.toNat 8 v.toNat }

/-- Words are pushed one after the other. -/
def Machine.pushAll (vs : List (BitVec 64)) (m : Machine) : Machine :=
  vs.foldl (fun m v => m.push v) m

/-- The word at an address. -/
def word (mem : ByteMemory) (a : ℕ) : BitVec 64 := BitVec.ofNat 64 (mem.load a 8)

/-- The word at the top of the stack is taken to a register; a pop to `%rsp` keeps the word. -/
def Machine.pop (r : Reg) (m : Machine) : Machine :=
  (m.setReg .rsp (m.reg .rsp + 8)).setReg r (word m.mem m.sp)

/-! ## Flags -/

/-- A bit of the flags. -/
def setFlag (i : ℕ) (b : Bool) (f : BitVec 64) : BitVec 64 :=
  if b then f ||| 1#64 <<< i else f &&& ~~~(1#64 <<< i)

/-- The bit of the interrupt flag. -/
def interruptFlag : ℕ := 9

/-- The status flags of an addition: CF, PF, AF, ZF, SF and OF. -/
def addFlags (a b : BitVec 64) (f : BitVec 64) : BitVec 64 :=
  let sum := a + b
  let parity := (List.range 8).foldl (fun p i => xor p (sum.getLsbD i)) false
  setFlag 0 (decide (2 ^ 64 ≤ a.toNat + b.toNat)) <|
  setFlag 2 (!parity) <|
  setFlag 4 (decide (16 ≤ a.toNat % 16 + b.toNat % 16)) <|
  setFlag 6 (sum == 0) <|
  setFlag 7 sum.msb <|
  setFlag 11 (a.msb == b.msb && a.msb != sum.msb) f

/-! ## Instructions -/

/-- The instructions of entry stubs that fall through to the next one. -/
inductive Instr where
  /-- `pushq %r` -/
  | push (r : Reg)
  /-- `pushq $v` -/
  | pushImm (v : BitVec 64)
  /-- `popq %r` -/
  | pop (r : Reg)
  /-- `movq %src, %dst` -/
  | mov (src dst : Reg)
  /-- `addq $v, %r` -/
  | addImm (v : BitVec 64) (r : Reg)

/-- An instruction is executed. -/
def Instr.exec : Instr → Machine → Machine
  | .push r, m => m.push (m.reg r)
  | .pushImm v, m => m.push v
  | .pop r, m => m.pop r
  | .mov src dst, m => m.setReg dst (m.reg src)
  | .addImm v r, m =>
    { m.setReg r (m.reg r + v) with rflags := addFlags (m.reg r) v m.rflags }

/-- Instructions are executed one after the other. -/
def run : List Instr → Machine → Machine
  | [], m => m
  | i :: code, m => run code (i.exec m)

@[simp] theorem run_nil (m : Machine) : run [] m = m := rfl

@[simp] theorem run_cons (i : Instr) (code : List Instr) (m : Machine) :
    run (i :: code) m = run code (i.exec m) := rfl

theorem run_append (code code' : List Instr) (m : Machine) :
    run (code ++ code') m = run code' (run code m) := by
  induction code generalizing m with
  | nil => rfl
  | cons i code ih => exact ih (i.exec m)

/-! ## Interrupts -/

/-- The descriptor of an interrupt. -/
structure Gate where
  offset : BitVec 64
  selector : BitVec 16
  ist : BitVec 3
  kind : BitVec 4
  dpl : BitVec 2
  present : Bool
  deriving DecidableEq

/-- The gate in the 16 bytes from `a` on. -/
def Gate.read (mem : ByteMemory) (a : ℕ) : Gate where
  offset := BitVec.ofNat 64
    (mem.load a 2 + 2 ^ 16 * mem.load (a + 6) 2 + 2 ^ 32 * mem.load (a + 8) 4)
  selector := BitVec.ofNat 16 (mem.load (a + 2) 2)
  ist := (mem (a + 4)).extractLsb' 0 3
  kind := (mem (a + 5)).extractLsb' 0 4
  dpl := (mem (a + 5)).extractLsb' 5 2
  present := (mem (a + 5)).getLsbD 7

/-- The kind of an interrupt gate, which clears the interrupt flag. -/
def Gate.interruptKind : BitVec 4 := 0xe

/-- The kind of a trap gate. -/
def Gate.trapKind : BitVec 4 := 0xf

/-- Where the table of gates is (`lidt`). -/
structure Idtr where
  limit : ℕ
  base : ℕ

/-- What the processor takes: the vector, the error code of an exception that has one, and
whether the instruction is to be executed again. -/
structure Event where
  vector : ℕ
  error : Option (BitVec 64)
  restarts : Bool

/-- The exceptions that have an error code. -/
def errorVectors : List ℕ := [8, 10, 11, 12, 13, 14, 17, 21, 29, 30]

/-- An event has an error code where its vector has one. -/
def Event.HasCode (e : Event) : Prop := e.error.isSome = true ↔ e.vector ∈ errorVectors

instance (e : Event) : Decidable e.HasCode := inferInstanceAs (Decidable (_ ↔ _))

/-- The bits above the 48 of an address repeat its highest one. -/
def IsCanonical (a : BitVec 64) : Prop := (a.setWidth 48).signExtend 64 = a

instance (a : BitVec 64) : Decidable (IsCanonical a) :=
  inferInstanceAs (Decidable (_ = _))

/-- An interrupt can be taken through the gate, without another stack. -/
def Gate.Usable (g : Gate) : Prop :=
  g.present ∧ (g.kind = interruptKind ∨ g.kind = trapKind) ∧ g.ist = 0 ∧ IsCanonical g.offset

instance (g : Gate) : Decidable g.Usable := inferInstanceAs (Decidable (_ ∧ _ ∧ _ ∧ _))

/-- The flags that are pushed: RF is set where the instruction is to be executed again. -/
def Event.image (e : Event) (f : BitVec 64) : BitVec 64 :=
  if e.restarts then setFlag 16 true f else f

/-- The flags of a handler: TF, NT, RF and VM are cleared, and IF by an interrupt gate. -/
def Gate.flags (g : Gate) (f : BitVec 64) : BitVec 64 :=
  let f := setFlag 8 false (setFlag 14 false (setFlag 16 false (setFlag 17 false f)))
  if g.kind = interruptKind then setFlag interruptFlag false f else f

/-- What an interrupt pushes, in this order. -/
def Event.pushed (e : Event) (m : Machine) : List (BitVec 64) :=
  [m.ss.setWidth 64, m.reg .rsp, e.image m.rflags, m.cs.setWidth 64, m.rip] ++ e.error.toList

/-- The stack of a handler is aligned to 16 bytes. -/
def Machine.aligned (m : Machine) : Machine := m.setReg .rsp (m.reg .rsp &&& ~~~15#64)

/-- The stack is aligned, and the context is pushed. -/
def Event.enter (e : Event) (g : Gate) (m : Machine) : Machine :=
  let m' := m.aligned.pushAll (e.pushed m)
  { m' with rip := g.offset, cs := g.selector, rflags := g.flags m.rflags }

/-- An event is taken, if its gate lies in the table and can be used. -/
def deliver (idtr : Idtr) (e : Event) (m : Machine) : Option Machine :=
  let g := Gate.read m.mem (idtr.base + 16 * e.vector)
  if 16 * e.vector + 15 ≤ idtr.limit ∧ g.Usable then some (e.enter g m) else none

/-- `iretq`. -/
def iretq (m : Machine) : Machine :=
  { m.setReg .rsp (word m.mem (m.sp + 24)) with
    rip := word m.mem m.sp
    cs := (word m.mem (m.sp + 8)).setWidth 16
    rflags := word m.mem (m.sp + 16)
    ss := (word m.mem (m.sp + 32)).setWidth 16 }

/-! ## Words on the stack -/

/-- The words from `a` on. -/
def Words (mem : ByteMemory) (a : ℕ) : List (BitVec 64) → Prop
  | [] => True
  | w :: ws => word mem a = w ∧ Words mem (a + 8) ws

section Words

variable {mem mem' : ByteMemory} {a : ℕ} {v w : BitVec 64} {vs ws : List (BitVec 64)}
  {m : Machine}

/-- A word depends on its eight bytes. -/
theorem word_congr (h : ∀ b, a ≤ b → b < a + 8 → mem b = mem' b) : word mem a = word mem' a := by
  unfold word
  rw [ByteMemory.load_congr h]

/-- Words depend on their bytes. -/
theorem Words.congr (hwords : Words mem a ws)
    (h : ∀ b, a ≤ b → b < a + 8 * ws.length → mem' b = mem b) : Words mem' a ws := by
  induction ws generalizing a with
  | nil => exact trivial
  | cons w ws ih =>
    obtain ⟨hword, hrest⟩ := hwords
    rw [List.length_cons] at h
    refine ⟨?_, ih hrest fun b hle hlt => h b (by omega) (by omega)⟩
    rw [← hword]
    exact word_congr fun b hle hlt => h b hle (by omega)

theorem words_append :
    Words mem a (vs ++ ws) ↔ Words mem a vs ∧ Words mem (a + 8 * vs.length) ws := by
  induction vs generalizing a with
  | nil => simp [Words]
  | cons v vs ih =>
    rw [List.cons_append, Words, Words, ih, List.length_cons, and_assoc,
      show a + 8 + 8 * vs.length = a + 8 * (vs.length + 1) from by omega]

/-- A stored word is read back. -/
theorem word_store (v : BitVec 64) : word (mem.store a 8 v.toNat) a = v := by
  unfold word
  rw [ByteMemory.load_store v.isLt, BitVec.ofNat_toNat, BitVec.setWidth_eq]

/-! ## Pushes and pops -/

@[simp] theorem setReg_same (r : Reg) (v : BitVec 64) : (m.setReg r v).reg r = v := by
  simp [Machine.setReg]

theorem setReg_of_ne {r r' : Reg} (h : r' ≠ r) : (m.setReg r v).reg r' = m.reg r' := by
  simp [Machine.setReg, h]

/-- The top of the stack after a push. -/
theorem push_sp (hroom : 8 ≤ m.sp) : (m.push v).sp = m.sp - 8 := by
  have hreg : (m.push v).reg .rsp = m.reg .rsp - 8 := setReg_same (m := m) .rsp _
  unfold Machine.sp at hroom ⊢
  rw [hreg, BitVec.toNat_sub_of_le]
  · rfl
  · exact hroom

/-- **A push** writes the eight bytes below the top of the stack. -/
theorem push_spec (hroom : 8 ≤ m.sp) : (m.push v).sp = m.sp - 8 ∧
    word (m.push v).mem (m.sp - 8) = v ∧
    (∀ b, b < m.sp - 8 ∨ m.sp ≤ b → (m.push v).mem b = m.mem b) ∧
    ∀ r ≠ Reg.rsp, (m.push v).reg r = m.reg r := by
  have hsp := push_sp (v := v) hroom
  have hmem : (m.push v).mem = m.mem.store (m.sp - 8) 8 v.toNat := by
    rw [← hsp]
    unfold Machine.sp Machine.push
    simp
  refine ⟨hsp, ?_, fun b hout => ?_, fun r hne => setReg_of_ne hne⟩
  · rw [hmem]
    exact word_store v
  · rw [hmem]
    exact ByteMemory.store_of_not_mem (by omega)

/-- What pushing words leaves, on a machine with `ws` on its stack. -/
structure Pushed (vs ws : List (BitVec 64)) (m m' : Machine) : Prop where
  sp : m'.sp + 8 * vs.length = m.sp
  words : Words m'.mem m'.sp (vs.reverse ++ ws)
  rest : ∀ b, b < m'.sp ∨ m.sp ≤ b → m'.mem b = m.mem b
  reg : ∀ r ≠ Reg.rsp, m'.reg r = m.reg r
  same : m'.rip = m.rip ∧ m'.cs = m.cs ∧ m'.ss = m.ss ∧ m'.rflags = m.rflags

/-- **Words are pushed**: they lie on the stack, the last one first. -/
theorem pushAll_spec (hroom : 8 * vs.length ≤ m.sp) (hwords : Words m.mem m.sp ws) :
    Pushed vs ws m (m.pushAll vs) := by
  induction vs generalizing m ws with
  | nil => exact ⟨rfl, hwords, fun _ _ => rfl, fun _ _ => rfl, rfl, rfl, rfl, rfl⟩
  | cons v vs ih =>
    rw [List.length_cons] at hroom
    obtain ⟨hsp, hword, hkept, hreg⟩ := push_spec (v := v) (m := m) (by omega)
    have hwords' : Words (m.push v).mem (m.push v).sp (v :: ws) := by
      rw [hsp]
      refine ⟨hword, ?_⟩
      rw [show m.sp - 8 + 8 = m.sp from by omega]
      exact hwords.congr fun b hle _ => hkept b (Or.inr hle)
    have hrest := ih (by omega) hwords'
    have hsp' := hrest.sp
    refine ⟨?_, ?_, fun b hout => ?_, fun r hne => ?_, hrest.same⟩
    · rw [List.length_cons]
      show (m.push v |>.pushAll vs).sp + _ = _
      omega
    · have hall := hrest.words
      rw [List.reverse_cons, List.append_assoc]
      exact hall
    · have hout' : b < (m.push v |>.pushAll vs).sp ∨ m.sp ≤ b := hout
      exact (hrest.rest b (by omega)).trans (hkept b (by omega))
    · exact (hrest.reg r hne).trans (hreg r hne)

/-- Registers are pushed as their values. -/
theorem run_push {regs : List Reg} (hrsp : Reg.rsp ∉ regs) :
    run (regs.map .push) m = m.pushAll (regs.map m.reg) := by
  induction regs generalizing m with
  | nil => rfl
  | cons r regs ih =>
    rw [List.mem_cons, not_or] at hrsp
    have hvalues : regs.map (m.push (m.reg r)).reg = regs.map m.reg :=
      List.map_congr_left fun r' hmem =>
        setReg_of_ne fun heq => hrsp.2 (heq ▸ hmem)
    rw [List.map_cons, run_cons, Instr.exec, ih hrsp.2, hvalues]
    rfl

/-- What popping registers leaves, where the words on the stack are their values in `reg`. -/
structure Popped (regs : List Reg) (reg : Reg → BitVec 64) (m m' : Machine) : Prop where
  mem_regs : ∀ r ∈ regs, m'.reg r = reg r
  sp : m'.reg .rsp = m.reg .rsp + BitVec.ofNat 64 (8 * regs.length)
  others : ∀ r ∉ regs, r ≠ Reg.rsp → m'.reg r = m.reg r
  mem : m'.mem = m.mem
  same : m'.rip = m.rip ∧ m'.cs = m.cs ∧ m'.ss = m.ss ∧ m'.rflags = m.rflags

/-- **Registers are popped.** -/
theorem run_pop {regs : List Reg} {reg : Reg → BitVec 64} (hrsp : Reg.rsp ∉ regs)
    (hroom : m.sp + 8 * regs.length < 2 ^ 64) (hwords : Words m.mem m.sp (regs.map reg)) :
    Popped regs reg m (run (regs.map .pop) m) := by
  induction regs generalizing m with
  | nil =>
    exact ⟨fun r hmem => absurd hmem List.not_mem_nil, (BitVec.add_zero _).symm,
      fun _ _ _ => rfl, rfl, rfl, rfl, rfl, rfl⟩
  | cons r regs ih =>
    rw [List.mem_cons, not_or] at hrsp
    rw [List.length_cons] at hroom
    obtain ⟨hword, hrest⟩ := hwords
    have hpop : (m.pop r).reg .rsp = m.reg .rsp + 8 := by
      rw [Machine.pop, setReg_of_ne hrsp.1, setReg_same]
    have hsp : (m.pop r).sp = m.sp + 8 := by
      unfold Machine.sp at hroom ⊢
      have height : (8 : BitVec 64).toNat = 8 := rfl
      rw [hpop, BitVec.toNat_add, height]
      omega
    have hpopped := ih (m := m.pop r) hrsp.2 (by omega) (hsp ▸ hrest)
    refine ⟨fun r' hmem => ?_, ?_, fun r' hnot hne => ?_, hpopped.mem, hpopped.same⟩
    · by_cases hin : r' ∈ regs
      · exact hpopped.mem_regs r' hin
      · obtain rfl : r' = r := (List.mem_cons.mp hmem).resolve_right hin
        show (run (regs.map .pop) (m.pop r')).reg r' = reg r'
        rw [hpopped.others r' hin (Ne.symm hrsp.1), Machine.pop, setReg_same, hword]
    · show (run (regs.map .pop) (m.pop r)).reg .rsp = _
      rw [hpopped.sp, hpop, List.length_cons, Nat.mul_succ, Nat.add_comm, BitVec.ofNat_add,
        BitVec.add_assoc]
      rfl
    · rw [List.mem_cons, not_or] at hnot
      show (run (regs.map .pop) (m.pop r)).reg r' = _
      rw [hpopped.others r' hnot.2 hne, Machine.pop, setReg_of_ne hnot.1, setReg_of_ne hne]

/-! ## To a handler and back -/

/-- The stack is aligned to 16 bytes. -/
theorem toNat_aligned (a : BitVec 64) : (a &&& ~~~15#64).toNat = a.toNat / 16 * 16 := by
  have hmask : ~~~15#64 = BitVec.allOnes 64 <<< 4 := by decide
  have hbits : a &&& ~~~15#64 = a >>> 4 <<< 4 := by
    rw [BitVec.shiftLeft_ushiftRight, ← hmask]
  have hlt := a.isLt
  rw [hbits, BitVec.toNat_shiftLeft, BitVec.toNat_ushiftRight, Nat.shiftRight_eq_div_pow,
    Nat.shiftLeft_eq]
  exact Nat.mod_eq_of_lt (by omega)

/-- What taking an event leaves: the context on an aligned stack, and the gate's handler. -/
structure Entered (g : Gate) (e : Event) (m m' : Machine) : Prop where
  sp : m'.sp + 8 * (e.pushed m).length = m.sp / 16 * 16
  words : Words m'.mem m'.sp (e.pushed m).reverse
  rest : ∀ b, b < m'.sp ∨ m.sp / 16 * 16 ≤ b → m'.mem b = m.mem b
  reg : ∀ r ≠ Reg.rsp, m'.reg r = m.reg r
  control : m'.rip = g.offset ∧ m'.cs = g.selector ∧ m'.ss = m.ss ∧ m'.rflags = g.flags m.rflags

theorem aligned_sp : m.aligned.sp = m.sp / 16 * 16 := by
  unfold Machine.sp Machine.aligned
  rw [setReg_same, toNat_aligned]

/-- At most six words are pushed. -/
theorem length_pushed_le (e : Event) : (e.pushed m).length ≤ 6 := by
  unfold Event.pushed
  cases e.error <;> simp

/-- **An event is taken**, on a stack with room. -/
theorem enter_spec {g : Gate} {e : Event} (hroom : 64 ≤ m.sp) : Entered g e m (e.enter g m) := by
  have hsp : m.aligned.sp = m.sp / 16 * 16 := aligned_sp
  have hlength : (e.pushed m).length ≤ 6 := length_pushed_le e
  have hroom' : 8 * (e.pushed m).length ≤ m.aligned.sp := by omega
  have hpushed : Pushed (e.pushed m) [] m.aligned (m.aligned.pushAll (e.pushed m)) :=
    pushAll_spec hroom' trivial
  have hmem : (e.enter g m).mem = (m.aligned.pushAll (e.pushed m)).mem := by
    simp only [Event.enter]
  have hregs : (e.enter g m).reg = (m.aligned.pushAll (e.pushed m)).reg := by
    simp only [Event.enter]
  have hss : (e.enter g m).ss = (m.aligned.pushAll (e.pushed m)).ss := by
    simp only [Event.enter]
  have hsame : (e.enter g m).sp = (m.aligned.pushAll (e.pushed m)).sp := by
    rw [Machine.sp, hregs, Machine.sp]
  refine ⟨?_, ?_, fun b hout => ?_, fun r hne => ?_, ?_⟩
  · rw [hsame, hpushed.sp, hsp]
  · have hwords := hpushed.words
    rw [List.append_nil] at hwords
    rw [hmem, hsame]
    exact hwords
  · rw [hmem]
    rw [hsame] at hout
    exact hpushed.rest b (by omega)
  · rw [hregs, hpushed.reg r hne]
    exact setReg_of_ne hne
  · rw [hss, hpushed.same.2.2.1]
    simp only [Event.enter, Machine.aligned, Machine.setReg, and_self]

/-- An event is taken through a usable gate of the table. -/
theorem deliver_eq_some_iff {idtr : Idtr} {e : Event} {m' : Machine} :
    deliver idtr e m = some m' ↔ 16 * e.vector + 15 ≤ idtr.limit ∧
      (Gate.read m.mem (idtr.base + 16 * e.vector)).Usable ∧
      e.enter (Gate.read m.mem (idtr.base + 16 * e.vector)) m = m' := by
  simp only [deliver]
  split
  next h => simp [h.1, h.2]
  next h => simp only [reduceCtorEq, false_iff]; exact fun h' => h ⟨h'.1, h'.2.1⟩

/-- **The return** to a context on the stack. -/
theorem iretq_of_words {rip rflags rsp : BitVec 64} {cs ss : BitVec 16}
    (h : Words m.mem m.sp [rip, cs.setWidth 64, rflags, rsp, ss.setWidth 64]) :
    iretq m = { m.setReg .rsp rsp with rip, cs, ss, rflags } := by
  obtain ⟨hrip, hcs, hrflags, hrsp, hss, -⟩ := h
  have hback : ∀ s : BitVec 16, (s.setWidth 64).setWidth 16 = s := by
    intro s
    ext i hi
    simp
  unfold iretq
  rw [hrip, hcs, hrflags, hrsp, hss, hback, hback]

end Words

end X86
